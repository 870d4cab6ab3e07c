/-
The state of a run.

An `Image` is what loading a program makes and no run changes.  A `Machine` is
what a run changes: the heap, the caches, the event log, and whether the program
has run.  A step of evaluation reads the one and changes the other; a step that
ends without a value leaves the machine as far as it had come.
-/
import ClosureCache.Cache.Registry
import ClosureCache.Evaluation.Environment
import ClosureCache.Evaluation.Property
import ClosureCache.EventLog
import ClosureCache.Program.Functions

namespace ClosureCache

structure Image where
  program : Program
  tree : ScopeTree
  sites : Array SiteInfo
  /-- The definitions by their site. -/
  functions : SortedMap SiteId FunctionNode
  analysis : AnalysisTable
  config : Config
  globalEnvironment : ObjectId
  /-- The object whose properties are the names that the program does not
  declare. -/
  globalObject : ObjectId

structure Machine where
  heap : Heap
  registry : Registry
  log : EventLog
  /-- Whether the statements at top level have been started. -/
  ran : Bool

abbrev EvalM := ReaderT Image (ExceptT (Stop EvalError) (StateM Machine))

namespace EvalM

def fail {α : Type} (e : EvalError) : EvalM α := throw (.error e)

def ofExcept {α : Type} : Except EvalError α → EvalM α
  | .ok a => return a
  | .error e => fail e

def heap : EvalM Heap := do
  return (← get).heap

def ask {α : Type} (f : Image → Heap → Except EvalError α) : EvalM α := do
  ofExcept (f (← read) (← heap))

def onHeap {α : Type} (x : HeapM (Stop EvalError) α) : EvalM α :=
  fun _ ⟨heap, registry, log, ran⟩ =>
  let (result, heap) := x heap
  (result, ⟨heap, registry, log, ran⟩)

def tryHeap {α : Type} (x : HeapM EvalError α) : EvalM α := onHeap (HeapM.mapError .error x)

def allocate (object : Object) : EvalM ObjectId := onHeap (HeapM.change fun h => h.allocate object)

def emit (n : Notice) : EvalM Unit := modify fun m => { m with log := m.log.emit n }

/-! ## Bindings -/

def readBinding (env : ObjectId) (b : BindingId) (name : String) : EvalM Value :=
  ask fun image h => h.readBinding image.tree env b name

def writeBinding (env : ObjectId) (b : BindingId) (name : String) (value : Value) : EvalM Unit := do
  tryHeap (Heap.writeBinding (← read).tree env b name value)

def newEnvironment (scope : ScopeId) (outer : Enclosure) (this : Option Value) :
    EvalM ObjectId := do
  tryHeap (Heap.newEnvironment (← read).tree scope outer this)

def readGlobal (name : String) : EvalM Value :=
  ask fun image h =>
    match h.object image.globalObject with
    | .error e => .error (.heap e)
    | .ok (.ordinary properties) =>
      match properties.get? name with
      | some value => .ok value
      | none => .error (.reference name)
    | .ok _ => .error (.reference name)

def readIdentifier (env : ObjectId) (i : Identifier) : EvalM Value :=
  match i.resolution with
  | .binding b => readBinding env b i.name
  | .global => readGlobal i.name
  | .unresolved => fail (.reference i.name)

def assign (env : ObjectId) (i : Identifier) (value : Value) : EvalM Unit := do
  match i.resolution with
  | .binding b => writeBinding env b i.name value
  | .global => onHeap (Heap.setProperty (.object (← read).globalObject) i.name value)
  | .unresolved => fail (.reference i.name)

def readThis (env : ObjectId) : Option ScopeId → EvalM Value
  | none => return .undefined
  | some provider => do
    let this ← ask fun _ h => (h.locateThis env provider).mapError .heap
    return this.getD .undefined

/-! ## Closures -/

def reachNotice (site : SiteId) (outcome errorCode detail : String) : Notice :=
  { component := "ephemeron_cache", event := "reach", outcome, errorCode, site := some site,
    detail }

/-- A closure of its own for a definition that is not shared. -/
def freshClosure (site : SiteId) (env : ObjectId) (reason : UnmemoizedReason) : EvalM Value := do
  if reason = .dynamicBody && (← read).config.recordCacheEvents then
    emit (reachNotice site "unmemoized" "" reason.name)
  return .object (← allocate (.function ⟨site, .chain env⟩))

/-- The closure that the registry holds for a key, made if there is none. -/
def reachRegistry (site : SiteId) (arity : Nat) (key : Key) (closure : Closure) :
    EvalM Registry.Reached := fun _ ⟨heap, registry, log, ran⟩ =>
  let build : HeapM EvalError ObjectId :=
    HeapM.change fun h => h.allocate (.function ⟨site, closure⟩)
  match registry.reach site arity key .cache build heap with
  | (.error e, registry, heap) => (.error (.error e), ⟨heap, registry, log, ran⟩)
  | (.ok reached, registry, heap) => (.ok reached, ⟨heap, registry, log, ran⟩)

/-- The closure of a shared definition: the one made earlier with the same
captures, or a new one. -/
def sharedClosure (site : SiteId) (env : ObjectId) (spec : CaptureSpec) : EvalM Value := do
  let image ← read
  match spec.buildKey ((← heap).liveScope image.tree env) with
  | .error e =>
    emit (reachNotice site "error" e.code e.message)
    fail (.key e)
  | .ok key =>
    let closure ← ask fun image h => h.captureClosure image.tree env spec
    let reached ← reachRegistry site spec.arity key closure
    if reached.created then
      emit (.ok "cache_registry" "create_cache" (some site) ("arity=" ++ spec.arity.repr))
    if image.config.recordCacheEvents then
      emit (reachNotice site reached.outcome.name "" key.text)
    return .object reached.function

/-- The function value of a definition that is reached in an environment. -/
def instantiate (node : FunctionNode) (env : ObjectId) : EvalM Value := do
  match node.site with
  | none => fail (.unannotated ("function '" ++ node.displayName ++ "'"))
  | some site =>
    match (← read).analysis.get? site with
    | none => fail (.unknownSite site)
    | some (.unmemoized reason) => freshClosure site env reason
    | some (.memoized spec) => sharedClosure site env spec

/-! ## Calls -/

def newArray (elements : List Value) : EvalM Value := do
  return .object (← allocate (.array elements.toArray))

/-- The function object that a call names. -/
def callee (value : Value) : EvalM (ObjectId × FunctionObject) := do
  match value.object? with
  | none => fail (.notCallable value.typeName)
  | some id =>
    match ← ask fun _ h => (h.object id).mapError .heap with
    | .function f => return (id, f)
    | other => fail (.notCallable other.kindName)

def definition (f : FunctionObject) : EvalM FunctionNode := do
  match (← read).functions.get? f.site with
  | some node => return node
  | none => fail (.unknownSite f.site)

end EvalM

end ClosureCache
