/-
Finding bindings and `this` from an environment.

An environment of the declaring scope holds a binding in its slot.  The walk
goes from an environment to the one around it; an activation of a shared
function has the function's captures around it instead, and the walk ends there.
Environments are made inside older ones, so a walk meets no environment twice.
-/
import ClosureCache.Evaluation.Error
import ClosureCache.Scope.Tree

namespace ClosureCache

/-- Where a binding is stored. -/
inductive Location where
  | slot (environment : ObjectId) (index : Nat)
  /-- An entry of the captures of a shared function. -/
  | captured (function : ObjectId) (index : Nat)
deriving DecidableEq, Repr

/-! ## Finding -/

/-- Where the captures of a function hold a binding. -/
def Heap.capturedLocation (h : Heap) (function : ObjectId) (b : BindingId) :
    Except EvalError (Option Location) :=
  match h.function function with
  | .error e => .error (.heap e)
  | .ok f =>
    match f.closure with
    | .chain _ => .ok none
    | .captured bindings _ =>
      .ok ((bindings.findIdx? fun entry => entry.1 == b).map (Location.captured function))

/-- Where a binding is stored, seen from an environment with fewer than `n`
others around it. -/
def Heap.locateFrom (h : Heap) (target : Binding) :
    Nat → ObjectId → Except EvalError (Option Location)
  | 0, _ => .ok none
  | n + 1, env =>
    match h.environment env with
    | .error e => .error (.heap e)
    | .ok e =>
      if e.scope = target.scope then .ok (some (.slot env target.slot))
      else
        match e.outer with
        | .environment parent => h.locateFrom target n parent
        | .captures function => h.capturedLocation function target.id
        | .outermost => .ok none

def Heap.locate (h : Heap) (tree : ScopeTree) (env : ObjectId) (b : BindingId) :
    Except EvalError (Option Location) :=
  match tree.binding b with
  | .error e => .error (.scope e)
  | .ok target => h.locateFrom target h.entries.size env

/-- The `this` that a scope supplies, seen from an environment with fewer than
`n` others around it. -/
def Heap.locateThisFrom (h : Heap) (provider : ScopeId) :
    Nat → ObjectId → Except HeapError (Option Value)
  | 0, _ => .ok none
  | n + 1, env =>
    match h.environment env with
    | .error e => .error e
    | .ok e =>
      if e.scope = provider then .ok e.this
      else
        match e.outer with
        | .environment parent => h.locateThisFrom provider n parent
        | .captures function =>
          match h.function function with
          | .error e => .error e
          | .ok f =>
            match f.closure with
            | .chain _ => .ok none
            | .captured _ this => .ok this
        | .outermost => .ok none

def Heap.locateThis (h : Heap) (env : ObjectId) (provider : ScopeId) :
    Except HeapError (Option Value) :=
  h.locateThisFrom provider h.entries.size env

/-! ## Reading storage -/

def Heap.slotAt (h : Heap) (env : ObjectId) (index : Nat) : Except HeapError (Option Value) :=
  match h.environment env with
  | .error e => .error e
  | .ok e =>
    match e.slots[index]? with
    | some contents => .ok contents
    | none => .error (.indexOutOfBounds env index)

def Heap.capturedSlot (h : Heap) (function : ObjectId) (index : Nat) :
    Except HeapError CapturedSlot :=
  match h.function function with
  | .error e => .error e
  | .ok f =>
    match f.closure with
    | .chain _ => .error (.kindMismatch function "memoized function" "closure")
    | .captured bindings _ =>
      match bindings[index]? with
      | some entry => .ok entry.2
      | none => .error (.indexOutOfBounds function index)

def Heap.capturedContents (h : Heap) : CapturedSlot → Except HeapError (Option Value)
  | .value contents => .ok contents
  | .binding env index => h.slotAt env index

/-- What is stored at a location: the value of a binding, or its cell. -/
def Heap.contentsAt (h : Heap) : Location → Except HeapError (Option Value)
  | .slot env index => h.slotAt env index
  | .captured function index =>
    match h.capturedSlot function index with
    | .error e => .error e
    | .ok slot => h.capturedContents slot

/-- The value of a binding, seen from an environment.  The name is for the
errors. -/
def Heap.readBinding (h : Heap) (tree : ScopeTree) (env : ObjectId) (b : BindingId)
    (name : String) : Except EvalError Value := do
  match ← h.locate tree env b with
  | none => throw (.reference name)
  | some location =>
    let raw ← (h.contentsAt location).mapError .heap
    let declared ← (tree.binding b).mapError .scope
    let contents ← match declared.storage, raw with
      | .cell, some (.object cell) => (h.cellContents cell).mapError .heap
      | _, raw => pure raw
    match contents with
    | some value => return value
    | none => throw (.uninitialized name)

/-- Writes a binding, seen from an environment.  A capture can be written only
through its cell. -/
def Heap.writeBinding (tree : ScopeTree) (env : ObjectId) (b : BindingId) (name : String)
    (value : Value) : HeapM EvalError Unit := do
  let declared ← HeapM.ask fun _ => (tree.binding b).mapError .scope
  match ← HeapM.ask fun h => h.locate tree env b with
  | none => throw (.reference name)
  | some location =>
    match declared.storage with
    | .cell =>
      match ← HeapM.ask fun h => (h.contentsAt location).mapError .heap with
      | some (.object cell) => HeapM.mapError .heap (setCellContents cell value)
      | _ => throw (.immutableCapture name)
    | .slot =>
      match location with
      | .slot env index => HeapM.mapError .heap (setEnvironmentSlot env index (some value))
      | .captured .. => throw (.immutableCapture name)

/-! ## Live bindings -/

def Heap.liveScope (h : Heap) (tree : ScopeTree) (env : ObjectId) : LiveScope where
  slot b :=
    match h.locate tree env b with
    | .ok (some location) => (h.contentsAt location).mapError fun _ => .missingBinding b
    | _ => .error (.missingBinding b)
  thisValue provider :=
    match h.locateThis env provider with
    | .ok (some this) => .ok this
    | _ => .error .missingThis
  isCell id :=
    match h.object id with
    | .ok (.cell _) => true
    | _ => false

/-! ## Making environments and capture tables -/

/-- The first contents of the slot of a binding.  A binding with a cell gets a
new one. -/
def Heap.initialSlot (tree : ScopeTree) (b : BindingId) : HeapM EvalError (Option Value) := do
  let declared ← HeapM.ask fun _ => (tree.binding b).mapError .scope
  let contents := if declared.kind.isLexical then none else some Value.undefined
  match declared.storage with
  | .slot => return contents
  | .cell => return some (.object (← HeapM.change fun h => h.allocate (.cell contents)))

def Heap.initialSlots (tree : ScopeTree) : List BindingId → HeapM EvalError (List (Option Value))
  | [] => return []
  | b :: rest => do
    let contents ← initialSlot tree b
    return contents :: (← initialSlots tree rest)

def Heap.newEnvironment (tree : ScopeTree) (scope : ScopeId) (outer : Enclosure)
    (this : Option Value) : HeapM EvalError ObjectId := do
  let declared ← HeapM.ask fun _ => (tree.scope scope).mapError .scope
  let slots ← initialSlots tree declared.bindings.toList
  HeapM.change fun h => h.allocate (.environment { scope, outer, slots := slots.toArray, this })

/-- How a shared function reads a captured binding.  A capture of a shared
function is passed on.  A binding with a cell is final, and so is one that has
its value and is not written again by a hoisted declaration; every other one is
read through its environment, so that a later initialisation is seen. -/
def Heap.captureSlot (h : Heap) (declared : Binding) : Location → Except EvalError CapturedSlot
  | .captured function index => (h.capturedSlot function index).mapError .heap
  | .slot env index =>
    match h.slotAt env index with
    | .error e => .error (.heap e)
    | .ok raw =>
      if declared.storage = .cell ∨ (raw.isSome && !declared.kind.isProvisional) then
        .ok (.value raw)
      else .ok (.binding env index)

def Heap.captureBinding (h : Heap) (tree : ScopeTree) (env : ObjectId) (b : BindingId) :
    Except EvalError CapturedSlot := do
  let declared ← (tree.binding b).mapError .scope
  match ← h.locate tree env b with
  | none => throw (.key (.missingBinding b))
  | some location => h.captureSlot declared location

/-- The capture table of a shared function made in an environment, and its
`this`. -/
def Heap.captureTable (h : Heap) (tree : ScopeTree) (env : ObjectId) :
    List Capture → Option Value → Except EvalError (List (BindingId × CapturedSlot) × Option Value)
  | [], this => .ok ([], this)
  | c :: rest, this =>
    match c.binding with
    | none => do
      let this ← (h.locateThis env c.source).mapError .heap
      h.captureTable tree env rest this
    | some b => do
      let slot ← h.captureBinding tree env b
      let (bindings, this) ← h.captureTable tree env rest this
      return ((b, slot) :: bindings, this)

def Heap.captureClosure (h : Heap) (tree : ScopeTree) (env : ObjectId) (spec : CaptureSpec) :
    Except EvalError Closure := do
  let (bindings, this) ← h.captureTable tree env spec.captures none
  return .captured bindings this

end ClosureCache
