/-
Scope trees built in place.

An arena keeps with each scope an index of the names that it declares.  A declaration
writes the list of the scope, its index and the bindings one after the other, and looks a
name up in the index alone.  An operation that fails says why and leaves the arena as far
as it had come.

The walks outwards are loops that follow the links to the parents for as long as there are
any, and are given by their turns.
-/
import ClosureCache.Scope.Tree
import ClosureCache.SortedMap

namespace ClosureCache

/-- A scope with the index of its names. -/
structure IndexedScope extends Scope where
  names : SortedMap String BindingId
deriving DecidableEq, Repr

namespace IndexedScope

/-- The scope with one more binding in its list. -/
def list (s : IndexedScope) (b : BindingId) : IndexedScope :=
  { s with bindings := s.bindings.push b }

/-- The scope with a name entered in its index. -/
def enter (s : IndexedScope) (name : String) (b : BindingId) : IndexedScope :=
  { s with names := s.names.insert name b }

end IndexedScope

/-- All scopes and bindings of a program that is being built. -/
structure ScopeArena where
  scopes : Array IndexedScope
  bindings : Array Binding
deriving DecidableEq, Repr

/-- A step that may change the arena and may fail. -/
abbrev ArenaM := ExceptT ScopeError (StateM ScopeArena)

namespace ScopeArena

def initial : ScopeArena :=
  { scopes := #[⟨Scope.fresh ScopeTree.global .global none 0 false none, ∅⟩], bindings := #[] }

/-- The tree without the indexes. -/
def tree (a : ScopeArena) : ScopeTree :=
  { scopes := a.scopes.map IndexedScope.toScope, bindings := a.bindings }

/-! ## Scopes and bindings by number -/

def scope? (a : ScopeArena) (s : ScopeId) : Option IndexedScope := a.scopes[s.index]?

def binding? (a : ScopeArena) (b : BindingId) : Option Binding := a.bindings[b.index]?

def scope (s : ScopeId) : ArenaM IndexedScope := do
  match (← get).scope? s with
  | some scope => return scope
  | none => throw (.unknownScope s)

def binding (b : BindingId) : ArenaM Binding := do
  match (← get).binding? b with
  | some binding => return binding
  | none => throw (.unknownBinding b)

def modifyScope (a : ScopeArena) (s : ScopeId) (f : IndexedScope → IndexedScope) : ScopeArena :=
  { a with scopes := a.scopes.modify s.index f }

def modifyBinding (a : ScopeArena) (b : BindingId) (f : Binding → Binding) : ScopeArena :=
  { a with bindings := a.bindings.modify b.index f }

def lookupLocal (a : ScopeArena) (s : ScopeId) (name : String) : Option BindingId :=
  (a.scope? s).bind fun scope => scope.names.get? name

/-! ## Building -/

def addScope (parent : ScopeId) (kind : ScopeKind) (arrow : Bool) (owner : Option SiteId) :
    ArenaM ScopeId := do
  let depth := (← scope parent).depth + 1
  let id : ScopeId := ⟨(← get).scopes.size⟩
  modify fun a => { a with
    scopes := a.scopes.push ⟨Scope.fresh id kind (some parent) depth arrow owner, ∅⟩ }
  return id

/-- Declares a name in a scope.  A repetition that is allowed gives the binding that is
there, and a function declaration gives that binding its kind in place. -/
def declare (s : ScopeId) (name : String) (kind : BindingKind) (storage : Storage) :
    ArenaM BindingId := do
  match (← scope s).names.get? name with
  | some existing =>
    let prior := (← binding existing).kind
    if kind.mayRepeat && prior.isRepeatable then
      if kind = .functionDeclaration then
        modify fun a => a.modifyBinding existing fun b => { b with kind }
      return existing
    else throw (.duplicateBinding name s)
  | none =>
    let id : BindingId := ⟨(← get).bindings.size⟩
    let slot := (← scope s).bindings.size
    modify fun a => a.modifyScope s fun scope => scope.list id
    modify fun a => a.modifyScope s fun scope => scope.enter name id
    modify fun a => { a with
      bindings := a.bindings.push
        { id, name, scope := s, kind, storage, slot, assignments := 0, mutable := false } }
    return id

def recordSite (s : ScopeId) (site : SiteId) : ArenaM Unit := do
  let _ ← scope s
  modify fun a => a.modifyScope s fun scope => { scope with
    sites := scope.sites.push site }

def recordAssignment (b : BindingId) : ArenaM Unit := do
  let _ ← binding b
  modify fun a => a.modifyBinding b fun binding => { binding with
    assignments := binding.assignments + 1 }

def finalizeMutability : ArenaM Unit :=
  modify fun a => { a with bindings := a.bindings.map ScopeTree.settle }

/-- An operation that builds a scope tree. -/
inductive Operation where
  | addScope (parent : ScopeId) (kind : ScopeKind) (arrow : Bool) (owner : Option SiteId)
  | declare (s : ScopeId) (name : String) (kind : BindingKind) (storage : Storage)
  | recordSite (s : ScopeId) (site : SiteId)
  | recordAssignment (b : BindingId)
  | finalizeMutability
deriving DecidableEq, Repr

inductive Answer where
  | scope (s : ScopeId)
  | binding (b : BindingId)
  | done
deriving DecidableEq, Repr

namespace Operation

def run : Operation → ArenaM Answer
  | addScope parent kind arrow owner => .scope <$> ScopeArena.addScope parent kind arrow owner
  | declare s name kind storage => .binding <$> ScopeArena.declare s name kind storage
  | recordSite s site => (fun _ => .done) <$> ScopeArena.recordSite s site
  | recordAssignment b => (fun _ => .done) <$> ScopeArena.recordAssignment b
  | finalizeMutability => (fun _ => .done) <$> ScopeArena.finalizeMutability

def apply (t : ScopeTree) : Operation → Except ScopeError (Answer × ScopeTree)
  | addScope parent kind arrow owner =>
    (t.addScope parent kind arrow owner).map fun r => (.scope r.1, r.2)
  | declare s name kind storage =>
    (t.declare s name kind storage).map fun r => (.binding r.1, r.2)
  | recordSite s site => (t.recordSite s site).map fun t' => (.done, t')
  | recordAssignment b => (t.recordAssignment b).map fun t' => (.done, t')
  | finalizeMutability => .ok (.done, t.finalizeMutability)

/-- The tree after the operation, the same one if it fails. -/
def onTree (t : ScopeTree) (o : Operation) : ScopeTree :=
  match o.apply t with
  | .ok (_, t') => t'
  | .error _ => t

end Operation

/-- The arena after one more operation, with or without success. -/
def step (a : ScopeArena) (o : Operation) : ScopeArena := (o.run a).2

def after (ops : List Operation) : ScopeArena := ops.foldl step initial

/-! ## Walking outwards -/

/-- What a turn of a loop comes to. -/
inductive Turn (σ ρ : Type) where
  /-- The loop goes on, with what it keeps in hand. -/
  | onward (next : σ)
  | ended (result : ρ)
deriving DecidableEq, Repr

/-- A loop with such turns ends with a result.  Nothing bounds the number of turns, and a
loop that goes on for ever has no result. -/
inductive Ends {σ ρ : Type} (turn : σ → Turn σ ρ) : σ → ρ → Prop
  | now {s : σ} {r : ρ} : turn s = .ended r → Ends turn s r
  | later {s s' : σ} {r : ρ} : turn s = .onward s' → Ends turn s' r → Ends turn s r

/-- A turn of the walk for the binding of a name, which has come to a scope. -/
def resolveTurn (a : ScopeArena) (name : String) :
    Option ScopeId → Turn (Option ScopeId) (Option BindingId)
  | none => .ended none
  | some s =>
    match a.scope? s with
    | none => .ended none
    | some scope =>
      match scope.names.get? name with
      | some b => .ended (some b)
      | none => .onward scope.parent

/-- A turn of the walk that tells whether a scope is another one or lies inside it. -/
def isWithinTurn (a : ScopeArena) (ancestor : ScopeId) :
    Option ScopeId → Turn (Option ScopeId) Bool
  | none => .ended false
  | some s =>
    if s = ancestor then .ended true
    else .onward ((a.scope? s).bind fun scope => scope.parent)

/-- A turn of the walk for a scope that passes a test: `Scope.isVarScope` for the home of
`var` declarations, `Scope.providesThis` for the supplier of `this`.  The walk ends at the
latest where nothing lies further out. -/
def nearestTurn (a : ScopeArena) (test : Scope → Bool) (s : ScopeId) :
    Turn ScopeId (Except ScopeError ScopeId) :=
  match a.scope? s with
  | none => .ended (.error (.unknownScope s))
  | some scope =>
    if test scope.toScope then .ended (.ok s)
    else
      match scope.parent with
      | some parent => .onward parent
      | none => .ended (.ok s)

end ScopeArena

end ClosureCache
