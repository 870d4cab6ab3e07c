/-
The scope tree of a program: all scopes and all bindings, each at the position
of its number.

Scope 0 is the global scope, and a scope is opened inside one that is already
there, so the parent of a scope has a smaller number than the scope itself.
`outward` lists a scope and the scopes around it from the inside out; resolving
a name, testing whether one scope lies within another, and finding where `var`
declarations and `this` belong are searches in that list.
-/
import ClosureCache.Scope.Basic

namespace ClosureCache

structure ScopeTree where
  scopes : Array Scope
  bindings : Array Binding
deriving DecidableEq, Repr

namespace ScopeTree

def global : ScopeId := ⟨0⟩

def initial : ScopeTree :=
  { scopes := #[Scope.fresh global .global none 0 false none], bindings := #[] }

instance : Inhabited ScopeTree := ⟨initial⟩

/-! ## Scopes and bindings by number -/

def scope? (t : ScopeTree) (s : ScopeId) : Option Scope := t.scopes[s.index]?

def binding? (t : ScopeTree) (b : BindingId) : Option Binding := t.bindings[b.index]?

def scope (t : ScopeTree) (s : ScopeId) : Except ScopeError Scope :=
  match t.scope? s with
  | some scope => .ok scope
  | none => .error (.unknownScope s)

def binding (t : ScopeTree) (b : BindingId) : Except ScopeError Binding :=
  match t.binding? b with
  | some binding => .ok binding
  | none => .error (.unknownBinding b)

def lookupLocal (t : ScopeTree) (s : ScopeId) (name : String) : Option BindingId :=
  match t.scope? s with
  | none => none
  | some scope => scope.bindings.find? fun b => (t.binding? b).any fun d => d.name == name

/-! ## Walking outwards -/

/-- A scope and at most `n` of the scopes around it, from the inside out. -/
def outwardFrom (t : ScopeTree) : Nat → ScopeId → List ScopeId
  | 0, s => [s]
  | n + 1, s =>
    match (t.scope? s).bind Scope.parent with
    | none => [s]
    | some parent => s :: t.outwardFrom n parent

/-- A scope and the scopes around it, from the inside out.  A scope has no more
scopes around it than its number says, for every parent has a smaller one. -/
def outward (t : ScopeTree) (s : ScopeId) : List ScopeId := t.outwardFrom s.index s

/-- The binding that a name denotes in a scope: the innermost declaration. -/
def resolve (t : ScopeTree) (s : ScopeId) (name : String) : Option BindingId :=
  (t.outward s).findSome? fun a => t.lookupLocal a name

def isWithin (t : ScopeTree) (s ancestor : ScopeId) : Bool := (t.outward s).contains ancestor

/-- The innermost scope from `s` outwards that passes a test. -/
def nearest (t : ScopeTree) (test : Scope → Bool) (s : ScopeId) : Except ScopeError ScopeId :=
  match t.scope? s with
  | none => .error (.unknownScope s)
  | some _ =>
    match (t.outward s).find? fun a => (t.scope? a).any test with
    | some a => .ok a
    | none => .ok global

/-- The scope that takes the `var` declarations made in a scope. -/
def varScope (t : ScopeTree) (s : ScopeId) : Except ScopeError ScopeId :=
  t.nearest Scope.isVarScope s

/-- The scope that supplies `this` in a scope. -/
def thisProvider (t : ScopeTree) (s : ScopeId) : Except ScopeError ScopeId :=
  t.nearest Scope.providesThis s

/-! ## Building -/

def addScope (t : ScopeTree) (parent : ScopeId) (kind : ScopeKind) (arrow : Bool)
    (owner : Option SiteId) : Except ScopeError (ScopeId × ScopeTree) :=
  match t.scope? parent with
  | none => .error (.unknownScope parent)
  | some outer =>
    let id : ScopeId := ⟨t.scopes.size⟩
    let opened := Scope.fresh id kind (some parent) (outer.depth + 1) arrow owner
    .ok (id, { t with scopes := t.scopes.push opened })

def modifyScope (t : ScopeTree) (s : ScopeId) (f : Scope → Scope) : ScopeTree :=
  { t with scopes := t.scopes.modify s.index f }

def modifyBinding (t : ScopeTree) (b : BindingId) (f : Binding → Binding) : ScopeTree :=
  { t with bindings := t.bindings.modify b.index f }

def addBinding (t : ScopeTree) (scope : Scope) (name : String) (kind : BindingKind)
    (storage : Storage) : BindingId × ScopeTree :=
  let id : BindingId := ⟨t.bindings.size⟩
  let binding : Binding :=
    { id, name, scope := scope.id, kind, storage, slot := scope.bindings.size,
      assignments := 0, mutable := false }
  let scopes := t.scopes.modify scope.id.index fun s => { s with bindings := s.bindings.push id }
  (id, { scopes, bindings := t.bindings.push binding })

/-- Declares a name in a scope.  A `var` or function declaration may repeat
another one, a parameter or the arguments collection, and is then the same
binding; a function declaration also gives that binding its kind.  Every other
repetition is refused. -/
def declare (t : ScopeTree) (s : ScopeId) (name : String) (kind : BindingKind)
    (storage : Storage) : Except ScopeError (BindingId × ScopeTree) :=
  match t.scope? s with
  | none => .error (.unknownScope s)
  | some scope =>
    match t.lookupLocal s name with
    | none => .ok (t.addBinding scope name kind storage)
    | some existing =>
      match t.binding? existing with
      | none => .error (.unknownBinding existing)
      | some prior =>
        if kind.mayRepeat && prior.kind.isRepeatable then
          if kind = .functionDeclaration then
            .ok (existing, t.modifyBinding existing fun b => { b with kind })
          else .ok (existing, t)
        else .error (.duplicateBinding name s)

def recordSite (t : ScopeTree) (s : ScopeId) (site : SiteId) : Except ScopeError ScopeTree :=
  match t.scope? s with
  | none => .error (.unknownScope s)
  | some _ => .ok (t.modifyScope s fun scope => { scope with sites := scope.sites.push site })

def recordAssignment (t : ScopeTree) (b : BindingId) : Except ScopeError ScopeTree :=
  match t.binding? b with
  | none => .error (.unknownBinding b)
  | some _ =>
    .ok (t.modifyBinding b fun binding => { binding with assignments := binding.assignments + 1 })

/-- A binding with its flag set from its kind and its assignments. -/
def settle (b : Binding) : Binding :=
  { b with mutable := !b.kind.isImmutable && decide (0 < b.assignments) }

def finalizeMutability (t : ScopeTree) : ScopeTree :=
  { t with bindings := t.bindings.map settle }

end ScopeTree

end ClosureCache
