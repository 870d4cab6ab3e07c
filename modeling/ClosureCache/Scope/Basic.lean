/-
The parts of a scope tree: scopes, the bindings declared in them, and the errors
of building a tree.
-/
import ClosureCache.Identity

namespace ClosureCache

/-- What a scope belongs to. -/
inductive ScopeKind where
  | global
  | function
  | block
deriving DecidableEq, Repr, Inhabited

/-- How a binding was introduced. -/
inductive BindingKind where
  | parameter
  /-- The trailing parameter that takes the surplus arguments. -/
  | rest
  /-- The collection of all arguments that a function has unless it is an
  arrow. -/
  | arguments
  /-- The own name of a function expression, visible only inside it. -/
  | functionName
  | var
  | letBinding
  | constBinding
  | functionDeclaration
deriving DecidableEq, Repr, Inhabited

namespace BindingKind

/-- Kinds that are never the target of an assignment. -/
def isImmutable : BindingKind → Bool
  | constBinding | functionName => true
  | _ => false

/-- Kinds that belong to the nearest function or global scope. -/
def isVarScoped : BindingKind → Bool
  | var => true
  | _ => false

/-- Kinds that hold nothing until their declaration runs. -/
def isLexical : BindingKind → Bool
  | letBinding | constBinding => true
  | _ => false

/-- Kinds that start out undefined and are written later by an initializer or a
hoisted function. -/
def isProvisional : BindingKind → Bool
  | var | functionDeclaration => true
  | _ => false

/-- Kinds that a `var` or function declaration of the same name may repeat. -/
def isRepeatable : BindingKind → Bool
  | var | functionDeclaration | parameter | arguments => true
  | _ => false

/-- Kinds that may repeat a binding already declared in the scope. -/
def mayRepeat : BindingKind → Bool
  | var | functionDeclaration => true
  | _ => false

end BindingKind

/-- Where the value of a binding lives. -/
inductive Storage where
  /-- In the slot of the environment. -/
  | slot
  /-- In a cell of its own, to which the slot refers. -/
  | cell
deriving DecidableEq, Repr, Inhabited

structure Binding where
  id : BindingId
  name : String
  /-- The scope that declares it. -/
  scope : ScopeId
  kind : BindingKind
  storage : Storage
  /-- Place in the environments of the declaring scope. -/
  slot : Nat
  /-- Number of assignments to the binding in the whole program. -/
  assignments : Nat
  /-- Whether the binding may be assigned and is. -/
  mutable : Bool
deriving DecidableEq, Repr

structure Scope where
  id : ScopeId
  kind : ScopeKind
  parent : Option ScopeId
  /-- Number of scopes around this one. -/
  depth : Nat
  /-- Whether this is the scope of an arrow function. -/
  arrow : Bool
  /-- The definition whose own scope this is. -/
  owner : Option SiteId
  /-- The bindings in the order of their slots. -/
  bindings : Array BindingId
  /-- The definitions that stand directly in this scope. -/
  sites : Array SiteId
deriving DecidableEq, Repr

namespace Scope

/-- A scope before anything is declared in it. -/
def fresh (id : ScopeId) (kind : ScopeKind) (parent : Option ScopeId) (depth : Nat) (arrow : Bool)
    (owner : Option SiteId) : Scope :=
  { id, kind, parent, depth, arrow, owner, bindings := #[], sites := #[] }

/-- Whether `var` declarations inside belong to this scope. -/
def isVarScope (s : Scope) : Bool :=
  match s.kind with
  | .function | .global => true
  | .block => false

/-- Whether this scope supplies a `this` of its own. -/
def providesThis (s : Scope) : Bool :=
  match s.kind with
  | .global => true
  | .function => !s.arrow
  | .block => false

end Scope

inductive ScopeError where
  | duplicateBinding (name : String) (scope : ScopeId)
  | unknownScope (scope : ScopeId)
  | unknownBinding (binding : BindingId)
deriving DecidableEq, Repr

namespace ScopeError

def code : ScopeError → String
  | duplicateBinding .. => "FE-MEMO-0101"
  | unknownScope .. => "FE-MEMO-0102"
  | unknownBinding .. => "FE-MEMO-0103"

def message : ScopeError → String
  | duplicateBinding name scope =>
    "SyntaxError: identifier '" ++ name ++ "' has already been declared in " ++ scope.text
  | unknownScope scope => "InternalError: unknown scope " ++ scope.text
  | unknownBinding binding => "InternalError: unknown binding " ++ binding.text

end ScopeError

end ClosureCache
