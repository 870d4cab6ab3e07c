/-
Programs: statements, expressions and function definitions.

The same types hold a program before and after its names are resolved.  What
resolution adds stands in fields of its own: the binding of an identifier, the
provider of a `this`, the scope of a block, and the site, scope and arguments
binding of a function.  Before resolution these are empty.
-/
import ClosureCache.Value
import ClosureCache.Scope.Basic

namespace ClosureCache

/-- The stretch of source text that a definition was read from. -/
structure SourceSpan where
  startOffset : Nat
  endOffset : Nat
  startLine : Nat
  startColumn : Nat
  endLine : Nat
  endColumn : Nat
deriving DecidableEq, Repr, Inhabited

inductive Resolution where
  | unresolved
  | binding (id : BindingId)
  /-- A name that the program declares nowhere: a property of the global
  object. -/
  | global
deriving DecidableEq, Repr, Inhabited

structure Identifier where
  name : String
  resolution : Resolution
deriving DecidableEq, Repr, Inhabited

def Identifier.binding? (i : Identifier) : Option BindingId :=
  match i.resolution with
  | .binding id => some id
  | _ => none

/-- The form in which a function is defined. -/
inductive FunctionKind where
  | declaration
  | expression
  | arrow
deriving DecidableEq, Repr, Inhabited

/-- What a call of a function does. -/
inductive FunctionFlavor where
  | plain
  | generator
  | async
  | asyncGenerator
deriving DecidableEq, Repr, Inhabited

/-- Whether a call makes a suspended object and leaves the body alone. -/
def FunctionFlavor.isSuspending : FunctionFlavor → Bool
  | .plain => false
  | _ => true

/-- The keyword of a declaration. -/
inductive DeclarationKind where
  | var
  | letDeclaration
  | constDeclaration
deriving DecidableEq, Repr, Inhabited

inductive Literal where
  | undefined
  | null
  | bool (b : Bool)
  | number (n : Int64)
  | str (s : String)
deriving DecidableEq, Repr, Inhabited

def Literal.value : Literal → Value
  | undefined => .undefined
  | null => .null
  | bool b => .bool b
  | number n => .number n
  | str s => .str s

inductive BinaryOp where
  | add
  | sub
  | lt
  | strictEq
  | strictNe
deriving DecidableEq, Repr, Inhabited

mutual

inductive Statement where
  | declaration (kind : DeclarationKind) (name : Identifier) (init : Option Expression)
      (storage : Storage)
  | function (node : FunctionNode)
  | expression (e : Expression)
  | returning (value : Option Expression)
  | block (b : Block)
  | ifElse (test : Expression) (consequent : Block) (alternate : Option Block)
  | whileLoop (test : Expression) (body : Block)

inductive Expression where
  | literal (l : Literal)
  | identifier (i : Identifier)
  /-- The `this` of the activation whose scope is the provider. -/
  | this (provider : Option ScopeId)
  | object (properties : List (String × Expression))
  | array (elements : List Expression)
  | member (object : Expression) (property : String)
  | setMember (object : Expression) (property : String) (value : Expression)
  | call (callee : Expression) (arguments : List Expression)
  | assign (target : Identifier) (value : Expression)
  | binary (op : BinaryOp) (left right : Expression)
  | function (node : FunctionNode)
  /-- Source text to be evaluated when it is reached, unknown before. -/
  | dynamicEval (source : String)

/-- Statements between braces, with the scope that they open. -/
structure Block where
  body : List Statement
  scope : Option ScopeId

structure FunctionNode where
  name : Option Identifier
  kind : FunctionKind
  flavor : FunctionFlavor
  /-- Whether closures of this definition are shared through a cache. -/
  memoized : Bool
  params : List Identifier
  rest : Option Identifier
  body : List Statement
  span : SourceSpan
  site : Option SiteId
  /-- The function's own scope. -/
  scope : Option ScopeId
  /-- The binding of the implicit arguments collection. -/
  arguments : Option BindingId

end

instance : Inhabited Expression := ⟨.literal .undefined⟩

instance : Inhabited Statement := ⟨.returning none⟩

instance : Inhabited Block := ⟨⟨[], none⟩⟩

namespace FunctionNode

/-- Whether the function is an arrow: it has no `this` and no arguments
collection of its own. -/
def isArrow (f : FunctionNode) : Bool := f.kind == .arrow

def displayName (f : FunctionNode) : String :=
  match f.name with
  | some name => name.name
  | none => "<anonymous>"

end FunctionNode

structure Program where
  body : List Statement
deriving Inhabited

end ClosureCache
