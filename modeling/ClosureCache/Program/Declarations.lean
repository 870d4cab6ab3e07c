/-
The names that a list of statements declares before any of it runs.

`hoistedVars` lists the `var` declarations of a function body or of the top
level, through blocks, branches and loops but not through inner functions.
`lexicals` lists the declarations that belong to a block itself: `let`, `const`
and named function statements that stand directly in it.
-/
import ClosureCache.Program.Basic

namespace ClosureCache

structure Declared where
  name : String
  kind : BindingKind
  storage : Storage
deriving DecidableEq, Repr

mutual

/-- The `var` declarations in a statement. -/
def Statement.hoistedVars : Statement → List Declared
  | .declaration .var name _ storage => [⟨name.name, .var, storage⟩]
  | .declaration .. => []
  | .function _ => []
  | .expression _ => []
  | .returning _ => []
  | .block b => b.hoistedVars
  | .ifElse _ consequent none => consequent.hoistedVars
  | .ifElse _ consequent (some alternate) => consequent.hoistedVars ++ alternate.hoistedVars
  | .whileLoop _ body => body.hoistedVars

def Block.hoistedVars : Block → List Declared
  | ⟨body, _⟩ => hoistedVars body

def hoistedVars : List Statement → List Declared
  | [] => []
  | s :: rest => s.hoistedVars ++ hoistedVars rest

end

/-- The declaration that a statement makes in the scope it stands in, other
than a `var` declaration. -/
def Statement.lexical? : Statement → Option Declared
  | .declaration .letDeclaration name _ storage => some ⟨name.name, .letBinding, storage⟩
  | .declaration .constDeclaration name _ storage => some ⟨name.name, .constBinding, storage⟩
  | .function node =>
    node.name.map fun name => ⟨name.name, .functionDeclaration, .slot⟩
  | _ => none

def lexicals (body : List Statement) : List Declared := body.filterMap Statement.lexical?

end ClosureCache
