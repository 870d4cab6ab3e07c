/-
The function definitions of a program in the order of its text.

A definition comes before the definitions inside its body.  Sites are numbered
in this order, so the position of a definition in the list is the number of its
site once the program is resolved.
-/
import ClosureCache.Program.Basic

namespace ClosureCache

mutual

def Statement.functions : Statement → List FunctionNode
  | .declaration _ _ none _ => []
  | .declaration _ _ (some init) _ => init.functions
  | .function node => node.functions
  | .expression e => e.functions
  | .returning none => []
  | .returning (some value) => value.functions
  | .block b => b.functions
  | .ifElse test consequent none => test.functions ++ consequent.functions
  | .ifElse test consequent (some alternate) =>
    test.functions ++ consequent.functions ++ alternate.functions
  | .whileLoop test body => test.functions ++ body.functions

def functionsInStatements : List Statement → List FunctionNode
  | [] => []
  | s :: rest => s.functions ++ functionsInStatements rest

def Block.functions : Block → List FunctionNode
  | ⟨body, _⟩ => functionsInStatements body

def FunctionNode.functions : FunctionNode → List FunctionNode
  | node@{ body := body, .. } => node :: functionsInStatements body

def Expression.functions : Expression → List FunctionNode
  | .literal _ => []
  | .identifier _ => []
  | .this _ => []
  | .object properties => functionsInProperties properties
  | .array elements => functionsInExpressions elements
  | .member object _ => object.functions
  | .setMember object _ value => object.functions ++ value.functions
  | .call callee arguments => callee.functions ++ functionsInExpressions arguments
  | .assign _ value => value.functions
  | .binary _ left right => left.functions ++ right.functions
  | .function node => node.functions
  | .dynamicEval _ => []

def functionsInExpressions : List Expression → List FunctionNode
  | [] => []
  | e :: rest => e.functions ++ functionsInExpressions rest

def functionsInProperties : List (String × Expression) → List FunctionNode
  | [] => []
  | (_, e) :: rest => e.functions ++ functionsInProperties rest

end

/-- The definitions of a program, each before those inside it. -/
def Program.functions (p : Program) : List FunctionNode := functionsInStatements p.body

end ClosureCache
