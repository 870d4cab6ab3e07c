/-
What the statements of a body refer to, in the order of the text.

An assignment refers to its target after its value.  The bodies of inner
functions stand where the functions do; parameters and declared names are no
references.
-/
import ClosureCache.Program.Basic

namespace ClosureCache

/-- Something that a body refers to. -/
inductive Reference where
  | binding (id : BindingId)
  /-- The `this` that a scope supplies. -/
  | this (provider : ScopeId)
  /-- Text that is evaluated at run time and may refer to anything. -/
  | dynamic
deriving DecidableEq, Repr

def Resolution.references : Resolution → List Reference
  | .binding id => [.binding id]
  | _ => []

mutual

def Statement.references : Statement → List Reference
  | .declaration _ _ none _ => []
  | .declaration _ _ (some init) _ => init.references
  | .function node => node.references
  | .expression e => e.references
  | .returning none => []
  | .returning (some value) => value.references
  | .block b => b.references
  | .ifElse test consequent none => test.references ++ consequent.references
  | .ifElse test consequent (some alternate) =>
    test.references ++ consequent.references ++ alternate.references
  | .whileLoop test body => test.references ++ body.references

def referencesInStatements : List Statement → List Reference
  | [] => []
  | s :: rest => s.references ++ referencesInStatements rest

def Block.references : Block → List Reference
  | ⟨body, _⟩ => referencesInStatements body

def FunctionNode.references : FunctionNode → List Reference
  | { body := body, .. } => referencesInStatements body

def Expression.references : Expression → List Reference
  | .literal _ => []
  | .identifier i => i.resolution.references
  | .this none => []
  | .this (some provider) => [.this provider]
  | .object properties => referencesInProperties properties
  | .array elements => referencesInExpressions elements
  | .member object _ => object.references
  | .setMember object _ value => object.references ++ value.references
  | .call callee arguments => callee.references ++ referencesInExpressions arguments
  | .assign target value => value.references ++ target.resolution.references
  | .binary _ left right => left.references ++ right.references
  | .function node => node.references
  | .dynamicEval _ => [.dynamic]

def referencesInExpressions : List Expression → List Reference
  | [] => []
  | e :: rest => e.references ++ referencesInExpressions rest

def referencesInProperties : List (String × Expression) → List Reference
  | [] => []
  | (_, e) :: rest => e.references ++ referencesInProperties rest

end

namespace Reference

def binding? : Reference → Option BindingId
  | binding id => some id
  | _ => none

/-- The supplier of the `this` referred to. -/
def provider? : Reference → Option ScopeId
  | this provider => some provider
  | _ => none

end Reference

end ClosureCache
