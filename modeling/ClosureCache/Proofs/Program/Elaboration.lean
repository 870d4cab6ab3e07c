/-
Lexical scoping, as a relation between the text of a program and its resolved form.

`Elaborates` relates code that stands in a scope of the tree `t` to the same code with its
names bound in `t`.  Every annotation is what the finished tree gives for the place: a use
of a name what the tree resolves it to from there, a `this` its provider, a declared name
what the scope of its declaration holds under it.  A block and a function stand for scopes
whose parent is the scope around them and which hold just what they declare, and an assignment
is one that the tree has counted.  That no two of them stand for the same scope is said by the
list of the scopes that code opens, in the order of its text.

What else is known of resolved code follows from this relation, by induction on it.
-/
import Mathlib.Data.List.Forall2
import ClosureCache.Proofs.Program.Bound
import ClosureCache.Proofs.Program.Declaring

namespace ClosureCache

/-! ## Names -/

/-- A declared name bound to what the scope `s` itself holds under it. -/
def Identifier.HeldBy (t : ScopeTree) (s : ScopeId) (i i' : Identifier) : Prop :=
  ∃ b, t.lookupLocal s i.name = some b ∧ i' = { i with resolution := .binding b }

/-- What a name denotes in the scope `s`: the innermost declaration around it, or a
property of the global object. -/
def ScopeTree.meaning (t : ScopeTree) (s : ScopeId) (name : String) : Resolution :=
  match t.resolve s name with
  | some b => .binding b
  | none => .global

/-- The own name of a function expression is declared by the function, whose scope is `own`,
unless the function declares it otherwise: then it names nothing. -/
def FunctionNode.BindsOwnName (t : ScopeTree) (own : ScopeId) (node : FunctionNode)
    (i i' : Identifier) : Prop :=
  if ∃ d ∈ node.declarations, d.name = i.name then i' = { i with resolution := .unresolved }
  else i.HeldBy t own i'

/-- A definition in the scope `s`, under the name `name` as its place binds it, and the same
definition with all that belongs to the scope `own` of the function bound. -/
structure FunctionNode.Opens (t : ScopeTree) (s own : ScopeId) (name : Option Identifier)
    (node node' : FunctionNode) : Prop where
  same : node'.kind = node.kind ∧ node'.flavor = node.flavor ∧ node'.memoized = node.memoized ∧
    node'.span = node.span
  named : name.map Identifier.name = node.name.map Identifier.name
  site : node'.site.isSome = true
  scope : node'.scope = some own
  opened : ∃ sc, t.scope? own = some sc ∧ sc.kind = .function ∧ sc.parent = some s ∧
    sc.arrow = node.isArrow
  compatible : Compatible node.declarations
  holds : t.Holds own (node.declarations ++ node.visibleName)
  params : List.Forall₂ (Identifier.HeldBy t own) node.params node'.params
  rest : Option.Rel (Identifier.HeldBy t own) node.rest node'.rest
  /-- An annotation is kept where the function declares no arguments collection. -/
  arguments : if node.implicitArguments = [] then node'.arguments = node.arguments
    else ∃ b, t.lookupLocal own "arguments" = some b ∧ node'.arguments = some b
  kept : node.kind ≠ .expression → node'.name = name
  ownName : node.kind = .expression → Option.Rel (node.BindsOwnName t own) name node'.name

section Names

variable {t : ScopeTree} {s own : ScopeId} {i i' : Identifier}

/-- What a name means is declared further out. -/
theorem ScopeTree.Proper.visible_meaning (ht : t.Proper) (s : ScopeId) (name : String) :
    (t.meaning s name).Visible t s := by
  rw [ScopeTree.meaning]
  split
  · next hb => exact ht.resolve_spec hb
  · trivial

theorem Identifier.HeldBy.boundIn (h : i.HeldBy t s i') (ht : t.Proper) : i'.BoundIn t s := by
  obtain ⟨b, hb, rfl⟩ := h
  exact Identifier.boundIn_of_declares (ht.lookupLocal_spec hb)

variable {node node' : FunctionNode} {name : Option Identifier}

theorem FunctionNode.BindsOwnName.boundIn (h : node.BindsOwnName t own i i') (ht : t.Proper) :
    i'.BoundIn t own := by
  rw [BindsOwnName] at h
  split at h
  · subst h
    intro b hb
    cases hb
  · exact h.boundIn ht

namespace FunctionNode.Opens

theorem exists_of_mem_params (h : node.Opens t s own name node') {p : Identifier}
    (hp : p ∈ node'.params) : ∃ i ∈ node.params, i.HeldBy t own p := by
  obtain ⟨hlength, hget⟩ := List.forall₂_iff_get.1 h.params
  obtain ⟨n, rfl⟩ := List.mem_iff_get.1 hp
  have hn : n.1 < node.params.length := hlength.symm ▸ n.isLt
  exact ⟨_, List.get_mem _ ⟨n, hn⟩, hget n hn n.isLt⟩

theorem exists_of_rest (h : node.Opens t s own name node') {r : Identifier}
    (hr : node'.rest = some r) : ∃ i, node.rest = some i ∧ i.HeldBy t own r := by
  have hrest := h.rest
  rw [hr] at hrest
  generalize node.rest = given at hrest
  cases hrest with
  | @some i _ hi => exact ⟨i, rfl, hi⟩

/-- The own name of a function expression, as the function binds it. -/
theorem exists_of_ownName (h : node.Opens t s own name node') (hkind : node'.kind = .expression)
    {j : Identifier} (hj : node'.name = some j) : ∃ i, name = some i ∧
      node.BindsOwnName t own i j := by
  have hown := h.ownName (h.same.1 ▸ hkind)
  rw [hj] at hown
  cases hown with
  | @some i _ hi => exact ⟨i, rfl, hi⟩

theorem isArrow_eq (h : node.Opens t s own name node') : node'.isArrow = node.isArrow := by
  rw [isArrow, isArrow, h.same.1]

end FunctionNode.Opens

end Names

/-! ## Code -/

section Elaborates

variable (t : ScopeTree)

mutual

/-- A statement in a scope, and the same statement with its names bound. -/
inductive Statement.Elaborates : ScopeId → Statement → Statement → Prop
  | declaration {s home : ScopeId} {kind : DeclarationKind} {name name' : Identifier}
      {init init' : Option Expression} {storage : Storage} :
      OptionalElaborates s init init' → kind.Home t s home → name.HeldBy t home name' →
      Statement.Elaborates s (.declaration kind name init storage)
        (.declaration kind name' init' storage)
  | function {s : ScopeId} {name : Option Identifier} {node node' : FunctionNode} :
      Option.Rel (Identifier.HeldBy t s) node.name name →
      FunctionNode.Elaborates s name node node' →
      Statement.Elaborates s (.function node) (.function node')
  | expression {s : ScopeId} {e e' : Expression} :
      Expression.Elaborates s e e' → Statement.Elaborates s (.expression e) (.expression e')
  | returning {s : ScopeId} {value value' : Option Expression} :
      OptionalElaborates s value value' →
      Statement.Elaborates s (.returning value) (.returning value')
  | block {s : ScopeId} {b b' : Block} :
      Block.Elaborates s b b' → Statement.Elaborates s (.block b) (.block b')
  | ifElse {s : ScopeId} {test test' : Expression} {consequent consequent' : Block}
      {alternate alternate' : Option Block} :
      Expression.Elaborates s test test' → Block.Elaborates s consequent consequent' →
      AlternateElaborates s alternate alternate' →
      Statement.Elaborates s (.ifElse test consequent alternate)
        (.ifElse test' consequent' alternate')
  | whileLoop {s : ScopeId} {test test' : Expression} {body body' : Block} :
      Expression.Elaborates s test test' → Block.Elaborates s body body' →
      Statement.Elaborates s (.whileLoop test body) (.whileLoop test' body')

inductive StatementsElaborate : ScopeId → List Statement → List Statement → Prop
  | nil {s : ScopeId} : StatementsElaborate s [] []
  | cons {s : ScopeId} {stmt stmt' : Statement} {rest rest' : List Statement} :
      Statement.Elaborates s stmt stmt' → StatementsElaborate s rest rest' →
      StatementsElaborate s (stmt :: rest) (stmt' :: rest')

/-- A block in the scope `s` opens a scope of its own, which holds what its `let`, `const`
and function statements declare. -/
inductive Block.Elaborates : ScopeId → Block → Block → Prop
  | intro {s inner : ScopeId} {sc : Scope} {body body' : List Statement}
      {scope : Option ScopeId} :
      t.scope? inner = some sc → sc.kind = .block → sc.parent = some s →
      Compatible (lexicals body) → t.Holds inner (lexicals body) →
      StatementsElaborate inner body body' →
      Block.Elaborates s ⟨body, scope⟩ ⟨body', some inner⟩

inductive AlternateElaborates : ScopeId → Option Block → Option Block → Prop
  | none {s : ScopeId} : AlternateElaborates s none none
  | some {s : ScopeId} {b b' : Block} :
      Block.Elaborates s b b' → AlternateElaborates s (some b) (some b')

/-- A definition in the scope `s`, whose place binds its name as `name`. -/
inductive FunctionNode.Elaborates :
    ScopeId → Option Identifier → FunctionNode → FunctionNode → Prop
  | intro {s own : ScopeId} {name : Option Identifier} {node node' : FunctionNode} :
      node.Opens t s own name node' → StatementsElaborate own node.body node'.body →
      FunctionNode.Elaborates s name node node'

/-- An expression in a scope, and the same expression with its names bound. -/
inductive Expression.Elaborates : ScopeId → Expression → Expression → Prop
  | literal {s : ScopeId} {l : Literal} : Expression.Elaborates s (.literal l) (.literal l)
  | identifier {s : ScopeId} {i : Identifier} :
      Expression.Elaborates s (.identifier i)
        (.identifier { i with resolution := t.meaning s i.name })
  | this {s p : ScopeId} {provider : Option ScopeId} :
      t.thisProvider s = .ok p → Expression.Elaborates s (.this provider) (.this (some p))
  | object {s : ScopeId} {properties properties' : List (String × Expression)} :
      PropertiesElaborate s properties properties' →
      Expression.Elaborates s (.object properties) (.object properties')
  | array {s : ScopeId} {elements elements' : List Expression} :
      ExpressionsElaborate s elements elements' →
      Expression.Elaborates s (.array elements) (.array elements')
  | member {s : ScopeId} {object object' : Expression} {property : String} :
      Expression.Elaborates s object object' →
      Expression.Elaborates s (.member object property) (.member object' property)
  | setMember {s : ScopeId} {object object' value value' : Expression} {property : String} :
      Expression.Elaborates s object object' → Expression.Elaborates s value value' →
      Expression.Elaborates s (.setMember object property value)
        (.setMember object' property value')
  | call {s : ScopeId} {callee callee' : Expression} {arguments arguments' : List Expression} :
      Expression.Elaborates s callee callee' → ExpressionsElaborate s arguments arguments' →
      Expression.Elaborates s (.call callee arguments) (.call callee' arguments')
  | assign {s : ScopeId} {target : Identifier} {value value' : Expression} :
      Expression.Elaborates s value value' → (t.meaning s target.name).Assigned t →
      Expression.Elaborates s (.assign target value)
        (.assign { target with resolution := t.meaning s target.name } value')
  | binary {s : ScopeId} {op : BinaryOp} {left left' right right' : Expression} :
      Expression.Elaborates s left left' → Expression.Elaborates s right right' →
      Expression.Elaborates s (.binary op left right) (.binary op left' right')
  | function {s : ScopeId} {node node' : FunctionNode} :
      FunctionNode.Elaborates s node.name node node' →
      Expression.Elaborates s (.function node) (.function node')
  | dynamicEval {s : ScopeId} {source : String} :
      Expression.Elaborates s (.dynamicEval source) (.dynamicEval source)

inductive OptionalElaborates : ScopeId → Option Expression → Option Expression → Prop
  | none {s : ScopeId} : OptionalElaborates s none none
  | some {s : ScopeId} {e e' : Expression} :
      Expression.Elaborates s e e' → OptionalElaborates s (some e) (some e')

inductive ExpressionsElaborate : ScopeId → List Expression → List Expression → Prop
  | nil {s : ScopeId} : ExpressionsElaborate s [] []
  | cons {s : ScopeId} {e e' : Expression} {rest rest' : List Expression} :
      Expression.Elaborates s e e' → ExpressionsElaborate s rest rest' →
      ExpressionsElaborate s (e :: rest) (e' :: rest')

/-- The values of an object expression in a scope, one by one. -/
inductive PropertiesElaborate :
    ScopeId → List (String × Expression) → List (String × Expression) → Prop
  | nil {s : ScopeId} : PropertiesElaborate s [] []
  | cons {s : ScopeId} {key : String} {e e' : Expression}
      {rest rest' : List (String × Expression)} :
      Expression.Elaborates s e e' → PropertiesElaborate s rest rest' →
      PropertiesElaborate s ((key, e) :: rest) ((key, e') :: rest')

end

end Elaborates

/-! ## The scopes of code -/

mutual

/-- The scopes that a statement opens, in the order of its text. -/
def Statement.scopes : Statement → List (Option ScopeId)
  | .declaration _ _ none _ => []
  | .declaration _ _ (some init) _ => init.scopes
  | .function node => node.scopes
  | .expression e => e.scopes
  | .returning none => []
  | .returning (some value) => value.scopes
  | .block b => b.scopes
  | .ifElse test consequent none => test.scopes ++ consequent.scopes
  | .ifElse test consequent (some alternate) =>
    test.scopes ++ (consequent.scopes ++ alternate.scopes)
  | .whileLoop test body => test.scopes ++ body.scopes

def scopesInStatements : List Statement → List (Option ScopeId)
  | [] => []
  | s :: rest => s.scopes ++ scopesInStatements rest

def Block.scopes : Block → List (Option ScopeId)
  | ⟨body, scope⟩ => scope :: scopesInStatements body

def FunctionNode.scopes : FunctionNode → List (Option ScopeId)
  | { scope := scope, body := body, .. } => scope :: scopesInStatements body

def Expression.scopes : Expression → List (Option ScopeId)
  | .literal _ => []
  | .identifier _ => []
  | .this _ => []
  | .object properties => scopesInProperties properties
  | .array elements => scopesInExpressions elements
  | .member object _ => object.scopes
  | .setMember object _ value => object.scopes ++ value.scopes
  | .call callee arguments => callee.scopes ++ scopesInExpressions arguments
  | .assign _ value => value.scopes
  | .binary _ left right => left.scopes ++ right.scopes
  | .function node => node.scopes
  | .dynamicEval _ => []

def scopesInExpressions : List Expression → List (Option ScopeId)
  | [] => []
  | e :: rest => e.scopes ++ scopesInExpressions rest

def scopesInProperties : List (String × Expression) → List (Option ScopeId)
  | [] => []
  | (_, e) :: rest => e.scopes ++ scopesInProperties rest

end

def scopesInOptional (e : Option Expression) : List (Option ScopeId) :=
  e.elim [] Expression.scopes

def scopesInAlternate (b : Option Block) : List (Option ScopeId) := b.elim [] Block.scopes

end ClosureCache
