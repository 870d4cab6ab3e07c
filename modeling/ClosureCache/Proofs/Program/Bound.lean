/-
Programs whose names are bound.

`Bound` says of resolved code that stands in a scope where each of its names is
declared: a reference further out, a declaration in the scope it belongs to, and
whatever belongs to a function in the function's own scope.  What code refers to,
through all functions inside it, is then visible from the scope of the code or declared
inside.
-/
import ClosureCache.Capture.References
import ClosureCache.Program.Functions
import ClosureCache.Proofs.Scope.Growth

namespace ClosureCache

/-! ## Names -/

def ScopeTree.Declares (t : ScopeTree) (s : ScopeId) (b : BindingId) : Prop :=
  ∃ d, t.binding? b = some d ∧ d.scope = s

/-- What a name refers to is declared further out. -/
def Resolution.Visible (t : ScopeTree) (s : ScopeId) : Resolution → Prop
  | .binding b => ∃ d, t.binding? b = some d ∧ d.scope ∈ t.outward s
  | _ => True

/-- What a name refers to may be assigned, and the assignment was noted. -/
def Resolution.Assigned (t : ScopeTree) : Resolution → Prop
  | .binding b => ∃ d, t.binding? b = some d ∧ d.kind.isImmutable = false ∧ 0 < d.assignments
  | _ => True

/-- A name is bound by a scope itself, if at all. -/
def Identifier.BoundIn (t : ScopeTree) (s : ScopeId) (i : Identifier) : Prop :=
  ∀ b, i.resolution = .binding b → t.Declares s b

theorem Identifier.boundIn_of_declares {t : ScopeTree} {s : ScopeId} {name : String}
    {b : BindingId} (h : t.Declares s b) : Identifier.BoundIn t s ⟨name, .binding b⟩ := by
  intro c hc
  obtain rfl : b = c := Resolution.binding.inj hc
  exact h

/-- Whether names that a declaration in the scope `s` declares belong to `home`. -/
def DeclarationKind.Home (t : ScopeTree) (s : ScopeId) : DeclarationKind → ScopeId → Prop
  | .var, home => t.Nearest Scope.isVarScope s home
  | _, home => home = s

/-- A name is bound in the scope to which its declaration belongs. -/
def Identifier.DeclaredAt (t : ScopeTree) (s : ScopeId) (kind : DeclarationKind) (i : Identifier) :
    Prop :=
  ∃ b d, i.resolution = .binding b ∧ t.binding? b = some d ∧ kind.Home t s d.scope

/-- What belongs to a function itself is bound in the function's own scope, which stands
in the scope `s`. -/
structure FunctionNode.Placed (t : ScopeTree) (s own : ScopeId) (node : FunctionNode) : Prop where
  scope : node.scope = some own
  opened : ∃ sc, t.scope? own = some sc ∧ sc.kind = .function ∧ sc.parent = some s ∧
    sc.arrow = node.isArrow
  params : ∀ p ∈ node.params, p.BoundIn t own
  rest : ∀ r, node.rest = some r → r.BoundIn t own
  arguments : ∀ b, node.arguments = some b → t.Declares own b
  name : node.kind = .expression → ∀ name, node.name = some name → name.BoundIn t own

/-! ## Code -/

mutual

/-- The names of a statement in a scope are bound. -/
def Statement.Bound (t : ScopeTree) (s : ScopeId) : Statement → Prop
  | .declaration kind name none _ => name.DeclaredAt t s kind
  | .declaration kind name (some init) _ => name.DeclaredAt t s kind ∧ init.Bound t s
  | .function node => (∀ name, node.name = some name → name.BoundIn t s) ∧ node.Bound t s
  | .expression e => e.Bound t s
  | .returning none => True
  | .returning (some value) => value.Bound t s
  | .block b => b.Bound t s
  | .ifElse test consequent none => test.Bound t s ∧ consequent.Bound t s
  | .ifElse test consequent (some alternate) =>
    test.Bound t s ∧ consequent.Bound t s ∧ alternate.Bound t s
  | .whileLoop test body => test.Bound t s ∧ body.Bound t s

def BoundStatements (t : ScopeTree) (s : ScopeId) : List Statement → Prop
  | [] => True
  | stmt :: rest => stmt.Bound t s ∧ BoundStatements t s rest

/-- The names of a block are bound, and its scope stands in the scope `s`. -/
def Block.Bound (t : ScopeTree) (s : ScopeId) : Block → Prop
  | ⟨body, scope⟩ => ∃ inner sc, scope = some inner ∧ t.scope? inner = some sc ∧
    sc.kind = .block ∧ sc.parent = some s ∧ BoundStatements t inner body

def FunctionNode.Bound (t : ScopeTree) (s : ScopeId) : FunctionNode → Prop
  | node@{ body := body, .. } => ∃ own, node.Placed t s own ∧ BoundStatements t own body

def Expression.Bound (t : ScopeTree) (s : ScopeId) : Expression → Prop
  | .literal _ => True
  | .identifier i => i.resolution.Visible t s
  | .this provider => ∃ p, provider = some p ∧ t.Nearest Scope.providesThis s p
  | .object properties => BoundProperties t s properties
  | .array elements => BoundExpressions t s elements
  | .member object _ => object.Bound t s
  | .setMember object _ value => object.Bound t s ∧ value.Bound t s
  | .call callee arguments => callee.Bound t s ∧ BoundExpressions t s arguments
  | .assign target value =>
    value.Bound t s ∧ target.resolution.Visible t s ∧ target.resolution.Assigned t
  | .binary _ left right => left.Bound t s ∧ right.Bound t s
  | .function node => node.Bound t s
  | .dynamicEval _ => True

def BoundExpressions (t : ScopeTree) (s : ScopeId) : List Expression → Prop
  | [] => True
  | e :: rest => e.Bound t s ∧ BoundExpressions t s rest

def BoundProperties (t : ScopeTree) (s : ScopeId) : List (String × Expression) → Prop
  | [] => True
  | (_, e) :: rest => e.Bound t s ∧ BoundProperties t s rest

end

theorem FunctionNode.bound_iff {t : ScopeTree} {s : ScopeId} {node : FunctionNode} :
    node.Bound t s ↔ ∃ own, node.Placed t s own ∧ BoundStatements t own node.body := by
  cases node
  rw [FunctionNode.Bound]

theorem FunctionNode.references_eq (node : FunctionNode) :
    node.references = referencesInStatements node.body := by
  cases node
  rw [FunctionNode.references]

/-! ## References -/

/-- What a reference refers to is visible in a scope. -/
def Reference.Visible (t : ScopeTree) (s : ScopeId) : Reference → Prop
  | .binding b => ∃ d, t.binding? b = some d ∧ d.scope ∈ t.outward s
  | .this p => t.Nearest Scope.providesThis s p
  | .dynamic => True

/-- A reference stands in a scope or inside of it, and what it refers to is visible
there. -/
def Reference.Within (t : ScopeTree) (s : ScopeId) (r : Reference) : Prop :=
  ∃ a sc, t.scope? a = some sc ∧ s ∈ t.outward a ∧ r.Visible t a

section References

variable {t : ScopeTree}

theorem Reference.Visible.within {r : Reference} {s : ScopeId} {sc : Scope} (hr : r.Visible t s)
    (hs : t.scope? s = some sc) : r.Within t s := ⟨s, sc, hs, t.self_mem_outward s, hr⟩

theorem Reference.Within.outer (ht : t.Proper) {r : Reference} {s inner : ScopeId} {sc : Scope}
    (hr : r.Within t inner) (hinner : t.scope? inner = some sc) (hp : sc.parent = some s) :
    r.Within t s := by
  obtain ⟨a, sca, ha, hin, hv⟩ := hr
  refine ⟨a, sca, ha, ?_, hv⟩
  exact ht.mem_outward_trans ha hin (ht.mem_outward_of_parent hinner hp (t.self_mem_outward s))

theorem Resolution.visible_of_mem {s : ScopeId} {x : Resolution} (hx : x.Visible t s)
    {r : Reference}
    (hr : r ∈ x.references) : r.Visible t s := by
  cases x with
  | binding b =>
    obtain rfl := List.mem_singleton.1 hr
    exact hx
  | _ => cases hr

mutual

theorem Statement.within (ht : t.Proper) {s : ScopeId} {sc : Scope} (hs : t.scope? s = some sc) :
    ∀ stmt : Statement, stmt.Bound t s → ∀ r ∈ stmt.references, r.Within t s
  | .declaration _ _ none _, _, _, hr => by simp [Statement.references] at hr
  | .declaration _ _ (some init) _, hb, r, hr => by
    rw [Statement.references] at hr
    exact Expression.within ht hs init hb.2 r hr
  | .function node, hb, r, hr => by
    rw [Statement.references] at hr
    exact FunctionNode.within ht node hb.2 r hr
  | .expression e, hb, r, hr => by
    rw [Statement.references] at hr
    exact Expression.within ht hs e hb r hr
  | .returning none, _, _, hr => by simp [Statement.references] at hr
  | .returning (some e), hb, r, hr => by
    rw [Statement.references] at hr
    exact Expression.within ht hs e hb r hr
  | .block b, hb, r, hr => by
    rw [Statement.references] at hr
    exact Block.within ht b hb r hr
  | .ifElse test consequent none, hb, r, hr => by
    rw [Statement.references] at hr
    rcases List.mem_append.1 hr with hr | hr
    · exact Expression.within ht hs test hb.1 r hr
    · exact Block.within ht consequent hb.2 r hr
  | .ifElse test consequent (some alternate), hb, r, hr => by
    rw [Statement.references] at hr
    rcases List.mem_append.1 hr with hr | hr
    · rcases List.mem_append.1 hr with hr | hr
      · exact Expression.within ht hs test hb.1 r hr
      · exact Block.within ht consequent hb.2.1 r hr
    · exact Block.within ht alternate hb.2.2 r hr
  | .whileLoop test body, hb, r, hr => by
    rw [Statement.references] at hr
    rcases List.mem_append.1 hr with hr | hr
    · exact Expression.within ht hs test hb.1 r hr
    · exact Block.within ht body hb.2 r hr

theorem within_statements (ht : t.Proper) {s : ScopeId} {sc : Scope} (hs : t.scope? s = some sc) :
    ∀ l : List Statement, BoundStatements t s l → ∀ r ∈ referencesInStatements l, r.Within t s
  | [], _, _, hr => by simp [referencesInStatements] at hr
  | stmt :: rest, hb, r, hr => by
    rw [referencesInStatements] at hr
    rcases List.mem_append.1 hr with hr | hr
    · exact Statement.within ht hs stmt hb.1 r hr
    · exact within_statements ht hs rest hb.2 r hr

theorem Block.within (ht : t.Proper) {s : ScopeId} :
    ∀ b : Block, b.Bound t s → ∀ r ∈ b.references, r.Within t s
  | ⟨body, scope⟩, hb, r, hr => by
    rw [Block.references] at hr
    obtain ⟨inner, sc, -, hinner, -, hp, hb⟩ := hb
    exact (within_statements ht hinner body hb r hr).outer ht hinner hp

theorem FunctionNode.within (ht : t.Proper) {s : ScopeId} : ∀ node : FunctionNode,
    node.Bound t s → ∀ r ∈ node.references, r.Within t s
  | { body := body, .. }, hb, r, hr => by
    rw [FunctionNode.references] at hr
    obtain ⟨own, hplaced, hb⟩ := hb
    obtain ⟨sc, hown, -, hp, -⟩ := hplaced.opened
    exact (within_statements ht hown body hb r hr).outer ht hown hp

theorem Expression.within (ht : t.Proper) {s : ScopeId} {sc : Scope} (hs : t.scope? s = some sc) :
    ∀ e : Expression, e.Bound t s → ∀ r ∈ e.references, r.Within t s
  | .literal _, _, _, hr => by simp [Expression.references] at hr
  | .identifier i, hb, r, hr => by
    rw [Expression.references] at hr
    exact (Resolution.visible_of_mem hb hr).within hs
  | .this none, _, _, hr => by simp [Expression.references] at hr
  | .this (some p), hb, r, hr => by
    rw [Expression.references] at hr
    obtain rfl := List.mem_singleton.1 hr
    obtain ⟨q, hq, hn⟩ := hb
    obtain rfl := Option.some.inj hq
    exact Reference.Visible.within (r := .this p) hn hs
  | .object properties, hb, r, hr => by
    rw [Expression.references] at hr
    exact within_properties ht hs properties hb r hr
  | .array elements, hb, r, hr => by
    rw [Expression.references] at hr
    exact within_expressions ht hs elements hb r hr
  | .member object _, hb, r, hr => by
    rw [Expression.references] at hr
    exact Expression.within ht hs object hb r hr
  | .setMember object _ value, hb, r, hr => by
    rw [Expression.references] at hr
    rcases List.mem_append.1 hr with hr | hr
    · exact Expression.within ht hs object hb.1 r hr
    · exact Expression.within ht hs value hb.2 r hr
  | .call callee arguments, hb, r, hr => by
    rw [Expression.references] at hr
    rcases List.mem_append.1 hr with hr | hr
    · exact Expression.within ht hs callee hb.1 r hr
    · exact within_expressions ht hs arguments hb.2 r hr
  | .assign target value, hb, r, hr => by
    rw [Expression.references] at hr
    rcases List.mem_append.1 hr with hr | hr
    · exact Expression.within ht hs value hb.1 r hr
    · exact (Resolution.visible_of_mem hb.2.1 hr).within hs
  | .binary _ left right, hb, r, hr => by
    rw [Expression.references] at hr
    rcases List.mem_append.1 hr with hr | hr
    · exact Expression.within ht hs left hb.1 r hr
    · exact Expression.within ht hs right hb.2 r hr
  | .function node, hb, r, hr => by
    rw [Expression.references] at hr
    exact FunctionNode.within ht node hb r hr
  | .dynamicEval _, _, r, hr => by
    rw [Expression.references] at hr
    obtain rfl := List.mem_singleton.1 hr
    exact Reference.Visible.within (r := .dynamic) trivial hs

theorem within_expressions (ht : t.Proper) {s : ScopeId} {sc : Scope} (hs : t.scope? s = some sc) :
    ∀ l : List Expression, BoundExpressions t s l → ∀ r ∈ referencesInExpressions l, r.Within t s
  | [], _, _, hr => by simp [referencesInExpressions] at hr
  | e :: rest, hb, r, hr => by
    rw [referencesInExpressions] at hr
    rcases List.mem_append.1 hr with hr | hr
    · exact Expression.within ht hs e hb.1 r hr
    · exact within_expressions ht hs rest hb.2 r hr

theorem within_properties (ht : t.Proper) {s : ScopeId} {sc : Scope} (hs : t.scope? s = some sc) :
    ∀ l : List (String × Expression), BoundProperties t s l →
      ∀ r ∈ referencesInProperties l, r.Within t s
  | [], _, _, hr => by simp [referencesInProperties] at hr
  | (_, e) :: rest, hb, r, hr => by
    rw [referencesInProperties] at hr
    rcases List.mem_append.1 hr with hr | hr
    · exact Expression.within ht hs e hb.1 r hr
    · exact within_properties ht hs rest hb.2 r hr

end

end References

/-! ## Functions -/

/-- Definitions among which are all that stand inside them, each with its names bound. -/
def SelfContained (t : ScopeTree) (l : List FunctionNode) : Prop :=
  ∀ g ∈ l, (∃ s, g.Bound t s) ∧ ∀ f ∈ functionsInStatements g.body, f ∈ l

section Functions

variable {t : ScopeTree}

theorem selfContained_nil : SelfContained t [] := fun _ hg => absurd hg List.not_mem_nil

theorem SelfContained.append {l l' : List FunctionNode} (hl : SelfContained t l)
    (hl' : SelfContained t l') : SelfContained t (l ++ l') := by
  intro g hg
  rcases List.mem_append.1 hg with hg | hg
  · obtain ⟨hb, hin⟩ := hl g hg
    exact ⟨hb, fun f hf => List.mem_append_left _ (hin f hf)⟩
  · obtain ⟨hb, hin⟩ := hl' g hg
    exact ⟨hb, fun f hf => List.mem_append_right _ (hin f hf)⟩

theorem SelfContained.cons {node : FunctionNode} {s : ScopeId} (hb : node.Bound t s)
    (hl : SelfContained t (functionsInStatements node.body)) :
    SelfContained t (node :: functionsInStatements node.body) := by
  intro g hg
  rcases List.mem_cons.1 hg with rfl | hg
  · exact ⟨⟨s, hb⟩, fun f hf => List.mem_cons_of_mem _ hf⟩
  · obtain ⟨hb', hin⟩ := hl g hg
    exact ⟨hb', fun f hf => List.mem_cons_of_mem _ (hin f hf)⟩

mutual

theorem Statement.selfContained {s : ScopeId} :
    ∀ stmt : Statement, stmt.Bound t s → SelfContained t stmt.functions
  | .declaration _ _ none _, _ => by
    rw [Statement.functions]
    exact selfContained_nil
  | .declaration _ _ (some init) _, hb => by
    rw [Statement.functions]
    exact Expression.selfContained init hb.2
  | .function node, hb => by
    rw [Statement.functions]
    exact FunctionNode.selfContained node hb.2
  | .expression e, hb => by
    rw [Statement.functions]
    exact Expression.selfContained e hb
  | .returning none, _ => by
    rw [Statement.functions]
    exact selfContained_nil
  | .returning (some e), hb => by
    rw [Statement.functions]
    exact Expression.selfContained e hb
  | .block b, hb => by
    rw [Statement.functions]
    exact Block.selfContained b hb
  | .ifElse test consequent none, hb => by
    rw [Statement.functions]
    exact (Expression.selfContained test hb.1).append (Block.selfContained consequent hb.2)
  | .ifElse test consequent (some alternate), hb => by
    rw [Statement.functions]
    exact ((Expression.selfContained test hb.1).append
      (Block.selfContained consequent hb.2.1)).append (Block.selfContained alternate hb.2.2)
  | .whileLoop test body, hb => by
    rw [Statement.functions]
    exact (Expression.selfContained test hb.1).append (Block.selfContained body hb.2)

theorem selfContained_statements {s : ScopeId} :
    ∀ l : List Statement, BoundStatements t s l → SelfContained t (functionsInStatements l)
  | [], _ => by
    rw [functionsInStatements]
    exact selfContained_nil
  | stmt :: rest, hb => by
    rw [functionsInStatements]
    exact (Statement.selfContained stmt hb.1).append (selfContained_statements rest hb.2)

theorem Block.selfContained {s : ScopeId} :
    ∀ b : Block, b.Bound t s → SelfContained t b.functions
  | ⟨body, scope⟩, hb => by
    rw [Block.functions]
    obtain ⟨inner, sc, -, -, -, -, hb⟩ := hb
    exact selfContained_statements body hb

theorem FunctionNode.selfContained {s : ScopeId} :
    ∀ node : FunctionNode, node.Bound t s → SelfContained t node.functions
  | ⟨name, kind, flavor, memoized, params, rest, body, span, site, scope, arguments⟩, hb => by
    rw [FunctionNode.functions]
    obtain ⟨own, hplaced, hbody⟩ := hb
    exact .cons ⟨own, hplaced, hbody⟩ (selfContained_statements body hbody)

theorem Expression.selfContained {s : ScopeId} :
    ∀ e : Expression, e.Bound t s → SelfContained t e.functions
  | .literal _, _ => by
    rw [Expression.functions]
    exact selfContained_nil
  | .identifier _, _ => by
    rw [Expression.functions]
    exact selfContained_nil
  | .this _, _ => by
    rw [Expression.functions]
    exact selfContained_nil
  | .object properties, hb => by
    rw [Expression.functions]
    exact selfContained_properties properties hb
  | .array elements, hb => by
    rw [Expression.functions]
    exact selfContained_expressions elements hb
  | .member object _, hb => by
    rw [Expression.functions]
    exact Expression.selfContained object hb
  | .setMember object _ value, hb => by
    rw [Expression.functions]
    exact (Expression.selfContained object hb.1).append (Expression.selfContained value hb.2)
  | .call callee arguments, hb => by
    rw [Expression.functions]
    exact (Expression.selfContained callee hb.1).append (selfContained_expressions arguments hb.2)
  | .assign _ value, hb => by
    rw [Expression.functions]
    exact Expression.selfContained value hb.1
  | .binary _ left right, hb => by
    rw [Expression.functions]
    exact (Expression.selfContained left hb.1).append (Expression.selfContained right hb.2)
  | .function node, hb => by
    rw [Expression.functions]
    exact FunctionNode.selfContained node hb
  | .dynamicEval _, _ => by
    rw [Expression.functions]
    exact selfContained_nil

theorem selfContained_expressions {s : ScopeId} :
    ∀ l : List Expression, BoundExpressions t s l → SelfContained t (functionsInExpressions l)
  | [], _ => by
    rw [functionsInExpressions]
    exact selfContained_nil
  | e :: rest, hb => by
    rw [functionsInExpressions]
    exact (Expression.selfContained e hb.1).append (selfContained_expressions rest hb.2)

theorem selfContained_properties {s : ScopeId} : ∀ l : List (String × Expression),
    BoundProperties t s l → SelfContained t (functionsInProperties l)
  | [], _ => by
    rw [functionsInProperties]
    exact selfContained_nil
  | (_, e) :: rest, hb => by
    rw [functionsInProperties]
    exact (Expression.selfContained e hb.1).append (selfContained_properties rest hb.2)

end

end Functions

end ClosureCache
