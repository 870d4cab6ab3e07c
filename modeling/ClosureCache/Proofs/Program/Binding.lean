/-
Resolution binds every name.

Code that elaborates code without annotations is bound: a name is held by the scope that
declares it, and what a use of a name means is declared further out.  So a plain program
resolves to one that is bound throughout.
-/
import ClosureCache.Proofs.Program.Acceptance

namespace ClosureCache

/-! ## Programs without annotations

Of what a program may come with, resolution replaces everything that is read later but
the arguments binding of a definition.  A function statement binds its name where it
stands, so it is no function expression. -/

mutual

/-- No definition in a statement comes with an arguments binding, and no function
statement is a function expression. -/
def Statement.Plain : Statement → Prop
  | .declaration _ _ none _ => True
  | .declaration _ _ (some init) _ => init.Plain
  | .function node => node.kind ≠ .expression ∧ node.Plain
  | .expression e => e.Plain
  | .returning none => True
  | .returning (some value) => value.Plain
  | .block b => b.Plain
  | .ifElse test consequent none => test.Plain ∧ consequent.Plain
  | .ifElse test consequent (some alternate) =>
    test.Plain ∧ consequent.Plain ∧ alternate.Plain
  | .whileLoop test body => test.Plain ∧ body.Plain

def PlainStatements : List Statement → Prop
  | [] => True
  | s :: rest => s.Plain ∧ PlainStatements rest

def Block.Plain : Block → Prop
  | ⟨body, _⟩ => PlainStatements body

def FunctionNode.Plain : FunctionNode → Prop
  | { body := body, arguments := arguments, .. } => arguments = none ∧ PlainStatements body

def Expression.Plain : Expression → Prop
  | .literal _ => True
  | .identifier _ => True
  | .this _ => True
  | .object properties => PlainProperties properties
  | .array elements => PlainExpressions elements
  | .member object _ => object.Plain
  | .setMember object _ value => object.Plain ∧ value.Plain
  | .call callee arguments => callee.Plain ∧ PlainExpressions arguments
  | .assign _ value => value.Plain
  | .binary _ left right => left.Plain ∧ right.Plain
  | .function node => node.Plain
  | .dynamicEval _ => True

def PlainExpressions : List Expression → Prop
  | [] => True
  | e :: rest => e.Plain ∧ PlainExpressions rest

def PlainProperties : List (String × Expression) → Prop
  | [] => True
  | (_, e) :: rest => e.Plain ∧ PlainProperties rest

end

/-- A program comes without annotations that resolution keeps. -/
def Program.Plain (p : Program) : Prop := PlainStatements p.body

theorem FunctionNode.plain_iff {node : FunctionNode} :
    node.Plain ↔ node.arguments = none ∧ PlainStatements node.body := by
  cases node
  rw [FunctionNode.Plain]

/-! ## Names -/

section Names

variable {t : ScopeTree} {s own : ScopeId} {i i' : Identifier}

theorem Identifier.HeldBy.declaredAt {home : ScopeId} {kind : DeclarationKind}
    (h : i.HeldBy t home i') (ht : t.Proper) (hhome : kind.Home t s home) :
    i'.DeclaredAt t s kind := by
  obtain ⟨b, hb, rfl⟩ := h
  obtain ⟨d, hd, rfl⟩ := ht.lookupLocal_spec hb
  exact ⟨b, d, rfl, hd, hhome⟩

/-- A name that may be missing. -/
theorem Identifier.boundIn_of_rel {name name' : Option Identifier} (ht : t.Proper)
    (h : Option.Rel (Identifier.HeldBy t s) name name') :
    ∀ j, name' = some j → j.BoundIn t s := by
  rintro j rfl
  cases h with
  | some h => exact h.boundIn ht

variable {node node' : FunctionNode} {name : Option Identifier}

/-- Opening the scope of a plain function binds what belongs to the function there. -/
theorem FunctionNode.Opens.placed (h : node.Opens t s own name node') (ht : t.Proper)
    (hplain : node.arguments = none) : node'.Placed t s own where
  scope := h.scope
  opened := by
    rw [h.isArrow_eq]
    exact h.opened
  params p hp := by
    obtain ⟨i, -, hi⟩ := h.exists_of_mem_params hp
    exact hi.boundIn ht
  rest r hr := by
    obtain ⟨i, -, hi⟩ := h.exists_of_rest hr
    exact hi.boundIn ht
  arguments b hb := by
    have harguments := h.arguments
    split at harguments
    · rw [harguments, hplain] at hb
      cases hb
    · obtain ⟨c, hc, heq⟩ := harguments
      obtain rfl := Option.some.inj (heq.symm.trans hb)
      exact ht.lookupLocal_spec hc
  name hkind j hj := by
    obtain ⟨i, -, hi⟩ := h.exists_of_ownName hkind hj
    exact hi.boundIn ht

/-- A function statement keeps the name that its place binds. -/
theorem FunctionNode.Elaborates.name_eq (h : node.Elaborates t s name node')
    (hkind : node.kind ≠ .expression) : node'.name = name := by
  cases h with
  | intro hopens _ => exact hopens.kept hkind

end Names

/-! ## Code -/

section Code

variable {t : ScopeTree}

mutual

theorem Statement.Elaborates.bound (ht : t.Proper) : ∀ {s : ScopeId} {a a' : Statement},
    a.Elaborates t s a' → a.Plain → a'.Bound t s
  | _, _, _, .declaration .none hhome hname, _ => hname.declaredAt ht hhome
  | _, _, _, .declaration (.some hinit) hhome hname, hplain =>
    ⟨hname.declaredAt ht hhome, hinit.bound ht hplain⟩
  | _, _, _, .function hname hnode, hplain =>
    ⟨hnode.name_eq hplain.1 ▸ Identifier.boundIn_of_rel ht hname, hnode.bound ht hplain.2⟩
  | _, _, _, .expression he, hplain => Expression.Elaborates.bound ht he hplain
  | _, _, _, .returning .none, _ => trivial
  | _, _, _, .returning (.some he), hplain => he.bound ht hplain
  | _, _, _, .block hb, hplain => Block.Elaborates.bound ht hb hplain
  | _, _, _, .ifElse htest hconsequent .none, hplain =>
    ⟨htest.bound ht hplain.1, hconsequent.bound ht hplain.2⟩
  | _, _, _, .ifElse htest hconsequent (.some halternate), hplain =>
    ⟨htest.bound ht hplain.1, hconsequent.bound ht hplain.2.1, halternate.bound ht hplain.2.2⟩
  | _, _, _, .whileLoop htest hbody, hplain => ⟨htest.bound ht hplain.1, hbody.bound ht hplain.2⟩
termination_by structural _ _ _ h => h

theorem StatementsElaborate.bound (ht : t.Proper) : ∀ {s : ScopeId} {l l' : List Statement},
    StatementsElaborate t s l l' → PlainStatements l → BoundStatements t s l'
  | _, _, _, .nil, _ => trivial
  | _, _, _, .cons h hrest, hplain => ⟨h.bound ht hplain.1, hrest.bound ht hplain.2⟩
termination_by structural _ _ _ h => h

theorem Block.Elaborates.bound (ht : t.Proper) : ∀ {s : ScopeId} {b b' : Block},
    b.Elaborates t s b' → b.Plain → b'.Bound t s
  | _, _, _, .intro hinner hkind hparent _ _ hbody, hplain =>
    ⟨_, _, rfl, hinner, hkind, hparent, hbody.bound ht hplain⟩
termination_by structural _ _ _ h => h

theorem FunctionNode.Elaborates.bound (ht : t.Proper) : ∀ {s : ScopeId} {name : Option Identifier}
    {node node' : FunctionNode}, node.Elaborates t s name node' → node.Plain → node'.Bound t s
  | _, _, _, _, .intro hopens hbody, hplain => by
    obtain ⟨harguments, hplain⟩ := FunctionNode.plain_iff.1 hplain
    exact FunctionNode.bound_iff.2 ⟨_, hopens.placed ht harguments, hbody.bound ht hplain⟩
termination_by structural _ _ _ _ h => h

theorem Expression.Elaborates.bound (ht : t.Proper) : ∀ {s : ScopeId} {e e' : Expression},
    e.Elaborates t s e' → e.Plain → e'.Bound t s
  | _, _, _, .literal, _ => trivial
  | _, _, _, .identifier, _ => ht.visible_meaning _ _
  | _, _, _, .this hp, _ =>
    ⟨_, rfl, ht.nearest_spec (fun _ => Scope.providesThis_of_global) hp⟩
  | _, _, _, .object h, hplain => PropertiesElaborate.bound ht h hplain
  | _, _, _, .array h, hplain => ExpressionsElaborate.bound ht h hplain
  | _, _, _, .member h, hplain => (h.bound ht hplain :)
  | _, _, _, .setMember hobject hvalue, hplain =>
    ⟨hobject.bound ht hplain.1, hvalue.bound ht hplain.2⟩
  | _, _, _, .call hcallee harguments, hplain =>
    ⟨hcallee.bound ht hplain.1, harguments.bound ht hplain.2⟩
  | _, _, _, .assign hvalue hassigned, hplain =>
    ⟨hvalue.bound ht hplain, ht.visible_meaning _ _, hassigned⟩
  | _, _, _, .binary hleft hright, hplain => ⟨hleft.bound ht hplain.1, hright.bound ht hplain.2⟩
  | _, _, _, .function h, hplain => FunctionNode.Elaborates.bound ht h hplain
  | _, _, _, .dynamicEval, _ => trivial
termination_by structural _ _ _ h => h

theorem ExpressionsElaborate.bound (ht : t.Proper) : ∀ {s : ScopeId} {l l' : List Expression},
    ExpressionsElaborate t s l l' → PlainExpressions l → BoundExpressions t s l'
  | _, _, _, .nil, _ => trivial
  | _, _, _, .cons h hrest, hplain => ⟨h.bound ht hplain.1, hrest.bound ht hplain.2⟩
termination_by structural _ _ _ h => h

theorem PropertiesElaborate.bound (ht : t.Proper) : ∀ {s : ScopeId}
    {l l' : List (String × Expression)}, PropertiesElaborate t s l l' → PlainProperties l →
      BoundProperties t s l'
  | _, _, _, .nil, _ => trivial
  | _, _, _, .cons h hrest, hplain => ⟨h.bound ht hplain.1, hrest.bound ht hplain.2⟩
termination_by structural _ _ _ h => h

end

end Code

/-! ## Programs -/

/-- What resolution makes of a plain program: every name is bound, and what is assigned is
mutable. -/
structure ResolvedProgram.Complete (r : ResolvedProgram) : Prop where
  proper : r.tree.Proper
  bound : BoundStatements r.tree ScopeTree.global r.program.body
  opened : ∃ sc, r.tree.scope? ScopeTree.global = some sc
  «mutable» : ∀ b d, r.tree.binding? b = some d →
    d.mutable = (!d.kind.isImmutable && decide (0 < d.assignments))

theorem Program.complete_of_resolve {p : Program} {r : ResolvedProgram} (h : p.resolve = .ok r)
    (hplain : p.Plain) : r.Complete := by
  have hresolved := Program.resolved_of_resolve h
  obtain ⟨sc, hsc, -⟩ := hresolved.opened
  exact ⟨hresolved.proper, hresolved.body.bound hresolved.proper hplain, ⟨sc, hsc⟩,
    hresolved.mutable⟩

end ClosureCache
