/-
The definitions of a resolved program, and what they refer to.

Elaborated code has the definitions of the code that it came from, in their order, and each
of them elaborates its counterpart in the scope where it stands.  What a piece of elaborated
code refers to is meant by a name, a `this` or a dynamic evaluation in some scope inside of
the scope of the piece.
-/
import ClosureCache.Proofs.Program.Bodies
import ClosureCache.Proofs.Program.Resolution

namespace ClosureCache

/-! ## Definitions in order -/

/-- The one definition is the other one with its names bound, in some scope. -/
def FunctionNode.Elaborated (t : ScopeTree) (node node' : FunctionNode) : Prop :=
  ∃ s name, node.Elaborates t s name node'

theorem FunctionNode.functions_eq (node : FunctionNode) :
    node.functions = node :: functionsInStatements node.body := by
  cases node
  rw [FunctionNode.functions]

section Definitions

variable {t : ScopeTree}

mutual

theorem Statement.Elaborates.functions : ∀ {s : ScopeId} {a a' : Statement},
    a.Elaborates t s a' → List.Forall₂ (FunctionNode.Elaborated t) a.functions a'.functions
  | _, _, _, .declaration .none _ _ => .nil
  | _, _, _, .declaration (.some hinit) _ _ => hinit.functions
  | _, _, _, .function _ hnode => hnode.functions
  | _, _, _, .expression h => Expression.Elaborates.functions h
  | _, _, _, .returning .none => .nil
  | _, _, _, .returning (.some h) => h.functions
  | _, _, _, .block h => Block.Elaborates.functions h
  | _, _, _, .ifElse htest hconsequent .none =>
    List.rel_append htest.functions hconsequent.functions
  | _, _, _, .ifElse htest hconsequent (.some halternate) =>
    List.rel_append (List.rel_append htest.functions hconsequent.functions) halternate.functions
  | _, _, _, .whileLoop htest hbody => List.rel_append htest.functions hbody.functions
termination_by structural _ _ _ h => h

theorem StatementsElaborate.functions : ∀ {s : ScopeId} {l l' : List Statement},
    StatementsElaborate t s l l' →
      List.Forall₂ (FunctionNode.Elaborated t) (functionsInStatements l) (functionsInStatements l')
  | _, _, _, .nil => .nil
  | _, _, _, .cons h hrest => List.rel_append h.functions hrest.functions
termination_by structural _ _ _ h => h

theorem Block.Elaborates.functions : ∀ {s : ScopeId} {b b' : Block},
    b.Elaborates t s b' → List.Forall₂ (FunctionNode.Elaborated t) b.functions b'.functions
  | _, _, _, .intro _ _ _ _ _ hbody => hbody.functions
termination_by structural _ _ _ h => h

theorem FunctionNode.Elaborates.functions : ∀ {s : ScopeId} {name : Option Identifier}
    {node node' : FunctionNode}, node.Elaborates t s name node' →
      List.Forall₂ (FunctionNode.Elaborated t) node.functions node'.functions
  | s, name, node, node', .intro hopens hbody => by
    rw [node.functions_eq, node'.functions_eq]
    exact .cons ⟨s, name, .intro hopens hbody⟩ hbody.functions
termination_by structural _ _ _ _ h => h

theorem Expression.Elaborates.functions : ∀ {s : ScopeId} {e e' : Expression},
    e.Elaborates t s e' → List.Forall₂ (FunctionNode.Elaborated t) e.functions e'.functions
  | _, _, _, .literal => .nil
  | _, _, _, .identifier => .nil
  | _, _, _, .this _ => .nil
  | _, _, _, .object h => PropertiesElaborate.functions h
  | _, _, _, .array h => ExpressionsElaborate.functions h
  | _, _, _, .member h => (h.functions :)
  | _, _, _, .setMember hobject hvalue => List.rel_append hobject.functions hvalue.functions
  | _, _, _, .call hcallee harguments => List.rel_append hcallee.functions harguments.functions
  | _, _, _, .assign hvalue _ => (hvalue.functions :)
  | _, _, _, .binary hleft hright => List.rel_append hleft.functions hright.functions
  | _, _, _, .function h => FunctionNode.Elaborates.functions h
  | _, _, _, .dynamicEval => .nil
termination_by structural _ _ _ h => h

theorem ExpressionsElaborate.functions : ∀ {s : ScopeId} {l l' : List Expression},
    ExpressionsElaborate t s l l' → List.Forall₂ (FunctionNode.Elaborated t)
      (functionsInExpressions l) (functionsInExpressions l')
  | _, _, _, .nil => .nil
  | _, _, _, .cons h hrest => List.rel_append h.functions hrest.functions
termination_by structural _ _ _ h => h

theorem PropertiesElaborate.functions : ∀ {s : ScopeId} {l l' : List (String × Expression)},
    PropertiesElaborate t s l l' → List.Forall₂ (FunctionNode.Elaborated t)
      (functionsInProperties l) (functionsInProperties l')
  | _, _, _, .nil => .nil
  | _, _, _, .cons h hrest => List.rel_append h.functions hrest.functions
termination_by structural _ _ _ h => h

end

/-- A definition of a resolved program elaborates one of the program as it was. -/
theorem ResolvedProgram.Elaborates.definition {p : Program} {r : ResolvedProgram}
    (h : r.Elaborates p) {f : FunctionNode} (hf : f ∈ r.program.functions) :
    ∃ f₀ ∈ p.functions, f₀.Elaborated r.tree f := by
  obtain ⟨hlength, hget⟩ := List.forall₂_iff_get.1 h.body.functions
  obtain ⟨i, rfl⟩ := List.mem_iff_get.1 hf
  have hi : i.1 < p.functions.length := hlength.symm ▸ i.isLt
  exact ⟨_, List.get_mem _ ⟨i, hi⟩, hget i hi i.isLt⟩

end Definitions

/-! ## Places of references -/

/-- What a name, a `this` or a dynamic evaluation in the scope `s` refers to. -/
def Reference.MeantIn (t : ScopeTree) (s : ScopeId) : Reference → Prop
  | .binding b => ∃ name, t.resolve s name = some b
  | .this p => t.thisProvider s = .ok p
  | .dynamic => True

section References

variable {t : ScopeTree} {s own : ScopeId} {r : Reference} {path : List Nat}

theorem Reference.MeantIn.visible (h : r.MeantIn t s) (ht : t.Proper) : r.Visible t s := by
  cases r with
  | binding b =>
    obtain ⟨name, hb⟩ := h
    exact ht.resolve_spec hb
  | this p => exact ht.nearest_spec (fun _ => Scope.providesThis_of_global) h
  | dynamic => trivial

/-- A name with its meaning in a scope is bound to what it denotes there. -/
theorem ScopeTree.resolve_of_meaning {i : Identifier} {b : BindingId}
    (hb : ({ i with resolution := t.meaning s i.name } : Identifier).binding? = some b) :
    t.resolve s i.name = some b := by
  rw [Identifier.binding?, meaning] at hb
  cases hresolve : t.resolve s i.name with
  | none =>
    rw [hresolve] at hb
    cases hb
  | some b' =>
    rw [hresolve] at hb
    exact hb

namespace Code

/-- What a piece of code refers to by itself is meant where the piece stands. -/
theorem Elaborates.meantIn {c c' : Code} (h : c.Elaborates t s c')
    (hr : c'.reference? = some r) : r.MeantIn t s := by
  have hname : ∀ i : Identifier, ({ i with resolution := t.meaning s i.name } :
      Identifier).binding?.map Reference.binding = some r → r.MeantIn t s := fun i hi => by
    obtain ⟨b, hb, rfl⟩ := Option.map_eq_some_iff.1 hi
    exact ⟨i.name, ScopeTree.resolve_of_meaning hb⟩
  cases c' with
  | expression e' =>
    cases c with
    | expression e =>
      cases h with
      | @identifier _ i => exact hname i hr
      | this hp =>
        obtain rfl := Option.some.inj hr
        exact hp
      | dynamicEval =>
        obtain rfl := Option.some.inj hr
        trivial
      | _ => cases hr
    | _ => exact h.elim
  | target i' =>
    cases c with
    | target i =>
      obtain rfl : i' = { i with resolution := t.meaning s i.name } := h
      exact hname i hr
    | _ => exact h.elim
  | _ => cases hr

/-- What a piece of code refers to is meant somewhere in the scope of the piece. -/
theorem Elaborates.exists_place (ht : t.Proper) {c c' : Code} (h : c.Elaborates t s c')
    (hs : ∃ sc, t.scope? s = some sc) (hocc : c'.Occurs path r) :
    ∃ a sc, t.scope? a = some sc ∧ s ∈ t.outward a ∧ r.MeantIn t a := by
  induction hocc generalizing s c with
  | here hr =>
    obtain ⟨sc, hsc⟩ := hs
    exact ⟨s, sc, hsc, t.self_mem_outward s, h.meantIn hr⟩
  | inside hd _ ih =>
    obtain ⟨inner, d, hplace, hpart⟩ := h.part (List.mem_of_getElem? hd)
    rcases hplace with rfl | ⟨sci, hinner, hparent⟩
    · exact ih hpart hs
    · obtain ⟨a, sc, hsc, hin, hr⟩ := ih hpart ⟨sci, hinner⟩
      have hself := ht.mem_outward_of_parent hinner hparent (t.self_mem_outward s)
      exact ⟨a, sc, hsc, ht.mem_outward_trans hsc hin hself, hr⟩

end Code

/-- What a definition refers to is meant somewhere in its own scope. -/
theorem FunctionNode.Elaborated.exists_place {node node' : FunctionNode}
    (h : node.Elaborated t node') (ht : t.Proper) (hown : node'.scope = some own)
    (hocc : (Code.definition node').Occurs path r) :
    ∃ a sc, t.scope? a = some sc ∧ own ∈ t.outward a ∧ r.MeantIn t a := by
  obtain ⟨s, name, ⟨hopens, hbody⟩⟩ := h
  obtain rfl := Option.some.inj (hopens.scope.symm.trans hown)
  obtain ⟨sc, hsc, -⟩ := hopens.opened
  cases hocc with
  | here hr => cases hr
  | inside hd hocc =>
    obtain ⟨c, hpart⟩ := Code.elaborates_of_mem_statements hbody (List.mem_of_getElem? hd)
    exact hpart.exists_place ht ⟨sc, hsc⟩ hocc

end References

end ClosureCache
