/-
Which bindings are mutable.

The evaluator may share a closure only if nothing that it captures changes, so the flag of
a binding has to say exactly whether the program gives the binding a second value.  It does
so by an assignment, by an initializer that a loop may run again, or by a second
initializer.  Resolution counts: an assignment always, an initializer if it stands in a
loop or if an earlier one was remembered.  The invariant `Noted` compares the count with the
writes met so far.
-/
import ClosureCache.Proofs.Capture
import ClosureCache.Proofs.Program.Walk
import ClosureCache.Proofs.Scope.Extension

namespace ClosureCache

/-! ## Second values -/

/-- Among the writes are an assignment to the binding, an initializer of it in a loop, or
two initializers of it. -/
def Reassigned (b : BindingId) (ws : List Write) : Prop :=
  .assignment b ∈ ws ∨ .initializer b true ∈ ws ∨ 2 ≤ ws.countP (Write.initializes b)

instance (b : BindingId) (ws : List Write) : Decidable (Reassigned b ws) :=
  inferInstanceAs (Decidable (_ ∨ _ ∨ _))

section Reassigned

variable {b c : BindingId} {ws : List Write} {inLoop : Bool}

theorem not_reassigned_nil (b : BindingId) : ¬ Reassigned b [] := by
  simp [Reassigned]

theorem countP_initializes_pos :
    0 < ws.countP (Write.initializes b) ↔ .initializer b false ∈ ws ∨ .initializer b true ∈ ws := by
  rw [List.countP_pos_iff]
  constructor
  · rintro ⟨w, hw, hb⟩
    cases w with
    | assignment c => cases hb
    | initializer c l =>
      obtain rfl := beq_iff_eq.1 hb
      cases l with
      | false => exact .inl hw
      | true => exact .inr hw
  · rintro (hw | hw) <;> exact ⟨_, hw, beq_self_eq_true b⟩

theorem reassigned_assignment :
    Reassigned c (ws ++ [.assignment b]) ↔ Reassigned c ws ∨ c = b := by
  have hcount : (ws ++ [Write.assignment b]).countP (Write.initializes c) =
      ws.countP (Write.initializes c) := by
    rw [List.countP_append]
    rfl
  simp only [Reassigned, hcount, List.mem_append, List.mem_singleton, Write.assignment.injEq,
    reduceCtorEq, or_false]
  exact or_right_comm

theorem reassigned_initializer :
    Reassigned c (ws ++ [.initializer b inLoop]) ↔
      Reassigned c ws ∨ c = b ∧ (inLoop = true ∨ 0 < ws.countP (Write.initializes b)) := by
  simp only [Reassigned, List.countP_append, List.countP_singleton, List.mem_append,
    List.mem_singleton, Write.initializer.injEq, reduceCtorEq, or_false]
  by_cases hc : c = b
  · subst hc
    have hself : (Write.initializer c inLoop).initializes c = true := beq_self_eq_true c
    have hcount : 2 ≤ ws.countP (Write.initializes c) + 1 ↔
        2 ≤ ws.countP (Write.initializes c) ∨ 0 < ws.countP (Write.initializes c) := by omega
    rw [if_pos hself, hcount]
    grind
  · have hother : (Write.initializer b inLoop).initializes c ≠ true :=
      fun h => hc (beq_iff_eq.1 h).symm
    rw [if_neg hother]
    simp only [hc, false_and, or_false, Nat.add_zero]

end Reassigned

/-! ## Counting -/

namespace ScopeTree

variable {t t' : ScopeTree} {b c : BindingId}

def assignmentsTo (t : ScopeTree) (b : BindingId) : Nat := (t.binding? b).elim 0 Binding.assignments

theorem assignmentsTo_declare {s : ScopeId} {name : String} {kind : BindingKind}
    {storage : Storage} (h : t.declare s name kind storage = .ok (b, t')) (c : BindingId) :
    t'.assignmentsTo c = t.assignmentsTo c := by
  rcases declare_cases h with ⟨sc, -, -, rfl, rfl⟩ | ⟨prior, -, -, -, -, rfl⟩
  · rw [assignmentsTo, binding?_addBinding]
    split
    · next hnew =>
      subst hnew
      rw [assignmentsTo, binding?, Array.getElem?_eq_none (Nat.le_refl _)]
      rfl
    · rfl
  · split
    · rw [assignmentsTo, binding?_modifyBinding, assignmentsTo]
      split
      · cases t.binding? c <;> rfl
      · rfl
    · rfl

theorem assignmentsTo_addScope {parent s : ScopeId} {kind : ScopeKind} {arrow : Bool}
    {owner : Option SiteId} (h : t.addScope parent kind arrow owner = .ok (s, t')) (c : BindingId) :
    t'.assignmentsTo c = t.assignmentsTo c := by
  obtain ⟨-, -, hbinding, -⟩ := addScope_cases h
  rw [assignmentsTo, hbinding, assignmentsTo]

theorem assignmentsTo_recordSite {s : ScopeId} {site : SiteId}
    (h : t.recordSite s site = .ok t') (c : BindingId) :
    t'.assignmentsTo c = t.assignmentsTo c := by
  rw [recordSite] at h
  split at h
  · cases h
  · obtain rfl := Except.ok.inj h
    rfl

theorem assignmentsTo_recordAssignment (h : t.recordAssignment b = .ok t') (c : BindingId) :
    t'.assignmentsTo c = t.assignmentsTo c + if c = b then 1 else 0 := by
  rw [recordAssignment] at h
  split at h
  · cases h
  · next d hd =>
    obtain rfl := Except.ok.inj h
    rw [assignmentsTo, binding?_modifyBinding, assignmentsTo]
    split
    · next hc =>
      subst hc
      rw [hd]
      rfl
    · rfl

end ScopeTree

/-! ## The count and the writes -/

/-- What is counted and remembered is what the writes so far call for. -/
structure Scoping.Noted (ws : List Write) (st : Scoping) : Prop where
  remembered : ∀ b, b ∈ st.initialized ↔ .initializer b false ∈ ws
  counted : ∀ b, 0 < st.tree.assignmentsTo b ↔ Reassigned b ws

namespace Scoping

variable {st st' : Scoping} {us : List Write} {n : Notes}

theorem noted_initial : Noted [] ⟨ScopeTree.initial, #[], []⟩ where
  remembered b := ⟨fun h => absurd h List.not_mem_nil, fun h => absurd h List.not_mem_nil⟩
  counted b := by
    refine ⟨fun h => absurd h (Nat.lt_irrefl 0), fun h => absurd h (not_reassigned_nil b)⟩

/-- A step that notes no write and counts nothing. -/
theorem Noted.silent (hn : Noted us st) (hcount : ∀ b, st'.tree.assignmentsTo b =
    st.tree.assignmentsTo b) (hinitialized : st'.initialized = st.initialized) :
    Noted (us ++ []) st' := by
  rw [List.append_nil]
  refine ⟨fun b => ?_, fun b => ?_⟩
  · rw [hinitialized, hn.remembered]
  · rw [hcount, hn.counted]

/-- Every step keeps the count in line with the writes. -/
theorem Step.noted (h : Step st n st') (hn : Noted us st) : Noted (us ++ n.writes) st' := by
  cases h with
  | declare hdeclare => exact hn.silent (ScopeTree.assignmentsTo_declare hdeclare) rfl
  | openBlock hadd => exact hn.silent (ScopeTree.assignmentsTo_addScope hadd) rfl
  | enter _ hadd hrecord =>
    refine hn.silent (fun b => ?_) rfl
    rw [ScopeTree.assignmentsTo_recordSite hrecord, ScopeTree.assignmentsTo_addScope hadd]
  | @assign b t hrecord =>
    refine ⟨fun c => ?_, fun c => ?_⟩
    · rw [hn.remembered, List.mem_append, List.mem_singleton]
      simp only [reduceCtorEq, or_false]
    · rw [ScopeTree.assignmentsTo_recordAssignment hrecord, reassigned_assignment, ← hn.counted]
      split <;> simp_all
  | @overwrite b inLoop t hagain hrecord =>
    rw [hn.remembered] at hagain
    -- an initializer that was remembered makes this one the second
    have hsecond : inLoop = true ∨ 0 < us.countP (Write.initializes b) :=
      hagain.imp_right fun hb => countP_initializes_pos.2 (.inl hb)
    refine ⟨fun c => ?_, fun c => ?_⟩
    · rw [hn.remembered, List.mem_append, List.mem_singleton, Write.initializer.injEq]
      refine ⟨.inl, fun hc => hc.elim id ?_⟩
      rintro ⟨rfl, rfl⟩
      exact hagain.resolve_left Bool.false_ne_true
    · rw [ScopeTree.assignmentsTo_recordAssignment hrecord, reassigned_initializer, ← hn.counted]
      split <;> simp_all
  | @remember b hfirst =>
    rw [hn.remembered] at hfirst
    refine ⟨fun c => ?_, fun c => ?_⟩
    · rw [List.mem_cons, hn.remembered, List.mem_append, List.mem_singleton,
        Write.initializer.injEq, and_iff_left rfl, or_comm]
    · rw [reassigned_initializer, hn.counted]
      refine ⟨.inl, fun hc => hc.elim id ?_⟩
      -- an initializer that was not remembered stood in a loop
      rintro ⟨rfl, hloop | hbefore⟩
      · cases hloop
      · exact .inr (.inl ((countP_initializes_pos.1 hbefore).resolve_left hfirst))

end Scoping

/-! ## Programs -/

/-- A binding of a resolved program is mutable just if its kind may be assigned and the
program assigns it somewhere, declares it as a `var` with an initializer in a loop, or
does so twice. -/
theorem Program.mutable_iff_reassigned {p : Program} {r : ResolvedProgram} (h : p.resolve = .ok r)
    {b : BindingId} {d : Binding} (hd : r.tree.binding? b = some d) :
    d.mutable = true ↔ (d.kind ≠ .constBinding ∧ d.kind ≠ .functionName) ∧
      Reassigned b r.program.writes := by
  obtain ⟨st, n, hwalk, hcover, htree, -⟩ := Program.walk_of_resolve h
  have hnoted : Scoping.Noted n.writes st := hwalk.keeps
    (I := fun n st => Scoping.Noted n.writes st) (k := ∅) Scoping.Step.noted Scoping.noted_initial
  rw [hcover.writes] at hnoted
  have hkind : d.kind.isImmutable = false ↔ d.kind ≠ .constBinding ∧ d.kind ≠ .functionName := by
    cases d.kind <;> decide
  have hcount : st.tree.assignmentsTo b = d.assignments := by
    rw [htree, ScopeTree.binding?, ScopeTree.finalizeMutability, Array.getElem?_map] at hd
    obtain ⟨d₀, hd₀, rfl⟩ := Option.map_eq_some_iff.1 hd
    rw [ScopeTree.assignmentsTo, ScopeTree.binding?, hd₀]
    rfl
  rw [htree] at hd
  rw [ScopeTree.mutable_finalizeMutability hd, Bool.and_eq_true, Bool.not_eq_true', hkind,
    decide_eq_true_iff, ← hcount, hnoted.counted]

/-- A name that is assigned inside a function before it is declared, a `var` in a loop, a
`var` that is declared twice, and names that keep their first value, one of them in the
body of a function that a loop makes. -/
def overwriting : Program where
  body :=
    let name (s : String) : Identifier := ⟨s, .unresolved⟩
    let span : SourceSpan := ⟨0, 0, 0, 0, 0, 0⟩
    let one : Option Expression := some (.literal (.number 1))
    let arrow : FunctionNode := ⟨none, .arrow, .plain, true, [], none,
      [.declaration .var (name "inner") one .slot], span, none, none, none⟩
    [.function ⟨some (name "bump"), .declaration, .plain, false, [], none,
        [.expression (.assign (name "total") (.literal (.number 1)))], span, none, none, none⟩,
      .declaration .letDeclaration (name "total") one .slot,
      .whileLoop (.literal (.bool true))
        ⟨[.declaration .var (name "again") one .slot, .expression (.function arrow)], none⟩,
      .declaration .var (name "twice") one .slot,
      .declaration .var (name "twice") one .slot,
      .declaration .var (name "once") one .slot,
      .declaration .constDeclaration (name "fixed") one .slot]

theorem isSome_resolve_overwriting : overwriting.resolve.toOption.isSome = true := by
  decide +kernel

def overwritingResolved : ResolvedProgram :=
  overwriting.resolve.toOption.get isSome_resolve_overwriting

/-- Three bindings of the program get a second value, and the others do not. -/
theorem mutable_overwriting : overwriting.resolve = .ok overwritingResolved ∧
    overwritingResolved.tree.bindings.toList.map Binding.name =
      ["again", "twice", "once", "bump", "total", "fixed", "arguments", "inner"] ∧
    ∀ b d, overwritingResolved.tree.binding? b = some d →
      (d.mutable = true ↔ d.name ∈ ["again", "twice", "total"]) := by
  have hresolve : overwriting.resolve = .ok overwritingResolved :=
    Except.eq_ok_get isSome_resolve_overwriting
  have hsize : overwritingResolved.tree.bindings.size = 8 := by decide +kernel
  have hall : ∀ i : Fin 8, ∀ d ∈ overwritingResolved.tree.binding? ⟨i⟩,
      ((d.kind ≠ .constBinding ∧ d.kind ≠ .functionName) ∧
        Reassigned ⟨i⟩ overwritingResolved.program.writes ↔
          d.name ∈ ["again", "twice", "total"]) := by
    decide +kernel
  refine ⟨hresolve, by decide +kernel, fun b d hd => ?_⟩
  obtain ⟨hlt, -⟩ := Array.getElem?_eq_some_iff.1 hd
  rw [Program.mutable_iff_reassigned hresolve hd]
  exact hall ⟨b.index, hsize ▸ hlt⟩ d hd

end ClosureCache
