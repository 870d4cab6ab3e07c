/-
Scope trees: walking outwards, and how a tree grows.

In a proper tree every parent has a smaller number than its scope, and scopes and
bindings agree on which binding stands in which slot.  `Grows` is what resolution does
to a tree: scopes and bindings are added, and of the old ones nothing changes that
decides what a name refers to.  `Nearest` is the search for a supplier of `this` or for
the home of a `var`, step by step.
-/
import ClosureCache.Scope.Tree

namespace ClosureCache

/-! ## What a scope is for -/

namespace Scope

theorem isVarScope_of_global {sc : Scope} (h : sc.kind = .global) : sc.isVarScope = true := by
  rw [isVarScope, h]

theorem isVarScope_congr {sc sc' : Scope} (h : sc'.kind = sc.kind) :
    sc'.isVarScope = sc.isVarScope := by
  rw [isVarScope, isVarScope, h]

theorem providesThis_of_global {sc : Scope} (h : sc.kind = .global) :
    sc.providesThis = true := by
  rw [providesThis, h]

theorem providesThis_congr {sc sc' : Scope} (h : sc'.kind = sc.kind)
    (ha : sc'.arrow = sc.arrow) : sc'.providesThis = sc.providesThis := by
  rw [providesThis, providesThis, h, ha]

end Scope

namespace ScopeTree

/-! ## Proper trees -/

/-- The scopes and bindings of a tree fit together. -/
structure Proper (t : ScopeTree) : Prop where
  scope_id : ∀ s sc, t.scope? s = some sc → sc.id = s
  parent_lt : ∀ s sc p, t.scope? s = some sc → sc.parent = some p → p.index < s.index
  /-- Only the global scope has nothing around it. -/
  outermost : ∀ s sc, t.scope? s = some sc → sc.parent = none → sc.kind = .global
  listed : ∀ s sc i b, t.scope? s = some sc → sc.bindings[i]? = some b →
    ∃ d, t.binding? b = some d ∧ d.scope = s ∧ d.slot = i
  placed : ∀ b d, t.binding? b = some d →
    d.id = b ∧ ∃ sc, t.scope? d.scope = some sc ∧ sc.bindings[d.slot]? = some b

variable {t : ScopeTree} {a b c s p : ScopeId} {sc : Scope}

theorem lt_of_scope? (hs : t.scope? s = some sc) : s.index < t.scopes.size := by
  rcases Nat.lt_or_ge s.index t.scopes.size with hlt | hge
  · exact hlt
  · rw [scope?, Array.getElem?_eq_none hge] at hs
    cases hs

theorem exists_scope? (hs : s.index < t.scopes.size) : ∃ sc, t.scope? s = some sc :=
  ⟨_, Array.getElem?_eq_getElem hs⟩

theorem binding_eq_ok {b : BindingId} {d : Binding} :
    t.binding b = .ok d ↔ t.binding? b = some d := by
  rw [binding]
  cases t.binding? b with
  | none => exact ⟨fun h => (by cases h), fun h => (by cases h)⟩
  | some d' =>
    exact ⟨fun h => congrArg _ (Except.ok.inj h), fun h => congrArg _ (Option.some.inj h)⟩

theorem scope_eq_ok : t.scope s = .ok sc ↔ t.scope? s = some sc := by
  rw [scope]
  cases t.scope? s with
  | none => exact ⟨fun h => (by cases h), fun h => (by cases h)⟩
  | some sc' =>
    exact ⟨fun h => congrArg _ (Except.ok.inj h), fun h => congrArg _ (Option.some.inj h)⟩

theorem Proper.exists_parent (ht : t.Proper) (hs : t.scope? s = some sc) (hp : sc.parent = some p) :
    ∃ outer, t.scope? p = some outer :=
  exists_scope? (Nat.lt_trans (ht.parent_lt s sc p hs hp) (lt_of_scope? hs))

/-! ## Walking outwards -/

/-- How far the walk may go does not matter once it is far enough. -/
theorem Proper.outwardFrom_eq (ht : t.Proper) (n : Nat) (s : ScopeId) (hn : s.index ≤ n) :
    t.outwardFrom n s = t.outward s := by
  induction n using Nat.strongRecOn generalizing s with
  | ind n ih =>
    rw [outward]
    cases n with
    | zero =>
      rw [Nat.le_zero.1 hn]
    | succ n =>
      cases hs : s.index with
      | zero =>
        rw [outwardFrom, outwardFrom]
        cases hsc : t.scope? s with
        | none => rfl
        | some sc =>
          cases hp : sc.parent with
          | none => rw [Option.bind_some, hp]
          | some p =>
            have := ht.parent_lt s sc p hsc hp
            omega
      | succ k =>
        rw [outwardFrom, outwardFrom]
        cases hsc : t.scope? s with
        | none => rfl
        | some sc =>
          cases hp : sc.parent with
          | none => rw [Option.bind_some, hp]
          | some p =>
            have hlt := ht.parent_lt s sc p hsc hp
            rw [Option.bind_some, hp]
            dsimp only
            rw [ih n (by omega) p (by omega), ih k (by omega) p (by omega)]

theorem Proper.outward_eq (ht : t.Proper) (hs : t.scope? s = some sc) :
    t.outward s = s :: (sc.parent.map t.outward).getD [] := by
  cases hp : sc.parent with
  | none =>
    rw [outward]
    cases s.index with
    | zero => rfl
    | succ n =>
      rw [outwardFrom, hs, Option.bind_some, hp]
      rfl
  | some p =>
    have hlt := ht.parent_lt s sc p hs hp
    rw [outward]
    cases hn : s.index with
    | zero => omega
    | succ n =>
      rw [outwardFrom, hs, Option.bind_some, hp]
      dsimp only [Option.map_some, Option.getD_some]
      rw [ht.outwardFrom_eq n p (by omega)]

theorem self_mem_outward (t : ScopeTree) (s : ScopeId) : s ∈ t.outward s := by
  rw [outward]
  cases s.index with
  | zero => exact List.mem_singleton.2 rfl
  | succ n =>
    rw [outwardFrom]
    split
    · exact List.mem_singleton.2 rfl
    · exact List.mem_cons_self

/-- What lies outwards of a scope is the scope itself or lies outwards of its parent. -/
theorem Proper.mem_outward (ht : t.Proper) (hs : t.scope? s = some sc) :
    a ∈ t.outward s ↔ a = s ∨ ∃ p, sc.parent = some p ∧ a ∈ t.outward p := by
  rw [ht.outward_eq hs, List.mem_cons]
  cases sc.parent with
  | none => simp
  | some p => simp

theorem Proper.mem_outward_of_parent (ht : t.Proper) (hs : t.scope? s = some sc)
    (hp : sc.parent = some p) (ha : a ∈ t.outward p) : a ∈ t.outward s :=
  (ht.mem_outward hs).2 (.inr ⟨p, hp, ha⟩)

/-- Induction from a scope outwards. -/
theorem Proper.outward_induction (ht : t.Proper) {P : ScopeId → Prop}
    (hstep : ∀ s sc, t.scope? s = some sc → (∀ p, sc.parent = some p → P p) → P s)
    (hs : t.scope? s = some sc) : P s := by
  obtain ⟨n⟩ := s
  induction n using Nat.strongRecOn generalizing sc with
  | ind n ih =>
    refine hstep ⟨n⟩ sc hs fun p hp => ?_
    obtain ⟨outer, houter⟩ := ht.exists_parent hs hp
    exact ih p.index (ht.parent_lt _ sc p hs hp) houter

theorem Proper.index_le_of_mem (ht : t.Proper) (hs : t.scope? s = some sc) (ha : a ∈ t.outward s) :
    a.index ≤ s.index := by
  refine ht.outward_induction (P := fun s => ∀ a, a ∈ t.outward s → a.index ≤ s.index)
    (fun s sc hs ih a ha => ?_) hs a ha
  rcases (ht.mem_outward hs).1 ha with rfl | ⟨p, hp, ha⟩
  · exact Nat.le_refl _
  · have := ih p hp a ha
    have := ht.parent_lt s sc p hs hp
    omega

theorem Proper.scope?_of_mem (ht : t.Proper) (hs : t.scope? s = some sc) (ha : a ∈ t.outward s) :
    ∃ outer, t.scope? a = some outer :=
  exists_scope? (Nat.lt_of_le_of_lt (ht.index_le_of_mem hs ha) (lt_of_scope? hs))

theorem Proper.mem_outward_trans (ht : t.Proper) (hc : t.scope? c = some sc)
    (hb : b ∈ t.outward c) (ha : a ∈ t.outward b) : a ∈ t.outward c := by
  refine ht.outward_induction (P := fun c => b ∈ t.outward c → a ∈ t.outward c)
    (fun c sc hc ih hb => ?_) hc hb
  rcases (ht.mem_outward hc).1 hb with rfl | ⟨p, hp, hb⟩
  · exact ha
  · exact ht.mem_outward_of_parent hc hp (ih p hp hb)

/-- Of two scopes around a third one, one lies around the other. -/
theorem Proper.outward_total (ht : t.Proper) (hc : t.scope? c = some sc) (ha : a ∈ t.outward c)
    (hb : b ∈ t.outward c) : a ∈ t.outward b ∨ b ∈ t.outward a := by
  refine ht.outward_induction (P := fun c => a ∈ t.outward c → b ∈ t.outward c →
    a ∈ t.outward b ∨ b ∈ t.outward a) (fun c sc hc ih ha hb => ?_) hc ha hb
  rcases (ht.mem_outward hc).1 ha with rfl | ⟨p, hp, ha'⟩
  · exact .inr hb
  · rcases (ht.mem_outward hc).1 hb with rfl | ⟨q, hq, hb'⟩
    · exact .inl ha
    · rw [hp] at hq
      obtain rfl := Option.some.inj hq
      exact ih p hp ha' hb'

/-- A name denotes what its scope holds under it, or else what it denotes further out. -/
theorem Proper.resolve_eq (ht : t.Proper) (hs : t.scope? s = some sc) (name : String) :
    t.resolve s name = (t.lookupLocal s name).or (sc.parent.bind fun p => t.resolve p name) := by
  rw [resolve, ht.outward_eq hs, List.findSome?_cons]
  cases t.lookupLocal s name with
  | some b => rfl
  | none =>
    rw [Option.none_or]
    cases sc.parent <;> rfl

theorem isWithin_iff : t.isWithin s a = true ↔ a ∈ t.outward s := by
  rw [isWithin, List.contains_iff_mem]

/-- A scope strictly around another one does not lie within it. -/
theorem Proper.not_isWithin (ht : t.Proper) (hs : t.scope? s = some sc) (ha : a ∈ t.outward s)
    (hne : a ≠ s) : t.isWithin a s = false := by
  rw [← Bool.not_eq_true, isWithin_iff]
  intro hback
  obtain ⟨outer, houter⟩ := ht.scope?_of_mem hs ha
  have h₁ := ht.index_le_of_mem hs ha
  have h₂ := ht.index_le_of_mem houter hback
  apply hne
  cases a; cases s
  exact congrArg _ (Nat.le_antisymm h₁ h₂)

/-! ## The nearest scope of a kind -/

/-- `a` is the first scope from `s` outwards that passes a test. -/
inductive Nearest (t : ScopeTree) (test : Scope → Bool) : ScopeId → ScopeId → Prop
  | here {s : ScopeId} {sc : Scope} : t.scope? s = some sc → test sc = true → Nearest t test s s
  | outward {s p a : ScopeId} {sc : Scope} : t.scope? s = some sc → test sc = false →
    sc.parent = some p → Nearest t test p a → Nearest t test s a

section Nearest

variable {test : Scope → Bool}

theorem Nearest.passes (hn : t.Nearest test s a) : ∃ sc, t.scope? a = some sc ∧ test sc = true := by
  induction hn with
  | here hs htest => exact ⟨_, hs, htest⟩
  | outward _ _ _ _ ih => exact ih

theorem Nearest.mem_outward (hn : t.Nearest test s a) (ht : t.Proper) : a ∈ t.outward s := by
  induction hn with
  | here => exact self_mem_outward t _
  | outward hs _ hp _ ih => exact ht.mem_outward_of_parent hs hp ih

theorem Nearest.unique (ha : t.Nearest test s a) (hb : t.Nearest test s b) : a = b := by
  induction ha with
  | here hs htest =>
    cases hb with
    | here => rfl
    | outward hs' htest' =>
      rw [hs] at hs'
      rw [← Option.some.inj hs', htest] at htest'
      cases htest'
  | outward hs htest hp _ ih =>
    cases hb with
    | here hs' htest' =>
      rw [hs] at hs'
      rw [← Option.some.inj hs', htest] at htest'
      cases htest'
    | outward hs' _ hp' hb =>
      rw [hs] at hs'
      rw [← Option.some.inj hs', hp] at hp'
      obtain rfl := Option.some.inj hp'
      exact ih hb

/-- The nearest scope of a kind is the same from a scope further out that is still
inside of it. -/
theorem Nearest.from_outer (hn : t.Nearest test s a) (ht : t.Proper) (hc : c ∈ t.outward s)
    (hout : c ∉ t.outward a) : t.Nearest test c a := by
  induction hn with
  | here => exact absurd hc hout
  | outward hs htest hp hn ih =>
    rcases (ht.mem_outward hs).1 hc with rfl | ⟨q, hq, hc⟩
    · exact .outward hs htest hp hn
    · rw [hp] at hq
      exact ih (Option.some.inj hq ▸ hc) hout

/-- A search by kind from a scope that exists finds a scope. -/
theorem exists_nearest (test : Scope → Bool) (hs : t.scope? s = some sc) :
    ∃ a, t.nearest test s = .ok a := by
  rw [nearest, hs]
  cases (t.outward s).find? fun a => (t.scope? a).any test with
  | none => exact ⟨global, rfl⟩
  | some a => exact ⟨a, rfl⟩

/-- The search of a tree for the nearest scope that passes a test, where the global
scope does. -/
theorem Proper.nearest_spec (ht : t.Proper)
    (hglobal : ∀ sc : Scope, sc.kind = .global → test sc = true)
    (hn : t.nearest test s = .ok a) : t.Nearest test s a := by
  cases hs : t.scope? s with
  | none =>
    rw [nearest, hs] at hn
    cases hn
  | some sc =>
    refine ht.outward_induction (P := fun s => t.nearest test s = .ok a → t.Nearest test s a)
      (fun s sc hs ih hn => ?_) hs hn
    rw [nearest, hs] at hn
    dsimp only at hn
    rw [ht.outward_eq hs, List.find?_cons, hs] at hn
    cases htest : test sc with
    | true =>
      rw [Option.any_some, htest] at hn
      obtain rfl : s = a := Except.ok.inj hn
      exact .here hs htest
    | false =>
      rw [Option.any_some, htest] at hn
      cases hp : sc.parent with
      | none =>
        rw [hglobal sc (ht.outermost s sc hs hp)] at htest
        cases htest
      | some p =>
        rw [hp] at hn
        refine .outward hs htest hp (ih p hp ?_)
        obtain ⟨outer, houter⟩ := ht.exists_parent hs hp
        rw [nearest, houter]
        exact hn

end Nearest

end ScopeTree
end ClosureCache
