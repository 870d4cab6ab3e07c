/-
Where the walks outwards end.

The walks are loops along the links to the parents, and a parent has a smaller number than
its scope, so none of them goes on for ever.  `Innermost` says what they look for: a scope
around the one where the walk starts, such that every other one that would do lies around
it.  One step of a walk changes nothing about that, unless the walk has arrived.
-/
import Mathlib.Logic.Relation
import ClosureCache.Proofs.Scope.Arena

namespace ClosureCache

namespace ScopeTree

variable {t : ScopeTree} {s a c p : ScopeId} {sc : Scope} {name : String} {b : BindingId}

/-! ## Around a scope -/

/-- The scope `p` lies directly around `s`. -/
def HasParent (t : ScopeTree) (s p : ScopeId) : Prop :=
  ∃ sc, t.scope? s = some sc ∧ sc.parent = some p

/-- A scope lies within those to which its links to the parents lead. -/
theorem Proper.isWithin_iff_links (ht : t.Proper) (hs : t.scope? s = some sc) :
    t.isWithin s a = true ↔ Relation.ReflTransGen t.HasParent s a := by
  rw [isWithin_iff]
  constructor
  · refine ht.outward_induction (P := fun s => a ∈ t.outward s →
      Relation.ReflTransGen t.HasParent s a) (fun s sc hs ih ha => ?_) hs
    rcases (ht.mem_outward hs).1 ha with rfl | ⟨p, hp, ha⟩
    · exact .refl
    · exact .head ⟨sc, hs, hp⟩ (ih p hp ha)
  · intro hlinks
    clear hs
    induction hlinks using Relation.ReflTransGen.head_induction_on with
    | refl => exact self_mem_outward t a
    | head hlink _ ih =>
      obtain ⟨sc, hs, hp⟩ := hlink
      exact ht.mem_outward_of_parent hs hp ih

theorem isWithin_self (t : ScopeTree) (s : ScopeId) : t.isWithin s s = true :=
  isWithin_iff.2 (self_mem_outward t s)

theorem Proper.isWithin_antisymm (ht : t.Proper) (hs : t.scope? s = some sc)
    (ha : t.isWithin s a = true) (hback : t.isWithin a s = true) : s = a := by
  by_contra hne
  rw [ht.not_isWithin hs (isWithin_iff.1 ha) (Ne.symm hne)] at hback
  cases hback

theorem Proper.isWithin_trans (ht : t.Proper) (hs : t.scope? s = some sc)
    (ha : t.isWithin s a = true) (hc : t.isWithin a c = true) : t.isWithin s c = true :=
  isWithin_iff.2 (ht.mem_outward_trans hs (isWithin_iff.1 ha) (isWithin_iff.1 hc))

theorem Proper.isWithin_parent_iff (ht : t.Proper) (hs : t.scope? s = some sc) :
    t.isWithin s a = true ↔ a = s ∨ ∃ p, sc.parent = some p ∧ t.isWithin p a = true := by
  simp only [isWithin_iff, ht.mem_outward hs]

/-! ## Innermost scopes -/

/-- Of the scopes around `s` that have a property, `a` lies within all others. -/
structure Innermost (t : ScopeTree) (P : ScopeId → Prop) (s a : ScopeId) : Prop where
  within : t.isWithin s a = true
  holds : P a
  inside : ∀ c, t.isWithin s c = true → P c → t.isWithin a c = true

variable {P : ScopeId → Prop}

theorem innermost_self (h : P s) : t.Innermost P s s :=
  ⟨isWithin_self t s, h, fun _ hc _ => hc⟩

/-- Where the walk starts is innermost if it will do. -/
theorem Innermost.eq_self (h : t.Innermost P s a) (ht : t.Proper) (hs : t.scope? s = some sc)
    (hP : P s) : a = s :=
  (ht.isWithin_antisymm hs h.within (h.inside s (isWithin_self t s) hP)).symm

/-- A step outwards from a scope that will not do. -/
theorem Proper.innermost_parent_iff (ht : t.Proper) (hs : t.scope? s = some sc)
    (hp : sc.parent = some p) (hP : ¬P s) : t.Innermost P s a ↔ t.Innermost P p a := by
  have hstep : ∀ c, P c → (t.isWithin s c = true ↔ t.isWithin p c = true) := by
    intro c hc
    rw [ht.isWithin_parent_iff hs, hp]
    constructor
    · rintro (rfl | ⟨q, hq, hin⟩)
      · exact absurd hc hP
      · exact Option.some.inj hq ▸ hin
    · exact fun hin => .inr ⟨p, rfl, hin⟩
  constructor
  · intro h
    exact ⟨(hstep a h.holds).1 h.within, h.holds,
      fun c hin hc => h.inside c ((hstep c hc).2 hin) hc⟩
  · intro h
    exact ⟨(hstep a h.holds).2 h.within, h.holds,
      fun c hin hc => h.inside c ((hstep c hc).1 hin) hc⟩

/-- Nothing lies outside the outermost scope. -/
theorem Proper.not_innermost (ht : t.Proper) (hs : t.scope? s = some sc)
    (hp : sc.parent = none) (hP : ¬P s) : ¬t.Innermost P s a := by
  intro h
  rcases (ht.isWithin_parent_iff hs).1 h.within with rfl | ⟨q, hq, -⟩
  · exact hP h.holds
  · rw [hp] at hq
    cases hq

/-! ## Names -/

def Names (t : ScopeTree) (name : String) (s : ScopeId) : Prop := ∃ b, t.Lists s name b

theorem WellFormed.lookupLocal_eq_none (ht : t.WellFormed) :
    t.lookupLocal s name = none ↔ ¬t.Names name s := by
  rw [Option.eq_none_iff_forall_ne_some, Names, not_exists]
  exact forall_congr' fun b => not_congr (ht.lookup s name b)

/-- A name denotes what the innermost scope that declares it lists under it. -/
theorem WellFormed.resolve_iff (ht : t.WellFormed) (hs : t.scope? s = some sc) :
    t.resolve s name = some b ↔ ∃ a, t.Innermost (t.Names name) s a ∧ t.Lists a name b := by
  refine ht.outward_induction (P := fun s => t.resolve s name = some b ↔
    ∃ a, t.Innermost (t.Names name) s a ∧ t.Lists a name b) (fun s sc hs ih => ?_) hs
  rw [ht.toProper.resolve_eq hs]
  cases hlookup : t.lookupLocal s name with
  | some found =>
    have hlists := (ht.lookup s name found).1 hlookup
    rw [Option.some_or]
    constructor
    · intro hb
      exact ⟨s, innermost_self ⟨found, hlists⟩, Option.some.inj hb ▸ hlists⟩
    · rintro ⟨a, ha, hb⟩
      rw [ha.eq_self ht.toProper hs ⟨found, hlists⟩] at hb
      rw [ht.distinct s name found b hlists hb]
  | none =>
    have hmiss := ht.lookupLocal_eq_none.1 hlookup
    rw [Option.none_or]
    cases hp : sc.parent with
    | none =>
      rw [Option.bind_none]
      constructor
      · intro h
        cases h
      · rintro ⟨a, ha, -⟩
        exact absurd ha (ht.not_innermost hs hp hmiss)
    | some p =>
      rw [Option.bind_some, ih p hp]
      exact exists_congr fun a => and_congr_left fun _ =>
        (ht.innermost_parent_iff hs hp hmiss).symm

theorem WellFormed.resolve_eq_none (ht : t.WellFormed) :
    t.resolve s name = none ↔ ∀ a, t.isWithin s a = true → ¬t.Names name a := by
  rw [resolve, List.findSome?_eq_none_iff]
  simp only [isWithin_iff, ht.lookupLocal_eq_none]

/-! ## Searches by kind -/

def Passes (t : ScopeTree) (test : Scope → Bool) (s : ScopeId) : Prop :=
  ∃ sc, t.scope? s = some sc ∧ test sc = true

theorem Nearest.innermost {test : Scope → Bool} (h : t.Nearest test s a) (ht : t.Proper) :
    t.Innermost (t.Passes test) s a := by
  induction h with
  | here hs htest => exact innermost_self ⟨_, hs, htest⟩
  | outward hs htest hp _ ih =>
    refine (ht.innermost_parent_iff hs hp ?_).2 ih
    rintro ⟨sc, hs', hpass⟩
    rw [← Option.some.inj (hs.symm.trans hs'), htest] at hpass
    cases hpass

/-- A search from a scope that exists finds the innermost scope that passes, where the
global scope does. -/
theorem Proper.exists_innermost (ht : t.Proper) (hs : t.scope? s = some sc)
    {test : Scope → Bool} (hglobal : ∀ sc : Scope, sc.kind = .global → test sc = true) :
    ∃ a, t.nearest test s = .ok a ∧ t.Innermost (t.Passes test) s a := by
  obtain ⟨a, ha⟩ := exists_nearest test hs
  exact ⟨a, ha, (ht.nearest_spec hglobal ha).innermost ht⟩

/-- A search looks at its scope first, and then further out. -/
theorem Proper.nearest_eq (ht : t.Proper) (hs : t.scope? s = some sc) (test : Scope → Bool) :
    t.nearest test s = if test sc then .ok s else
      match sc.parent with
      | some p => t.nearest test p
      | none => .ok global := by
  rw [nearest, hs, ht.outward_eq hs, List.find?_cons, hs, Option.any_some]
  cases htest : test sc with
  | true => rfl
  | false =>
    cases hp : sc.parent with
    | none => rfl
    | some p =>
      obtain ⟨outer, houter⟩ := ht.exists_parent hs hp
      dsimp only
      rw [nearest, houter]
      rfl

end ScopeTree

/-! ## The loops -/

namespace ScopeArena

variable {a : ScopeArena} {s c : ScopeId} {sc : IndexedScope} {name : String}

/-- Induction from a scope outwards. -/
theorem Sound.outward_induction (ha : a.Sound) {P : ScopeId → Prop}
    (hstep : ∀ s sc, a.scope? s = some sc → (∀ p, sc.parent = some p → P p) → P s)
    (hs : a.scope? s = some sc) : P s := by
  refine ha.proper.outward_induction (P := P) (fun s outer hs ih => ?_) (scope?_tree_of_some hs)
  obtain ⟨sc, hsc, rfl⟩ := exists_of_scope?_tree hs
  exact hstep s sc hsc ih

/-- A loop has one result at most. -/
theorem Ends.unique {σ ρ : Type} {turn : σ → Turn σ ρ} {x : σ} {r r' : ρ} (h : Ends turn x r)
    (h' : Ends turn x r') : r = r' := by
  induction h with
  | now hturn =>
    cases h' with
    | now hturn' => exact Turn.ended.inj (hturn.symm.trans hturn')
    | later hturn' =>
      rw [hturn] at hturn'
      cases hturn'
  | later hturn _ ih =>
    cases h' with
    | now hturn' =>
      rw [hturn] at hturn'
      cases hturn'
    | later hturn' h' =>
      obtain rfl := Turn.onward.inj (hturn.symm.trans hturn')
      exact ih h'

theorem Ends.iff {σ ρ : Type} {turn : σ → Turn σ ρ} {x : σ} {r r' : ρ} (h : Ends turn x r) :
    Ends turn x r' ↔ r' = r :=
  ⟨fun h' => h'.unique h, fun e => e ▸ h⟩

theorem Sound.resolve_ends (ha : a.Sound) (hs : a.scope? s = some sc) (name : String) :
    Ends (a.resolveTurn name) (some s) (a.tree.resolve s name) := by
  refine ha.outward_induction (P := fun s => Ends (a.resolveTurn name) (some s)
    (a.tree.resolve s name)) (fun s sc hs ih => ?_) hs
  have hget : sc.names.get? name = a.tree.lookupLocal s name := by
    rw [← ha.lookupLocal_eq, lookupLocal, hs, Option.bind_some]
  rw [ha.proper.resolve_eq (scope?_tree_of_some hs)]
  cases hlookup : a.tree.lookupLocal s name with
  | some b =>
    have hturn : a.resolveTurn name (some s) = .ended (some b) := by
      rw [resolveTurn, hs]
      dsimp only
      rw [hget, hlookup]
    exact .now hturn
  | none =>
    have hturn : a.resolveTurn name (some s) = .onward sc.parent := by
      rw [resolveTurn, hs]
      dsimp only
      rw [hget, hlookup]
    rw [Option.none_or]
    refine .later hturn ?_
    cases hp : sc.parent with
    | none => exact .now rfl
    | some p => exact ih p hp

theorem Sound.isWithin_ends (ha : a.Sound) (hs : a.scope? s = some sc) (c : ScopeId) :
    Ends (a.isWithinTurn c) (some s) (a.tree.isWithin s c) := by
  refine ha.outward_induction (P := fun s => Ends (a.isWithinTurn c) (some s)
    (a.tree.isWithin s c)) (fun s sc hs ih => ?_) hs
  by_cases he : s = c
  · rw [he, ScopeTree.isWithin_self]
    exact .now (by rw [isWithinTurn, if_pos rfl])
  · have houtward : a.tree.isWithin s c = true ↔
        ∃ p, sc.parent = some p ∧ a.tree.isWithin p c = true :=
      (ha.proper.isWithin_parent_iff (scope?_tree_of_some hs)).trans
        (or_iff_right fun e => he e.symm)
    have hturn : a.isWithinTurn c (some s) = .onward sc.parent := by
      rw [isWithinTurn, if_neg he, hs, Option.bind_some]
    refine .later hturn ?_
    cases hp : sc.parent with
    | none =>
      have houtside : a.tree.isWithin s c = false := by
        rw [← Bool.not_eq_true, houtward, hp]
        rintro ⟨q, hq, -⟩
        cases hq
      rw [houtside]
      exact .now rfl
    | some p =>
      have hsame : a.tree.isWithin s c = a.tree.isWithin p c := by
        rw [Bool.eq_iff_iff, houtward, hp]
        exact ⟨fun ⟨q, hq, hin⟩ => Option.some.inj hq ▸ hin, fun hin => ⟨p, rfl, hin⟩⟩
      rw [hsame]
      exact ih p hp

theorem Sound.nearest_ends (ha : a.Sound) (hs : a.scope? s = some sc) {test : Scope → Bool}
    (hglobal : ∀ sc : Scope, sc.kind = .global → test sc = true) :
    Ends (a.nearestTurn test) s (a.tree.nearest test s) := by
  refine ha.outward_induction (P := fun s => Ends (a.nearestTurn test) s
    (a.tree.nearest test s)) (fun s sc hs ih => ?_) hs
  have hs' := scope?_tree_of_some hs
  rw [ha.proper.nearest_eq hs']
  cases htest : test sc.toScope with
  | true => exact .now (by rw [nearestTurn, hs]; dsimp only; rw [if_pos htest, if_pos rfl])
  | false =>
    cases hp : sc.parent with
    | none =>
      rw [hglobal _ (ha.proper.outermost s _ hs' hp)] at htest
      cases htest
    | some p =>
      have hturn : a.nearestTurn test s = .onward p := by
        rw [nearestTurn, hs]
        dsimp only
        rw [htest, hp]
        rfl
      exact .later hturn (ih p hp)

/-! ## Where the walks end -/

/-- In whatever operations have built, every walk from a scope comes to an end, with what
the search in the list of the scopes around it finds.  A scope lies within exactly those to
which the links to the parents lead, which is an order; a name denotes what the innermost
scope that declares it lists; and the homes of `var` declarations and of `this` are the
innermost scopes of their kinds, which exist. -/
theorem walks_end (ops : List Operation) {a : ScopeArena} (ha : after ops = a)
    (hs : a.scope? s = some sc) (c : ScopeId) (name : String) :
    ((∀ r, Ends (a.isWithinTurn c) (some s) r ↔ r = a.tree.isWithin s c) ∧
      (∀ r, Ends (a.resolveTurn name) (some s) r ↔ r = a.tree.resolve s name) ∧
      (∀ r, Ends (a.nearestTurn Scope.isVarScope) s r ↔ r = a.tree.varScope s) ∧
      ∀ r, Ends (a.nearestTurn Scope.providesThis) s r ↔ r = a.tree.thisProvider s) ∧
    (a.tree.isWithin s c = true ↔ Relation.ReflTransGen a.tree.HasParent s c) ∧
    (a.tree.isWithin s s = true ∧
      (a.tree.isWithin s c = true → a.tree.isWithin c s = true → s = c) ∧
      ∀ d, a.tree.isWithin s c = true → a.tree.isWithin c d = true →
        a.tree.isWithin s d = true) ∧
    (∀ b, a.tree.resolve s name = some b ↔
      ∃ d, a.tree.Innermost (a.tree.Names name) s d ∧ a.tree.Lists d name b) ∧
    (a.tree.resolve s name = none ↔
      ∀ d, a.tree.isWithin s d = true → ¬a.tree.Names name d) ∧
    (∃ v, a.tree.varScope s = .ok v ∧
      a.tree.Innermost (a.tree.Passes Scope.isVarScope) s v) ∧
    ∃ p, a.tree.thisProvider s = .ok p ∧
      a.tree.Innermost (a.tree.Passes Scope.providesThis) s p := by
  obtain rfl := ha
  have hsound := sound_after ops
  have ht := hsound.wellFormed
  have hs' := scope?_tree_of_some hs
  exact ⟨⟨fun _ => (hsound.isWithin_ends hs c).iff, fun _ => (hsound.resolve_ends hs name).iff,
      fun _ => (hsound.nearest_ends hs fun _ => Scope.isVarScope_of_global).iff,
      fun _ => (hsound.nearest_ends hs fun _ => Scope.providesThis_of_global).iff⟩,
    ht.isWithin_iff_links hs', ⟨ScopeTree.isWithin_self _ s, ht.isWithin_antisymm hs',
      fun d => ht.isWithin_trans hs'⟩,
    fun b => ht.resolve_iff hs', ht.resolve_eq_none,
    ht.exists_innermost hs' fun _ => Scope.isVarScope_of_global,
    ht.exists_innermost hs' fun _ => Scope.providesThis_of_global⟩

/-- An arrow in a function with a parameter `x`, and in the arrow a block that declares
another `x`, around one more block. -/
def shadowed : List Operation :=
  [.addScope ScopeTree.global .function false none, .declare ⟨1⟩ "x" .parameter .slot,
    .addScope ⟨1⟩ .function true none, .addScope ⟨2⟩ .block false none,
    .declare ⟨3⟩ "x" .letBinding .slot, .addScope ⟨3⟩ .block false none]

/-- From the innermost block the walks end at different scopes. -/
theorem walks_end_shadowed :
    Ends ((after shadowed).isWithinTurn ScopeTree.global) (some ⟨4⟩) true ∧
      Ends ((after shadowed).resolveTurn "x") (some ⟨4⟩) (some ⟨1⟩) ∧
      Ends ((after shadowed).nearestTurn Scope.isVarScope) ⟨4⟩ (.ok ⟨2⟩) ∧
      Ends ((after shadowed).nearestTurn Scope.providesThis) ⟨4⟩ (.ok ⟨1⟩) ∧
      Relation.ReflTransGen (after shadowed).tree.HasParent ⟨4⟩ ScopeTree.global := by
  obtain ⟨sc, hs⟩ : ∃ sc, (after shadowed).scope? ⟨4⟩ = some sc :=
    Option.isSome_iff_exists.1 (by decide +kernel)
  obtain ⟨⟨hwithin, hresolve, hvar, hthis⟩, hlinks, -⟩ :=
    walks_end shadowed rfl hs ScopeTree.global "x"
  exact ⟨(hwithin _).2 (by decide +kernel), (hresolve _).2 (by decide +kernel),
    (hvar _).2 (by decide +kernel), (hthis _).2 (by decide +kernel),
    hlinks.1 (by decide +kernel)⟩

end ScopeArena
end ClosureCache
