/-
How a scope tree grows.

Every change that resolution makes to a tree either adds a scope, adds a binding at the
end of a scope, or changes scopes and bindings in ways that do not matter to what a name
refers to.
-/
import ClosureCache.Proofs.Scope.Tree

namespace ClosureCache
namespace ScopeTree

/-- A tree with more in it, in which the old scopes and bindings stand for the same. -/
structure Grows (t t' : ScopeTree) : Prop where
  scope : ∀ s sc, t.scope? s = some sc → ∃ sc', t'.scope? s = some sc' ∧ sc'.kind = sc.kind ∧
    sc'.parent = sc.parent ∧ sc'.arrow = sc.arrow
  binding : ∀ b d, t.binding? b = some d → ∃ d', t'.binding? b = some d' ∧ d'.scope = d.scope ∧
    d'.storage = d.storage ∧ d'.kind.isImmutable = d.kind.isImmutable ∧
    d.assignments ≤ d'.assignments

namespace Grows

variable {t t₁ t₂ : ScopeTree} {s a : ScopeId} {sc : Scope}

theorem refl (t : ScopeTree) : Grows t t :=
  ⟨fun _ sc hs => ⟨sc, hs, rfl, rfl, rfl⟩, fun _ d hb => ⟨d, hb, rfl, rfl, rfl, Nat.le_refl _⟩⟩

theorem trans (a : Grows t t₁) (b : Grows t₁ t₂) : Grows t t₂ where
  scope s sc hs := by
    obtain ⟨sc₁, hs₁, hkind₁, hparent₁, harrow₁⟩ := a.scope s sc hs
    obtain ⟨sc₂, hs₂, hkind₂, hparent₂, harrow₂⟩ := b.scope s sc₁ hs₁
    exact ⟨sc₂, hs₂, hkind₂.trans hkind₁, hparent₂.trans hparent₁, harrow₂.trans harrow₁⟩
  binding x d hx := by
    obtain ⟨d₁, hx₁, hscope₁, hstorage₁, hkind₁, hassign₁⟩ := a.binding x d hx
    obtain ⟨d₂, hx₂, hscope₂, hstorage₂, hkind₂, hassign₂⟩ := b.binding x d₁ hx₁
    exact ⟨d₂, hx₂, hscope₂.trans hscope₁, hstorage₂.trans hstorage₁, hkind₂.trans hkind₁,
      Nat.le_trans hassign₁ hassign₂⟩

theorem outward_eq (hg : Grows t t₁) (ht : t.Proper) (ht₁ : t₁.Proper) (hs : t.scope? s = some sc) :
    t₁.outward s = t.outward s := by
  refine ht.outward_induction (P := fun s => t₁.outward s = t.outward s) (fun s sc hs ih => ?_) hs
  obtain ⟨sc₁, hs₁, -, hparent, -⟩ := hg.scope s sc hs
  rw [ht.outward_eq hs, ht₁.outward_eq hs₁, hparent]
  cases hp : sc.parent with
  | none => rfl
  | some p =>
    rw [Option.map_some, Option.map_some, ih p hp]

/-- A search by kind ends where it ended before. -/
theorem nearest (hg : Grows t t₁) {test : Scope → Bool}
    (htest : ∀ sc sc' : Scope, sc'.kind = sc.kind → sc'.arrow = sc.arrow → test sc' = test sc)
    (hn : t.Nearest test s a) : t₁.Nearest test s a := by
  induction hn with
  | here hs hpass =>
    obtain ⟨sc₁, hs₁, hkind, -, harrow⟩ := hg.scope _ _ hs
    exact .here hs₁ (by rw [htest _ sc₁ hkind harrow, hpass])
  | outward hs hpass hp _ ih =>
    obtain ⟨sc₁, hs₁, hkind, hparent, harrow⟩ := hg.scope _ _ hs
    exact .outward hs₁ (by rw [htest _ sc₁ hkind harrow, hpass]) (by rw [hparent, hp]) ih

end Grows

/-! ## Changes in place -/

/-- A tree with the same scopes and bindings, changed in what does not matter to names. -/
structure Recasts (t t' : ScopeTree) : Prop where
  scope : ∀ s, ∃ f : Scope → Scope, t'.scope? s = (t.scope? s).map f ∧ ∀ sc, (f sc).id = sc.id ∧
    (f sc).kind = sc.kind ∧ (f sc).parent = sc.parent ∧ (f sc).arrow = sc.arrow ∧
    (f sc).bindings = sc.bindings
  binding : ∀ b, ∃ g : Binding → Binding, t'.binding? b = (t.binding? b).map g ∧
    ∀ d, t.binding? b = some d → (g d).id = d.id ∧ (g d).scope = d.scope ∧ (g d).slot = d.slot ∧
      (g d).storage = d.storage ∧ (g d).kind.isImmutable = d.kind.isImmutable ∧
      d.assignments ≤ (g d).assignments

section Changes

variable {t t' : ScopeTree}

theorem Recasts.refl (t : ScopeTree) : t.Recasts t where
  scope _ := ⟨id, by rw [Option.map_id]; rfl, fun _ => ⟨rfl, rfl, rfl, rfl, rfl⟩⟩
  binding _ := ⟨id, by rw [Option.map_id]; rfl,
    fun _ _ => ⟨rfl, rfl, rfl, rfl, rfl, Nat.le_refl _⟩⟩

theorem Recasts.grows (hr : t.Recasts t') : t.Grows t' where
  scope s sc hs := by
    obtain ⟨f, hf, hkeep⟩ := hr.scope s
    obtain ⟨-, hkind, hparent, harrow, -⟩ := hkeep sc
    exact ⟨f sc, by rw [hf, hs, Option.map_some], hkind, hparent, harrow⟩
  binding b d hb := by
    obtain ⟨g, hg, hkeep⟩ := hr.binding b
    obtain ⟨-, hscope, -, hstorage, hkind, hassign⟩ := hkeep d hb
    exact ⟨g d, by rw [hg, hb, Option.map_some], hscope, hstorage, hkind, hassign⟩

theorem Recasts.proper (hr : t.Recasts t') (ht : t.Proper) : t'.Proper := by
  have hscope : ∀ s sc', t'.scope? s = some sc' → ∃ sc, t.scope? s = some sc ∧ sc'.id = sc.id ∧
      sc'.kind = sc.kind ∧ sc'.parent = sc.parent ∧ sc'.bindings = sc.bindings := by
    intro s sc' hs
    obtain ⟨f, hf, hkeep⟩ := hr.scope s
    rw [hf] at hs
    obtain ⟨sc, hsc, rfl⟩ := Option.map_eq_some_iff.1 hs
    obtain ⟨hid, hkind, hparent, -, hbindings⟩ := hkeep sc
    exact ⟨sc, hsc, hid, hkind, hparent, hbindings⟩
  have hbinding : ∀ b d', t'.binding? b = some d' → ∃ d, t.binding? b = some d ∧ d'.id = d.id ∧
      d'.scope = d.scope ∧ d'.slot = d.slot := by
    intro b d' hb
    obtain ⟨g, hg, hkeep⟩ := hr.binding b
    rw [hg] at hb
    obtain ⟨d, hd, rfl⟩ := Option.map_eq_some_iff.1 hb
    obtain ⟨hid, hscope, hslot, -⟩ := hkeep d hd
    exact ⟨d, hd, hid, hscope, hslot⟩
  refine ⟨fun s sc' hs => ?_, fun s sc' p hs hp => ?_, fun s sc' hs hp => ?_,
    fun s sc' i b hs hi => ?_, fun b d' hb => ?_⟩
  · obtain ⟨sc, hs, hid, -⟩ := hscope s sc' hs
    rw [hid, ht.scope_id s sc hs]
  · obtain ⟨sc, hs, -, -, hparent, -⟩ := hscope s sc' hs
    exact ht.parent_lt s sc p hs (hparent ▸ hp)
  · obtain ⟨sc, hs, -, hkind, hparent, -⟩ := hscope s sc' hs
    rw [hkind, ht.outermost s sc hs (hparent ▸ hp)]
  · obtain ⟨sc, hs, -, -, -, hbindings⟩ := hscope s sc' hs
    obtain ⟨d, hb, hd, hslot⟩ := ht.listed s sc i b hs (hbindings ▸ hi)
    obtain ⟨g, hg, hkeep⟩ := hr.binding b
    obtain ⟨-, hscope', hslot', -⟩ := hkeep d hb
    exact ⟨g d, by rw [hg, hb, Option.map_some], hscope'.trans hd, hslot'.trans hslot⟩
  · obtain ⟨d, hb, hid, hd, hslot⟩ := hbinding b d' hb
    obtain ⟨hidb, sc, hs, hi⟩ := ht.placed b d hb
    obtain ⟨f, hf, hkeep⟩ := hr.scope d.scope
    obtain ⟨-, -, -, -, hbindings⟩ := hkeep sc
    exact ⟨hid.trans hidb, f sc, by rw [hd, hf, hs, Option.map_some], by rw [hbindings, hslot, hi]⟩

theorem scope?_modifyScope (t : ScopeTree) (s : ScopeId) (f : Scope → Scope) (a : ScopeId) :
    (t.modifyScope s f).scope? a = if a = s then (t.scope? a).map f else t.scope? a := by
  rw [scope?, modifyScope, Array.getElem?_modify, scope?]
  by_cases ha : s.index = a.index
  · rw [if_pos ha, if_pos (by cases a; cases s; exact congrArg _ ha.symm)]
  · rw [if_neg ha, if_neg fun e => ha (by rw [e])]

theorem binding?_modifyBinding (t : ScopeTree) (b : BindingId) (f : Binding → Binding)
    (a : BindingId) :
    (t.modifyBinding b f).binding? a = if a = b then (t.binding? a).map f else t.binding? a := by
  rw [binding?, modifyBinding, Array.getElem?_modify, binding?]
  by_cases ha : b.index = a.index
  · rw [if_pos ha, if_pos (by cases a; cases b; exact congrArg _ ha.symm)]
  · rw [if_neg ha, if_neg fun e => ha (by rw [e])]

theorem recasts_modifyScope (t : ScopeTree) (s : ScopeId) {f : Scope → Scope}
    (hf : ∀ sc, (f sc).id = sc.id ∧ (f sc).kind = sc.kind ∧ (f sc).parent = sc.parent ∧
      (f sc).arrow = sc.arrow ∧ (f sc).bindings = sc.bindings) : t.Recasts (t.modifyScope s f) where
  scope a := by
    refine ⟨if a = s then f else id, ?_, fun sc => ?_⟩
    · rw [scope?_modifyScope]
      split
      · rfl
      · rw [Option.map_id]
        rfl
    · split
      · exact hf sc
      · exact ⟨rfl, rfl, rfl, rfl, rfl⟩
  binding b := ⟨id, by rw [Option.map_id]; rfl, fun d _ => ⟨rfl, rfl, rfl, rfl, rfl, Nat.le_refl _⟩⟩

theorem recasts_modifyBinding {t : ScopeTree} {b : BindingId} {g : Binding → Binding}
    (hg : ∀ d, t.binding? b = some d → (g d).id = d.id ∧ (g d).scope = d.scope ∧
      (g d).slot = d.slot ∧ (g d).storage = d.storage ∧
      (g d).kind.isImmutable = d.kind.isImmutable ∧ d.assignments ≤ (g d).assignments) :
    t.Recasts (t.modifyBinding b g) where
  scope a := ⟨id, by rw [Option.map_id]; rfl, fun sc => ⟨rfl, rfl, rfl, rfl, rfl⟩⟩
  binding a := by
    refine ⟨if a = b then g else id, ?_, fun d hd => ?_⟩
    · rw [binding?_modifyBinding]
      split
      · rfl
      · rw [Option.map_id]
        rfl
    · split
      · next hab => exact hg d (hab ▸ hd)
      · exact ⟨rfl, rfl, rfl, rfl, rfl, Nat.le_refl _⟩

theorem recasts_finalizeMutability (t : ScopeTree) : t.Recasts t.finalizeMutability where
  scope a := ⟨id, by rw [Option.map_id]; rfl, fun sc => ⟨rfl, rfl, rfl, rfl, rfl⟩⟩
  binding a := ⟨settle, by rw [binding?, finalizeMutability, Array.getElem?_map]; rfl,
    fun d _ => ⟨rfl, rfl, rfl, rfl, rfl, Nat.le_refl _⟩⟩

end Changes

/-! ## Additions -/

section Additions

variable {t t' : ScopeTree} {s a : ScopeId} {sc : Scope} {b : BindingId} {name : String}
  {kind : BindingKind} {storage : Storage}

/-- A new scope comes last, inside of one that is there, and nothing else changes. -/
theorem addScope_cases {parent : ScopeId} {kind : ScopeKind} {arrow : Bool}
    {owner : Option SiteId} (hadd : t.addScope parent kind arrow owner = .ok (s, t')) :
    s = ⟨t.scopes.size⟩ ∧ t'.scopes.size = t.scopes.size + 1 ∧
      (∀ b, t'.binding? b = t.binding? b) ∧ ∃ outer, t.scope? parent = some outer ∧
        ∀ a, t'.scope? a = if a = s then
          some (.fresh s kind (some parent) (outer.depth + 1) arrow owner) else t.scope? a := by
  rw [addScope] at hadd
  split at hadd
  · cases hadd
  · next outer houter =>
    obtain ⟨rfl, rfl⟩ := Prod.mk.inj (Except.ok.inj hadd)
    refine ⟨rfl, Array.size_push _, fun _ => rfl, outer, houter, fun a => ?_⟩
    rw [scope?, Array.getElem?_push, scope?]
    by_cases ha : a.index = t.scopes.size
    · rw [if_pos ha, if_pos (by cases a; exact congrArg _ ha)]
    · rw [if_neg ha, if_neg fun e => ha (by rw [e])]

theorem scope?_addScope_of_some {parent : ScopeId} {kind : ScopeKind} {arrow : Bool}
    {owner : Option SiteId} (hadd : t.addScope parent kind arrow owner = .ok (s, t'))
    (ha : t.scope? a = some sc) : t'.scope? a = some sc := by
  obtain ⟨rfl, -, -, outer, -, hscope⟩ := addScope_cases hadd
  rw [hscope, if_neg, ha]
  rintro rfl
  exact Nat.lt_irrefl _ (lt_of_scope? ha)

theorem Proper.addScope (ht : t.Proper) {parent : ScopeId} {kind : ScopeKind} {arrow : Bool}
    {owner : Option SiteId} (hadd : t.addScope parent kind arrow owner = .ok (s, t')) :
    t'.Proper := by
  obtain ⟨rfl, -, hbinding, outer, houter, hscope⟩ := addScope_cases hadd
  refine ⟨fun a sc ha => ?_, fun a sc p ha hp => ?_, fun a sc ha hp => ?_,
    fun a sc i b ha hi => ?_, fun b d hb => ?_⟩
  · rw [hscope] at ha
    split at ha
    · next he => rw [← Option.some.inj ha, he]; rfl
    · exact ht.scope_id a sc ha
  · rw [hscope] at ha
    split at ha
    · next he =>
      rw [← Option.some.inj ha] at hp
      rw [← Option.some.inj hp, he]
      exact lt_of_scope? houter
    · exact ht.parent_lt a sc p ha hp
  · rw [hscope] at ha
    split at ha
    · rw [← Option.some.inj ha] at hp
      cases hp
    · exact ht.outermost a sc ha hp
  · rw [hscope] at ha
    rw [hbinding]
    split at ha
    · rw [← Option.some.inj ha] at hi
      cases hi
    · exact ht.listed a sc i b ha hi
  · rw [hbinding] at hb
    obtain ⟨hidb, sc, hs, hi⟩ := ht.placed b d hb
    exact ⟨hidb, sc, scope?_addScope_of_some hadd hs, hi⟩

/-- Opening a scope. -/
theorem addScope_spec (ht : t.Proper) {parent : ScopeId} {kind : ScopeKind} {arrow : Bool}
    {owner : Option SiteId} (hadd : t.addScope parent kind arrow owner = .ok (s, t')) :
    t'.Proper ∧ t.Grows t' ∧
      ∃ sc, t'.scope? s = some sc ∧ sc.kind = kind ∧ sc.parent = some parent ∧
        sc.arrow = arrow ∧ sc.bindings = #[] := by
  obtain ⟨-, -, hbinding, outer, -, hscope⟩ := addScope_cases hadd
  exact ⟨ht.addScope hadd, ⟨fun a sc ha => ⟨sc, scope?_addScope_of_some hadd ha, rfl, rfl, rfl⟩,
    fun b d hb => ⟨d, by rw [hbinding, hb], rfl, rfl, rfl, Nat.le_refl _⟩⟩,
    _, by rw [hscope, if_pos rfl], rfl, rfl, rfl, rfl⟩

theorem scope?_addBinding (t : ScopeTree) (sc : Scope) (name : String) (kind : BindingKind)
    (storage : Storage) (a : ScopeId) :
    (t.addBinding sc name kind storage).2.scope? a =
      if a = sc.id then (t.scope? a).map fun sca => { sca with
        bindings := sca.bindings.push ⟨t.bindings.size⟩ } else t.scope? a :=
  scope?_modifyScope t sc.id (fun sca => { sca with
    bindings := sca.bindings.push ⟨t.bindings.size⟩ }) a

theorem binding?_addBinding (t : ScopeTree) (sc : Scope) (name : String) (kind : BindingKind)
    (storage : Storage) (b : BindingId) :
    (t.addBinding sc name kind storage).2.binding? b =
      if b = ⟨t.bindings.size⟩ then
        some ⟨⟨t.bindings.size⟩, name, sc.id, kind, storage, sc.bindings.size, 0, false⟩
      else t.binding? b := by
  rw [addBinding, binding?, Array.getElem?_push, binding?]
  by_cases hb : b.index = t.bindings.size
  · rw [if_pos hb, if_pos (by cases b; exact congrArg _ hb)]
  · rw [if_neg hb, if_neg fun e => hb (by rw [e])]

theorem binding?_addBinding_of_some {d : Binding} (hd : t.binding? b = some d) :
    (t.addBinding sc name kind storage).2.binding? b = some d := by
  rw [binding?_addBinding, if_neg, hd]
  rintro rfl
  rw [binding?, Array.getElem?_eq_none (Nat.le_refl _)] at hd
  cases hd

/-- A scope has the new binding in its list, at the end. -/
theorem Proper.scope?_addBinding_self (ht : t.Proper) (hs : t.scope? s = some sc) :
    (t.addBinding sc name kind storage).2.scope? s = some { sc with
      bindings := sc.bindings.push ⟨t.bindings.size⟩ } := by
  rw [scope?_addBinding, if_pos (ht.scope_id s sc hs).symm, hs]
  rfl

theorem Proper.scope?_addBinding_of_ne (ht : t.Proper) (hs : t.scope? s = some sc) (ha : a ≠ s) :
    (t.addBinding sc name kind storage).2.scope? a = t.scope? a := by
  rw [scope?_addBinding, if_neg fun e => ha (e.trans (ht.scope_id s sc hs))]

theorem Proper.addBinding (ht : t.Proper) (hs : t.scope? s = some sc) :
    (t.addBinding sc name kind storage).2.Proper := by
  have hid := ht.scope_id s sc hs
  -- a scope is as it was, but for the list of the one that takes the binding
  have hcases : ∀ {a sca}, (t.addBinding sc name kind storage).2.scope? a = some sca →
      (a = s ∧ sca = { sc with bindings := sc.bindings.push ⟨t.bindings.size⟩ }) ∨
        t.scope? a = some sca := by
    intro a sca ha
    by_cases he : a = s
    · rw [he, ht.scope?_addBinding_self hs] at ha
      exact .inl ⟨he, (Option.some.inj ha).symm⟩
    · exact .inr (ht.scope?_addBinding_of_ne hs he ▸ ha)
  refine ⟨fun a sca ha => ?_, fun a sca p ha hp => ?_, fun a sca ha hp => ?_,
    fun a sca i b ha hi => ?_, fun b d hb => ?_⟩
  · rcases hcases ha with ⟨rfl, rfl⟩ | ha
    · exact hid
    · exact ht.scope_id a sca ha
  · rcases hcases ha with ⟨rfl, rfl⟩ | ha
    · exact ht.parent_lt a sc p hs hp
    · exact ht.parent_lt a sca p ha hp
  · rcases hcases ha with ⟨rfl, rfl⟩ | ha
    · exact ht.outermost a sc hs hp
    · exact ht.outermost a sca ha hp
  · rcases hcases ha with ⟨rfl, rfl⟩ | ha
    · rw [Array.getElem?_push] at hi
      split at hi
      · next hsize =>
        obtain rfl := Option.some.inj hi
        exact ⟨_, by rw [binding?_addBinding, if_pos rfl], hid, hsize.symm⟩
      · obtain ⟨d, hb, hscope, hslot⟩ := ht.listed a sc i b hs hi
        exact ⟨d, binding?_addBinding_of_some hb, hscope, hslot⟩
    · obtain ⟨d, hb, hscope, hslot⟩ := ht.listed a sca i b ha hi
      exact ⟨d, binding?_addBinding_of_some hb, hscope, hslot⟩
  · rw [binding?_addBinding] at hb
    split at hb
    · next hnew =>
      obtain rfl := Option.some.inj hb
      have hself : (t.addBinding sc name kind storage).2.scope? sc.id = some { sc with
          bindings := sc.bindings.push ⟨t.bindings.size⟩ } :=
        (congrArg _ hid).trans (ht.scope?_addBinding_self hs)
      exact ⟨hnew.symm, _, hself, by rw [Array.getElem?_push, if_pos rfl, hnew]⟩
    · obtain ⟨hidb, sc₀, hs₀, hi⟩ := ht.placed b d hb
      refine ⟨hidb, ?_⟩
      by_cases he : d.scope = s
      · obtain rfl := Option.some.inj (hs.symm.trans (he ▸ hs₀))
        have hlt : d.slot < sc.bindings.size := Nat.lt_of_not_le fun hge => by
          rw [Array.getElem?_eq_none hge] at hi
          cases hi
        exact ⟨_, he ▸ ht.scope?_addBinding_self hs,
          by rw [Array.getElem?_push, if_neg (Nat.ne_of_lt hlt), hi]⟩
      · exact ⟨sc₀, by rw [ht.scope?_addBinding_of_ne hs he, hs₀], hi⟩

theorem Proper.addBinding_grows (ht : t.Proper) (hs : t.scope? s = some sc) :
    t.Grows (t.addBinding sc name kind storage).2 where
  scope a sca ha := by
    by_cases he : a = s
    · subst he
      obtain rfl := Option.some.inj (hs.symm.trans ha)
      exact ⟨_, ht.scope?_addBinding_self hs, rfl, rfl, rfl⟩
    · exact ⟨sca, by rw [ht.scope?_addBinding_of_ne hs he, ha], rfl, rfl, rfl⟩
  binding b d hb := ⟨d, binding?_addBinding_of_some hb, rfl, rfl, rfl, Nat.le_refl _⟩

end Additions

/-! ## Names -/

section Names

variable {t t' : ScopeTree} {s : ScopeId} {b : BindingId} {name : String}

theorem Proper.lookupLocal_spec (ht : t.Proper) (hb : t.lookupLocal s name = some b) :
    ∃ d, t.binding? b = some d ∧ d.scope = s := by
  rw [lookupLocal] at hb
  cases hs : t.scope? s with
  | none =>
    rw [hs] at hb
    cases hb
  | some sc =>
    rw [hs] at hb
    obtain ⟨i, hi⟩ := Array.mem_iff_getElem?.1 (Array.mem_of_find?_eq_some hb)
    obtain ⟨d, hd, hscope, -⟩ := ht.listed s sc i b hs hi
    exact ⟨d, hd, hscope⟩

/-- A name refers to a binding of a scope around it. -/
theorem Proper.resolve_spec (ht : t.Proper) (hb : t.resolve s name = some b) :
    ∃ d, t.binding? b = some d ∧ d.scope ∈ t.outward s := by
  obtain ⟨a, ha, hlookup⟩ := List.exists_of_findSome?_eq_some hb
  obtain ⟨d, hd, hscope⟩ := ht.lookupLocal_spec hlookup
  exact ⟨d, hd, hscope ▸ ha⟩

/-- A declaration adds a binding, or repeats one that allows it.  A function declaration then
gives that binding its kind. -/
theorem declare_cases {kind : BindingKind} {storage : Storage}
    (hdeclare : t.declare s name kind storage = .ok (b, t')) :
    (∃ sc, t.scope? s = some sc ∧ t.lookupLocal s name = none ∧ b = ⟨t.bindings.size⟩ ∧
      t' = (t.addBinding sc name kind storage).2) ∨
    ∃ prior, t.lookupLocal s name = some b ∧ t.binding? b = some prior ∧
      kind.mayRepeat = true ∧ prior.kind.isRepeatable = true ∧
      t' = if kind = .functionDeclaration then t.modifyBinding b fun d => { d with kind }
        else t := by
  rw [declare] at hdeclare
  split at hdeclare
  · cases hdeclare
  · next sc hs =>
    split at hdeclare
    · next hlookup =>
      obtain ⟨rfl, rfl⟩ := Prod.mk.inj (Except.ok.inj hdeclare)
      exact .inl ⟨sc, hs, hlookup, rfl, rfl⟩
    · next existing hlookup =>
      split at hdeclare
      · cases hdeclare
      · next prior hprior =>
        split at hdeclare
        · next hrepeat =>
          obtain ⟨hmay, hrepeatable⟩ := Bool.and_eq_true_iff.1 hrepeat
          split at hdeclare
          · next hkind =>
            obtain ⟨rfl, rfl⟩ := Prod.mk.inj (Except.ok.inj hdeclare)
            exact .inr ⟨prior, hlookup, hprior, hmay, hrepeatable, by rw [if_pos hkind]⟩
          · next hkind =>
            obtain ⟨rfl, rfl⟩ := Prod.mk.inj (Except.ok.inj hdeclare)
            exact .inr ⟨prior, hlookup, hprior, hmay, hrepeatable, by rw [if_neg hkind]⟩
        · cases hdeclare

/-- A repeated declaration changes at most the kind of the binding, and leaves it one that
may be assigned. -/
theorem recasts_of_repeated (kind : BindingKind) {prior : Binding}
    (hprior : t.binding? b = some prior) (hrepeatable : prior.kind.isRepeatable = true) :
    t.Recasts (if kind = .functionDeclaration then
      t.modifyBinding b fun d => { d with kind } else t) := by
  split
  · next hkind =>
    refine recasts_modifyBinding fun d hd => ?_
    obtain rfl := Option.some.inj (hprior.symm.trans hd)
    refine ⟨rfl, rfl, rfl, rfl, ?_, Nat.le_refl _⟩
    rw [hkind]
    cases hk : prior.kind <;> simp [hk, BindingKind.isRepeatable] at hrepeatable <;> rfl
  · exact .refl t

/-- Declaring a name. -/
theorem declare_spec (ht : t.Proper) {kind : BindingKind} {storage : Storage}
    (hdeclare : t.declare s name kind storage = .ok (b, t')) :
    t'.Proper ∧ t.Grows t' ∧ ∃ d, t'.binding? b = some d ∧ d.scope = s := by
  rcases declare_cases hdeclare with ⟨sc, hs, -, rfl, rfl⟩ | ⟨prior, hlookup, hprior, -, hr, rfl⟩
  · exact ⟨ht.addBinding hs, ht.addBinding_grows hs, _, by rw [binding?_addBinding, if_pos rfl],
      ht.scope_id s sc hs⟩
  · have hrecasts := recasts_of_repeated kind hprior hr
    obtain ⟨d, hd, hscope⟩ := ht.lookupLocal_spec hlookup
    obtain ⟨d', hd', hscope', -⟩ := hrecasts.grows.binding b d hd
    exact ⟨hrecasts.proper ht, hrecasts.grows, d', hd', hscope'.trans hscope⟩

theorem recordSite_spec (ht : t.Proper) {site : SiteId} (hrecord : t.recordSite s site = .ok t') :
    t'.Proper ∧ t.Grows t' := by
  rw [recordSite] at hrecord
  split at hrecord
  · cases hrecord
  · obtain rfl := Except.ok.inj hrecord
    have hr := recasts_modifyScope t s (f := fun scope => { scope with
      sites := scope.sites.push site }) fun sc => ⟨rfl, rfl, rfl, rfl, rfl⟩
    exact ⟨hr.proper ht, hr.grows⟩

/-- After an assignment was noted there is one. -/
theorem recordAssignment_spec (ht : t.Proper) (hrecord : t.recordAssignment b = .ok t') :
    t'.Proper ∧ t.Grows t' ∧ ∃ d, t'.binding? b = some d ∧ 0 < d.assignments := by
  rw [recordAssignment] at hrecord
  split at hrecord
  · cases hrecord
  · next d hd =>
    obtain rfl := Except.ok.inj hrecord
    have hr := recasts_modifyBinding (t := t) (b := b) (g := fun binding => { binding with
      assignments := binding.assignments + 1 }) fun d _ =>
        ⟨rfl, rfl, rfl, rfl, rfl, Nat.le_succ _⟩
    refine ⟨hr.proper ht, hr.grows, { d with
      assignments := d.assignments + 1 }, ?_, Nat.succ_pos d.assignments⟩
    rw [binding?_modifyBinding, if_pos rfl, hd]
    rfl

/-- Once mutability is settled, a binding that may be assigned and is, is mutable. -/
theorem mutable_finalizeMutability {d : Binding} (hd : t.finalizeMutability.binding? b = some d) :
    d.mutable = (!d.kind.isImmutable && decide (0 < d.assignments)) := by
  rw [binding?, finalizeMutability, Array.getElem?_map] at hd
  obtain ⟨d₀, -, rfl⟩ := Option.map_eq_some_iff.1 hd
  rfl

end Names

theorem scope?_initial {s : ScopeId} {sc : Scope} (hs : initial.scope? s = some sc) :
    s = global ∧ sc = Scope.fresh global .global none 0 false none := by
  obtain ⟨n⟩ := s
  cases n with
  | zero => exact ⟨rfl, (Option.some.inj hs).symm⟩
  | succ n => cases hs

theorem proper_initial : initial.Proper where
  scope_id s sc hs := by
    obtain ⟨rfl, rfl⟩ := scope?_initial hs
    rfl
  parent_lt s sc p hs hp := by
    obtain ⟨rfl, rfl⟩ := scope?_initial hs
    cases hp
  outermost s sc hs _ := by
    obtain ⟨rfl, rfl⟩ := scope?_initial hs
    rfl
  listed s sc i b hs hi := by
    obtain ⟨rfl, rfl⟩ := scope?_initial hs
    cases hi
  placed b d hb := by cases hb

end ScopeTree
end ClosureCache
