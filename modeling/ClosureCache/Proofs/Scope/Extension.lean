/-
Trees in which nothing more is declared in the old scopes.

A scope takes all its declarations before anything in it is looked up.  `Fills` is what
happens while it takes them: no other scope and none of their bindings change.  `Extends`
is what happens from then on, and all that happens meanwhile to the scopes around it: new
scopes come, assignments are counted, but every name stands in every old scope for what
it stood for.
-/
import ClosureCache.Proofs.Scope.Names

namespace ClosureCache
namespace ScopeTree

variable {t t₁ t' : ScopeTree} {s a : ScopeId} {sc : Scope} {b : BindingId} {name : String}

/-! ## Extension -/

/-- A tree with more scopes in it, in which the old scopes list the bindings that they
listed, under the same names and of the same kinds. -/
structure Extends (t t' : ScopeTree) : Prop extends Grows t t' where
  listed : ∀ s sc, t.scope? s = some sc →
    ∃ sc', t'.scope? s = some sc' ∧ sc'.bindings = sc.bindings
  same : ∀ b d, t.binding? b = some d →
    ∃ d', t'.binding? b = some d' ∧ d'.name = d.name ∧ d'.kind = d.kind

namespace Extends

theorem refl (t : ScopeTree) : Extends t t :=
  ⟨.refl t, fun _ sc hs => ⟨sc, hs, rfl⟩, fun _ d hb => ⟨d, hb, rfl, rfl⟩⟩

theorem trans (a : Extends t t₁) (b : Extends t₁ t') : Extends t t' where
  toGrows := a.toGrows.trans b.toGrows
  listed s sc hs := by
    obtain ⟨sc₁, hs₁, hlist₁⟩ := a.listed s sc hs
    obtain ⟨sc₂, hs₂, hlist₂⟩ := b.listed s sc₁ hs₁
    exact ⟨sc₂, hs₂, hlist₂.trans hlist₁⟩
  same x d hx := by
    obtain ⟨d₁, hx₁, hname₁, hkind₁⟩ := a.same x d hx
    obtain ⟨d₂, hx₂, hname₂, hkind₂⟩ := b.same x d₁ hx₁
    exact ⟨d₂, hx₂, hname₂.trans hname₁, hkind₂.trans hkind₁⟩

/-- An old scope holds under a name what it held, and nothing where it held nothing. -/
theorem lookup_eq (he : Extends t t') (ht : t.Proper) (hs : t.scope? s = some sc)
    (name : String) : t'.lookupLocal s name = t.lookupLocal s name := by
  obtain ⟨sc', hs', hlist⟩ := he.listed s sc hs
  rw [lookupLocal_eq, lookupLocal_eq, hs, hs']
  simp only [Option.map_some, Option.bind_some, hlist]
  rw [← Array.find?_toList, ← Array.find?_toList]
  refine List.find?_congr fun b hb => ?_
  obtain ⟨i, hi⟩ := Array.mem_iff_getElem?.1 (Array.mem_toList_iff.1 hb)
  obtain ⟨d, hd, -⟩ := ht.listed s sc i b hs hi
  obtain ⟨d', hd', hname, -⟩ := he.same b d hd
  rw [hd, hd', Option.map_some, Option.map_some, hname]

theorem keeps (he : Extends t t') (ht : t.Proper) : Keeps t t' where
  toGrows := he.toGrows
  named b d hd := by
    obtain ⟨d', hd', hname, hkind⟩ := he.same b d hd
    exact ⟨d', hd', hname, .inl hkind⟩
  lookup s name b hb := by
    cases hs : t.scope? s with
    | none =>
      rw [lookupLocal, hs] at hb
      cases hb
    | some sc => rw [he.lookup_eq ht hs, hb]

/-- A name denotes in an old scope what it denoted. -/
theorem resolve_eq (he : Extends t t') (ht : t.Proper) (ht' : t'.Proper)
    (hs : t.scope? s = some sc) (name : String) : t'.resolve s name = t.resolve s name := by
  rw [resolve, resolve, he.toGrows.outward_eq ht ht' hs]
  have hmem : ∀ a ∈ t.outward s, t'.lookupLocal a name = t.lookupLocal a name := by
    intro a ha
    obtain ⟨sca, hsca⟩ := ht.scope?_of_mem hs ha
    exact he.lookup_eq ht hsca name
  revert hmem
  induction t.outward s with
  | nil => exact fun _ => rfl
  | cons a rest ih =>
    intro hmem
    rw [List.findSome?_cons, List.findSome?_cons, hmem a List.mem_cons_self,
      ih fun b hb => hmem b (List.mem_cons_of_mem _ hb)]

/-- A search by kind gives in an old scope what it gave. -/
theorem nearest_eq (he : Extends t t') (ht : t.Proper) (ht' : t'.Proper) {test : Scope → Bool}
    (htest : ∀ sc sc' : Scope, sc'.kind = sc.kind → sc'.arrow = sc.arrow → test sc' = test sc)
    (hs : t.scope? s = some sc) : t'.nearest test s = t.nearest test s := by
  obtain ⟨sc', hs', -⟩ := he.scope s sc hs
  have hfind : ((t'.outward s).find? fun a => (t'.scope? a).any test) =
      (t.outward s).find? fun a => (t.scope? a).any test := by
    rw [he.toGrows.outward_eq ht ht' hs]
    refine List.find?_congr fun a ha => ?_
    obtain ⟨sca, hsca⟩ := ht.scope?_of_mem hs ha
    obtain ⟨sca', hsca', hkind, -, harrow⟩ := he.scope a sca hsca
    rw [hsca, hsca', Option.any_some, Option.any_some, htest sca sca' hkind harrow]
  rw [nearest, nearest, hs, hs', hfind]

end Extends

/-! ## One scope taking its declarations -/

/-- A tree in which only the scope `s` has taken more names. -/
structure Fills (t t' : ScopeTree) (s : ScopeId) : Prop extends Keeps t t' where
  size : t'.scopes.size = t.scopes.size
  others : ∀ a, a ≠ s → t'.scope? a = t.scope? a
  bindings : ∀ b d, t.binding? b = some d → d.scope ≠ s → t'.binding? b = some d

theorem Fills.refl (t : ScopeTree) (s : ScopeId) : Fills t t s :=
  ⟨.refl t, rfl, fun _ _ => rfl, fun _ _ hb _ => hb⟩

theorem Fills.trans (a : Fills t t₁ s) (b : Fills t₁ t' s) : Fills t t' s where
  toKeeps := a.toKeeps.trans b.toKeeps
  size := b.size.trans a.size
  others x hx := (b.others x hx).trans (a.others x hx)
  bindings x d hd hs := b.bindings x d (a.bindings x d hd hs) hs

/-- What a new scope takes changes nothing in the scopes that were there before it. -/
theorem Extends.fills (he : Extends t t₁) (ht : t.Proper) (hnew : t.scope? s = none)
    (hf : Fills t₁ t' s) : Extends t t' where
  toGrows := he.toGrows.trans hf.toGrows
  listed a sc ha := by
    obtain ⟨sc₁, ha₁, hlist⟩ := he.listed a sc ha
    refine ⟨sc₁, ?_, hlist⟩
    rw [hf.others a, ha₁]
    rintro rfl
    rw [hnew] at ha
    cases ha
  same b d hd := by
    obtain ⟨d₁, hd₁, hname, hkind⟩ := he.same b d hd
    refine ⟨d₁, hf.bindings b d₁ hd₁ fun hs => ?_, hname, hkind⟩
    obtain ⟨d₂, hd₂, hscope, -⟩ := he.binding b d hd
    obtain rfl := Option.some.inj (hd₁.symm.trans hd₂)
    obtain ⟨-, sc, hsc, -⟩ := ht.placed b d hd
    rw [← hscope, hs, hnew] at hsc
    cases hsc

/-! ## Changes -/

/-- A change in place that keeps names and kinds. -/
theorem extends_of_recasts (hr : t.Recasts t')
    (hb : ∀ b, ∃ g : Binding → Binding, t'.binding? b = (t.binding? b).map g ∧
      ∀ d, (g d).name = d.name ∧ (g d).kind = d.kind) : t.Extends t' where
  toGrows := hr.grows
  listed s sc hs := by
    obtain ⟨f, hf, hkeep⟩ := hr.scope s
    exact ⟨f sc, by rw [hf, hs, Option.map_some], (hkeep sc).2.2.2.2⟩
  same b d hd := by
    obtain ⟨g, hg, hkeep⟩ := hb b
    exact ⟨g d, by rw [hg, hd, Option.map_some], hkeep d⟩

theorem extends_finalizeMutability (t : ScopeTree) : t.Extends t.finalizeMutability :=
  extends_of_recasts (recasts_finalizeMutability t) fun b =>
    ⟨settle, by rw [binding?, finalizeMutability, Array.getElem?_map]; rfl,
      fun _ => ⟨rfl, rfl⟩⟩

theorem addScope_extends (ht : t.Proper) {parent : ScopeId} {kind : ScopeKind} {arrow : Bool}
    {owner : Option SiteId} (hadd : t.addScope parent kind arrow owner = .ok (s, t')) :
    t.Extends t' := by
  obtain ⟨-, -, hbinding, -⟩ := addScope_cases hadd
  exact ⟨(addScope_spec ht hadd).2.1, fun a sca ha => ⟨sca, scope?_addScope_of_some hadd ha, rfl⟩,
    fun b d hd => ⟨d, by rw [hbinding, hd], rfl, rfl⟩⟩

theorem recordSite_extends {site : SiteId} (hrecord : t.recordSite s site = .ok t') :
    t.Extends t' ∧ t'.scopes.size = t.scopes.size := by
  rw [recordSite] at hrecord
  split at hrecord
  · cases hrecord
  · obtain rfl := Except.ok.inj hrecord
    refine ⟨?_, Array.size_modify⟩
    exact extends_of_recasts (recasts_modifyScope t s fun sc => ⟨rfl, rfl, rfl, rfl, rfl⟩) fun b =>
      ⟨id, by rw [Option.map_id]; rfl, fun _ => ⟨rfl, rfl⟩⟩

theorem recordAssignment_extends (hrecord : t.recordAssignment b = .ok t') :
    t.Extends t' ∧ t'.scopes.size = t.scopes.size := by
  rw [recordAssignment] at hrecord
  split at hrecord
  · cases hrecord
  · obtain rfl := Except.ok.inj hrecord
    refine ⟨extends_of_recasts (recasts_modifyBinding fun d _ =>
      ⟨rfl, rfl, rfl, rfl, rfl, Nat.le_succ _⟩) fun a => ?_, rfl⟩
    refine ⟨if a = b then fun d => { d with
      assignments := d.assignments + 1 } else id, ?_, fun d => ?_⟩
    · rw [binding?_modifyBinding]
      split
      · rfl
      · rw [Option.map_id]
        rfl
    · split <;> exact ⟨rfl, rfl⟩

/-- Declaring a name in a scope changes no other one. -/
theorem declare_fills (ht : t.Proper) {kind : BindingKind} {storage : Storage}
    (hdeclare : t.declare s name kind storage = .ok (b, t')) : t.Fills t' s := by
  have hk := (declare_keeps ht hdeclare).1
  rcases declare_cases hdeclare with ⟨sc, hs, -, rfl, rfl⟩ | ⟨prior, hlookup, hprior, -, -, rfl⟩
  · exact ⟨hk, Array.size_modify, fun a ha => ht.scope?_addBinding_of_ne hs ha,
      fun b d hd _ => binding?_addBinding_of_some hd⟩
  · obtain ⟨d, hd, hscope⟩ := ht.lookupLocal_spec hlookup
    split at hk
    · next hkind =>
      rw [if_pos hkind]
      refine ⟨hk, rfl, fun _ _ => rfl, fun c dc hc hne => ?_⟩
      rw [binding?_modifyBinding, if_neg, hc]
      rintro rfl
      obtain rfl := Option.some.inj (hd.symm.trans hc)
      exact hne hscope
    · next hkind =>
      rw [if_neg hkind]
      exact .refl t s

end ScopeTree
end ClosureCache
