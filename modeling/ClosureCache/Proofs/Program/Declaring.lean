/-
What a scope takes, and what it refuses.

While a scope takes its declarations it holds exactly the names declared so far, each with
the kind of one of its declarations (`ScopeTree.Holds`).  The next declaration is taken
exactly when it fits all of them.
-/
import ClosureCache.Proofs.Program.WellScoped
import ClosureCache.Proofs.Scope.Extension

namespace ClosureCache

/-! ## Kinds -/

theorem BindingKind.mayMeet_iff (k l : BindingKind) : k.mayMeet l = true ↔
    k.isRepeatable = true ∧ l.isRepeatable = true ∧ (k.mayRepeat = true ∨ l.mayRepeat = true) := by
  cases k <;> cases l <;> decide

theorem BindingKind.isRepeatable_of_mayRepeat {k : BindingKind} (h : k.mayRepeat = true) :
    k.isRepeatable = true := by
  cases k <;> first | rfl | cases h

/-- What may be repeated but does not repeat comes before what does. -/
def Declared.Follows (d : Declared) (ds : List Declared) : Prop :=
  d.kind.isRepeatable = true → d.kind.mayRepeat = true ∨ ∀ e ∈ ds, e.kind.mayRepeat = false

/-- Whether a declaration fits all earlier ones of its name shows on the kind of any one
of them. -/
theorem Compatible.fits_iff {ds : List Declared} (hc : Compatible ds) {d e : Declared}
    (hd : d.Follows ds) (he : e ∈ ds) (hname : e.name = d.name) :
    (∀ e ∈ ds, e.Fits d) ↔ d.kind.mayRepeat = true ∧ e.kind.isRepeatable = true := by
  constructor
  · intro hfits
    obtain ⟨hrepeatable, hd', hmay⟩ := (BindingKind.mayMeet_iff _ _).1 (hfits e he hname)
    refine ⟨?_, hrepeatable⟩
    rcases hmay with hmay | hmay
    · rcases hd hd' with hmay' | hnone
      · exact hmay'
      · rw [hnone e he] at hmay
        cases hmay
    · exact hmay
  · rintro ⟨hmay, hrepeatable⟩ e' he' hname'
    refine (BindingKind.mayMeet_iff _ _).2
      ⟨?_, BindingKind.isRepeatable_of_mayRepeat hmay, .inr hmay⟩
    by_cases heq : e' = e
    · exact heq ▸ hrepeatable
    · exact ((BindingKind.mayMeet_iff _ _).1
        (hc.mayMeet he' he heq (hname'.trans hname.symm))).1

/-! ## Scopes -/

namespace ScopeTree

variable {t t' : ScopeTree} {s : ScopeId} {b : BindingId} {ds : List Declared} {d : Declared}

/-- What the scope `s` holds is what `ds` declare, a function declaration before all others of
its name. -/
structure Holds (t : ScopeTree) (s : ScopeId) (ds : List Declared) : Prop where
  held : ∀ d ∈ ds, t.Announces s d.name d.kind
  origin : ∀ name b, t.lookupLocal s name = some b →
    ∃ c, t.binding? b = some c ∧ ∃ d ∈ ds, d.name = name ∧ c.kind = d.kind

/-- The scope `s` has taken the declarations `ds` and may take more. -/
structure Takes (t : ScopeTree) (s : ScopeId) (ds : List Declared) : Prop where
  proper : t.Proper
  opened : ∃ sc, t.scope? s = some sc
  holds : t.Holds s ds
  compatible : Compatible ds

theorem Holds.lookup (hh : t.Holds s ds) (hd : d ∈ ds) : ∃ b, t.lookupLocal s d.name = some b := by
  obtain ⟨b, -, hb, -⟩ := hh.held d hd
  exact ⟨b, hb⟩

theorem Holds.lookup_eq_none (hh : t.Holds s ds) {name : String} :
    t.lookupLocal s name = none ↔ ∀ d ∈ ds, d.name ≠ name := by
  constructor
  · rintro hnone d hd rfl
    obtain ⟨b, hb⟩ := hh.lookup hd
    rw [hnone] at hb
    cases hb
  · intro hne
    cases hlookup : t.lookupLocal s name with
    | none => rfl
    | some b =>
      obtain ⟨-, -, d, hd, hname, -⟩ := hh.origin name b hlookup
      exact absurd hname (hne d hd)

theorem Holds.later (hh : t.Holds s ds) (he : t.Extends t') (ht : t.Proper) {sc : Scope}
    (hs : t.scope? s = some sc) : t'.Holds s ds where
  held d hd := (he.keeps ht).announces (hh.held d hd)
  origin name b hb := by
    rw [he.lookup_eq ht hs] at hb
    obtain ⟨c, hc, d, hd, hname, hkind⟩ := hh.origin name b hb
    obtain ⟨c', hc', -, hkind'⟩ := he.same b c hc
    exact ⟨c', hc', d, hd, hname, hkind'.trans hkind⟩

/-- A scope without bindings holds nothing. -/
theorem holds_nil {sc : Scope} (hs : t.scope? s = some sc) (hempty : sc.bindings = #[]) :
    t.Holds s [] := by
  refine ⟨fun _ hd => absurd hd List.not_mem_nil, fun name b hb => ?_⟩
  rw [lookupLocal, hs] at hb
  dsimp only at hb
  rw [hempty] at hb
  cases hb

/-- A new binding under a name that the scope does not hold. -/
theorem Holds.addBinding (hh : t.Holds s ds) (ht : t.Proper) {sc : Scope}
    (hs : t.scope? s = some sc) (hnone : t.lookupLocal s d.name = none) :
    (t.addBinding sc d.name d.kind d.storage).2.Holds s (ds ++ [d]) where
  held e he := by
    rw [Announces, lookupLocal_addBinding ht hs]
    rcases List.mem_append.1 he with he | he
    · obtain ⟨b, c, hb, hc, hkind⟩ := hh.held e he
      exact ⟨b, c, by rw [hb, Option.some_or], binding?_addBinding_of_some hc, hkind⟩
    · obtain rfl := List.mem_singleton.1 he
      exact ⟨_, _, by rw [hnone, if_pos ⟨rfl, rfl⟩, Option.none_or],
        by rw [binding?_addBinding, if_pos rfl], e.kind.showsAs_self⟩
  origin name b hb := by
    rw [lookupLocal_addBinding ht hs] at hb
    cases hlookup : t.lookupLocal s name with
    | some a =>
      rw [hlookup, Option.some_or] at hb
      obtain rfl := Option.some.inj hb
      obtain ⟨c, hc, e, he, hname, hkind⟩ := hh.origin name a hlookup
      exact ⟨c, binding?_addBinding_of_some hc, e, List.mem_append_left _ he, hname, hkind⟩
    | none =>
      rw [hlookup, Option.none_or] at hb
      split at hb
      · next hn =>
        obtain rfl := Option.some.inj hb
        exact ⟨_, by rw [binding?_addBinding, if_pos rfl], d,
          List.mem_append_right _ (List.mem_singleton.2 rfl), hn.2.symm, rfl⟩
      · cases hb

/-- A function declaration gives its kind to the binding that it repeats. -/
theorem Holds.modifyBinding (hh : t.Holds s ds) (hlookup : t.lookupLocal s d.name = some b)
    {c : Binding} (hb : t.binding? b = some c) (hbecomes : c.kind.Becomes d.kind) :
    (t.modifyBinding b fun c => { c with kind := d.kind }).Holds s (ds ++ [d]) := by
  have hsame : ∀ name, (t.modifyBinding b fun c => { c with
      kind := d.kind }).lookupLocal s name = t.lookupLocal s name := fun name => by
    refine lookupLocal_congr rfl fun a => ?_
    rw [binding?_modifyBinding]
    split
    · rw [Option.map_map]
      rfl
    · rfl
  constructor
  · intro e he
    rw [Announces, hsame]
    rcases List.mem_append.1 he with he | he
    · obtain ⟨a, c', ha, hc', hkind⟩ := hh.held e he
      by_cases hab : a = b
      · subst hab
        obtain rfl := Option.some.inj (hb.symm.trans hc')
        exact ⟨a, _, ha, by rw [binding?_modifyBinding, if_pos rfl, hb, Option.map_some],
          hkind.becomes hbecomes⟩
      · exact ⟨a, c', ha, by rw [binding?_modifyBinding, if_neg hab, hc'], hkind⟩
    · obtain rfl := List.mem_singleton.1 he
      exact ⟨b, _, hlookup, by rw [binding?_modifyBinding, if_pos rfl, hb, Option.map_some],
        e.kind.showsAs_self⟩
  · intro name a ha
    rw [hsame] at ha
    obtain ⟨c, hc, e, he, hname, hkind⟩ := hh.origin name a ha
    rw [binding?_modifyBinding]
    split
    · next hab =>
      subst hab
      refine ⟨_, by rw [hc, Option.map_some], d, List.mem_append_right _
        (List.mem_singleton.2 rfl), ?_, rfl⟩
      rw [← name_of_lookupLocal hlookup hc, name_of_lookupLocal ha hc]
    · exact ⟨c, hc, e, List.mem_append_left _ he, hname, hkind⟩

/-- A declaration that repeats a name of the scope and changes nothing. -/
theorem Holds.repeated (hh : t.Holds s ds) (hnew : t.Announces s d.name d.kind) :
    t.Holds s (ds ++ [d]) where
  held e he := by
    rcases List.mem_append.1 he with he | he
    · exact hh.held e he
    · obtain rfl := List.mem_singleton.1 he
      exact hnew
  origin name a ha := by
    obtain ⟨c, hc, e, he, hname, hkind⟩ := hh.origin name a ha
    exact ⟨c, hc, e, List.mem_append_left _ he, hname, hkind⟩

/-- A scope takes the next declaration if it fits those that it has taken, and refuses it
as a duplicate if it does not. -/
theorem Takes.declare_cases (h : t.Takes s ds) (hd : d.Follows ds) :
    (Compatible (ds ++ [d]) ∧ ∃ b t', t.declare s d.name d.kind d.storage = .ok (b, t') ∧
      t'.Takes s (ds ++ [d]) ∧ t'.lookupLocal s d.name = some b ∧ t.Fills t' s) ∨
    (¬Compatible (ds ++ [d]) ∧
      t.declare s d.name d.kind d.storage = .error (.duplicateBinding d.name s)) := by
  obtain ⟨sc, hs⟩ := h.opened
  -- whatever was declared, the rest follows from the names held afterwards
  have htaken : ∀ {b t'}, t.declare s d.name d.kind d.storage = .ok (b, t') →
      t'.Holds s (ds ++ [d]) → (∀ e ∈ ds, e.Fits d) → (Compatible (ds ++ [d]) ∧ ∃ b t',
        t.declare s d.name d.kind d.storage = .ok (b, t') ∧ t'.Takes s (ds ++ [d]) ∧
          t'.lookupLocal s d.name = some b ∧ t.Fills t' s) := by
    intro b t' hdeclare hholds hfits
    have hc := compatible_append_singleton.2 ⟨h.compatible, hfits⟩
    obtain ⟨hproper, hgrows, -⟩ := declare_spec h.proper hdeclare
    obtain ⟨sc', hs', -⟩ := hgrows.scope s sc hs
    exact ⟨hc, b, t', hdeclare, ⟨hproper, ⟨sc', hs'⟩, hholds, hc⟩,
      (declare_keeps h.proper hdeclare).2, declare_fills h.proper hdeclare⟩
  cases hlookup : t.lookupLocal s d.name with
  | none =>
    have hdeclare : t.declare s d.name d.kind d.storage =
        .ok (t.addBinding sc d.name d.kind d.storage) := by
      rw [declare, hs]
      dsimp only
      rw [hlookup]
    refine .inl (htaken hdeclare (h.holds.addBinding h.proper hs hlookup) fun e he hname => ?_)
    exact absurd hname (h.holds.lookup_eq_none.1 hlookup e he)
  | some b =>
    obtain ⟨c, hc, e, he, hname, hkind⟩ := h.holds.origin _ _ hlookup
    have hdeclare : t.declare s d.name d.kind d.storage =
        if d.kind.mayRepeat && c.kind.isRepeatable then
          if d.kind = .functionDeclaration then
            .ok (b, t.modifyBinding b fun c => { c with kind := d.kind })
          else .ok (b, t)
        else .error (.duplicateBinding d.name s) := by
      rw [declare, hs]
      dsimp only
      rw [hlookup]
      dsimp only
      rw [hc]
    have hfits := h.compatible.fits_iff hd he hname
    rw [← hkind] at hfits
    by_cases hrepeat : d.kind.mayRepeat = true ∧ c.kind.isRepeatable = true
    · rw [if_pos (Bool.and_eq_true_iff.2 hrepeat)] at hdeclare
      refine .inl ?_
      split at hdeclare
      · next hfunction =>
        exact htaken hdeclare (h.holds.modifyBinding hlookup hc (.inr ⟨hrepeat.2, hfunction⟩))
          (hfits.2 hrepeat)
      · next hother =>
        have hshows := BindingKind.showsAs_of_repeats hrepeat.1 hrepeat.2 hother
        exact htaken hdeclare (h.holds.repeated ⟨b, c, hlookup, hc, hshows⟩) (hfits.2 hrepeat)
    · rw [if_neg fun hb => hrepeat (Bool.and_eq_true_iff.1 hb)] at hdeclare
      exact .inr ⟨fun hcompatible => hrepeat
        (hfits.1 (compatible_append_singleton.1 hcompatible).2), hdeclare⟩

end ScopeTree
end ClosureCache
