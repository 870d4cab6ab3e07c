/-
Capture analysis is exact.

For every definition of a program that resolves, what analysis says is told from the text
of the program alone: which binding it refuses, or which captures the spec lists, in
which order and in which mode.  Places in the text and their order are those of `Code`.
-/
import ClosureCache.Proofs.Capture
import ClosureCache.Proofs.Program.Occurrences
import ClosureCache.Proofs.Program.Settled

namespace ClosureCache

/-! ## Scopes inside a scope -/

inductive ScopeTree.Inside (t : ScopeTree) (own : ScopeId) : ScopeId → Prop
  | self : Inside t own own
  | nested {s p : ScopeId} {sc : Scope} : t.scope? s = some sc → sc.parent = some p →
    Inside t own p → Inside t own s

theorem ScopeTree.Proper.inside_iff {t : ScopeTree} (ht : t.Proper) {own s : ScopeId} {sc : Scope}
    (hs : t.scope? s = some sc) : t.Inside own s ↔ own ∈ t.outward s := by
  refine ⟨fun h => ?_, ht.outward_induction (P := fun s => own ∈ t.outward s → t.Inside own s)
    (fun s sc hs ih hin => ?_) hs⟩
  · clear hs
    induction h with
    | self => exact t.self_mem_outward own
    | nested hs hp _ ih => exact ht.mem_outward_of_parent hs hp ih
  · rcases (ht.mem_outward hs).1 hin with rfl | ⟨p, hp, hin⟩
    · exact .self
    · exact .nested hs hp (ih p hp hin)

/-- The scope of a binding is outside of a scope. -/
theorem ScopeTree.Proper.isWithin_eq_false {t : ScopeTree} (ht : t.Proper) {own : ScopeId}
    {b : BindingId} {d : Binding} (hd : t.binding? b = some d) :
    t.isWithin d.scope own = false ↔ ¬ t.Inside own d.scope := by
  obtain ⟨-, sc, hsc, -⟩ := ht.placed b d hd
  rw [ht.inside_iff hsc, ← ScopeTree.isWithin_iff, Bool.not_eq_true]

/-! ## First uses -/

theorem Reference.eq_binding {r : Reference} {b : BindingId} (h : r.binding? = some b) :
    r = .binding b := by
  cases r with
  | binding x => exact congrArg _ (Option.some.inj h)
  | _ => cases h

/-- Of the members of a list without repetitions, an earlier one stands before every
place of a later one. -/
theorem List.pairwise_eraseDups {α : Type} [BEq α] [LawfulBEq α] (l : List α) :
    l.eraseDups.Pairwise fun a b => ∃ l₁ l₂, l = l₁ ++ a :: l₂ ∧ a ∉ l₁ ∧ b ∉ l₁ ∧ b ≠ a := by
  match l with
  | [] => exact .nil
  | a :: rest =>
    have hother : ∀ b ∈ (rest.filter fun b => !b == a).eraseDups, b ≠ a := fun b hb => by
      simpa using (List.mem_filter.1 (List.mem_eraseDups.1 hb)).2
    rw [List.eraseDups_cons]
    refine .cons (fun b hb => ⟨[], rest, rfl, List.not_mem_nil, List.not_mem_nil, hother b hb⟩)
      ((pairwise_eraseDups _).imp_of_mem fun {x y} hx hy h => ?_)
    -- what stands before the first `x` of the filtered list stands there in the whole list
    obtain ⟨l₁, l₂, hsplit, hx₁, hy₁, hne⟩ := h
    obtain ⟨m₁, m₂, hrest, hm₁, hm₂⟩ := List.filter_eq_append_iff.1 hsplit
    obtain ⟨k₁, k₂, rfl, hk₁, -, -⟩ := List.filter_eq_cons_iff.1 hm₂
    have hbefore : ∀ z, z ≠ a → z ∉ l₁ → z ∉ a :: (m₁ ++ k₁) := by
      intro z hz hz₁ hmem
      rcases List.mem_cons.1 hmem with rfl | hmem
      · exact hz rfl
      · rcases List.mem_append.1 hmem with hmem | hmem
        · exact hz₁ (hm₁ ▸ List.mem_filter.2 ⟨hmem, by simpa using hz⟩)
        · exact hk₁ z hmem (by simpa using hz)
    refine ⟨a :: (m₁ ++ k₁), k₂, ?_, hbefore x (hother x hx) hx₁, hbefore y (hother y hy) hy₁,
      hne⟩
    rw [hrest, List.cons_append, List.append_assoc]
termination_by l.length
decreasing_by exact Nat.lt_succ_of_le (List.length_filter_le _ _)

/-- The bindings that a piece of code refers to, without repetitions, are in the order of
their first places. -/
theorem Code.Enumerated.pairwise_first {c : Code} {refs : List Reference}
    (h : c.Enumerated refs) :
    ((refs.filterMap Reference.binding?).eraseDups).Pairwise fun b b' => ∃ path path',
      c.First path (.binding b) ∧ c.First path' (.binding b') ∧ path < path' := by
  refine (List.pairwise_eraseDups _).imp_of_mem fun {b b'} _ hmem' hearlier => ?_
  obtain ⟨l₁, l₂, hsplit, hb, hb', hne⟩ := hearlier
  obtain ⟨m₁, m₂, hrefs, hm₁, hm₂⟩ := List.filterMap_eq_append_iff.1 hsplit
  obtain ⟨k₁, r, k₂, rfl, hk₁, hr, -⟩ := List.filterMap_eq_cons_iff.1 hm₂
  obtain rfl := Reference.eq_binding hr
  have hbefore : ∀ x, x ∉ l₁ → Reference.binding x ∉ m₁ ++ k₁ := by
    intro x hx hin
    rcases List.mem_append.1 hin with hin | hin
    · exact hx (hm₁ ▸ List.mem_filterMap.2 ⟨_, hin, rfl⟩)
    · cases hk₁ _ hin
  obtain ⟨path', hfirst'⟩ := h.exists_first (mem_bindings.1 hmem')
  rw [hrefs, ← List.append_assoc] at h
  obtain ⟨path, hfirst, hlater⟩ := h.first_of_split (hbefore b hb)
  exact ⟨path, path', hfirst, hfirst', hlater _ (hbefore b' hb')
    (fun heq => hne (Reference.binding.inj heq)) path' hfirst'.occurs⟩

/-! ## Captures of bindings -/

/-- The capture of a binding that may be captured. -/
def Capture.ofBinding (b : BindingId) (d : Binding) : Capture :=
  ⟨some b, d.name, if d.storage = .cell then .cell else .value, d.scope⟩

/-- A binding from outside of the scope `own` that may be overwritten in its slot. -/
structure Refused (t : ScopeTree) (own : ScopeId) (b : BindingId) (d : Binding) : Prop where
  declared : t.binding? b = some d
  outside : t.isWithin d.scope own = false
  storage : d.storage = .slot
  «mutable» : d.mutable = true

section Captures

variable {t : ScopeTree} {site : SiteId} {own : ScopeId} {b : BindingId} {d : Binding}

/-- The capture of a binding, if it is declared outside of the scope `own`. -/
def outerCapture? (t : ScopeTree) (own : ScopeId) (b : BindingId) : Option Capture :=
  (t.binding? b).bind fun d => if t.isWithin d.scope own then none else some (.ofBinding b d)

theorem captureOf?_of_refused (h : Refused t own b d) :
    captureOf? t site own b = .error (.mutableCapture site d.name b) := by
  rw [captureOf?, ScopeTree.binding_eq_ok.2 h.declared]
  simp [h.outside, h.storage, h.mutable]

theorem captureOf?_of_not_refused (hd : t.binding? b = some d) (h : ¬ Refused t own b d) :
    captureOf? t site own b = .ok (outerCapture? t own b) := by
  rw [captureOf?, ScopeTree.binding_eq_ok.2 hd, outerCapture?, hd, Option.bind_some]
  dsimp only
  split
  · rfl
  · next hout =>
    cases hstorage : d.storage with
    | cell => simp [Capture.ofBinding, hstorage]
    | slot =>
      have hfinal : d.mutable = false := by
        refine Bool.eq_false_iff.2 fun hmutable => h ⟨hd, ?_, hstorage, hmutable⟩
        simpa using hout
      simp [Capture.ofBinding, hstorage, hfinal]

/-- Either one of the bindings is refused, and the first such one is the error, or all
from outside are captured. -/
theorem capturesOf_exact (site : SiteId) (own : ScopeId) {bs : List BindingId}
    (hbs : ∀ b ∈ bs, ∃ d, t.binding? b = some d) :
    (∃ l₁ b l₂ d, bs = l₁ ++ b :: l₂ ∧ (∀ b' ∈ l₁, ∀ d', ¬ Refused t own b' d') ∧
      Refused t own b d ∧ capturesOf t site own bs = .error (.mutableCapture site d.name b)) ∨
    ((∀ b ∈ bs, ∀ d, ¬ Refused t own b d) ∧
      capturesOf t site own bs = .ok (bs.filterMap (outerCapture? t own))) := by
  induction bs with
  | nil => exact .inr ⟨fun _ hb => absurd hb List.not_mem_nil, rfl⟩
  | cons b rest ih =>
    obtain ⟨d, hd⟩ := hbs b List.mem_cons_self
    have huniq : ∀ d', Refused t own b d' → d' = d := fun d' h =>
      Option.some.inj (h.declared.symm.trans hd)
    rw [capturesOf]
    by_cases hrefused : Refused t own b d
    · refine .inl ⟨[], b, rest, d, rfl, fun _ hb => absurd hb List.not_mem_nil, hrefused, ?_⟩
      rw [captureOf?_of_refused hrefused]
      rfl
    · rw [captureOf?_of_not_refused hd hrefused]
      rcases ih fun b hb => hbs b (List.mem_cons_of_mem _ hb) with
        ⟨l₁, b', l₂, d', rfl, hl₁, hbad, herror⟩ | ⟨hgood, hok⟩
      · refine .inl ⟨b :: l₁, b', l₂, d', rfl, fun x hx => ?_, hbad, ?_⟩
        · rcases List.mem_cons.1 hx with rfl | hx
          · exact fun d' h => hrefused (huniq d' h ▸ h)
          · exact hl₁ x hx
        · rw [herror]
          rfl
      · refine .inr ⟨fun x hx => ?_, ?_⟩
        · rcases List.mem_cons.1 hx with rfl | hx
          · exact fun d' h => hrefused (huniq d' h ▸ h)
          · exact hgood x hx
        · rw [hok]
          show Except.ok _ = _
          rw [List.filterMap_cons]
          cases outerCapture? t own b with
          | none => rfl
          | some c => rfl

end Captures

/-! ## Specs -/

/-- A binding that is declared as `d` outside of the scope `own` is referred to at a
place. -/
structure Code.RefersOut (c : Code) (t : ScopeTree) (own : ScopeId) (path : List Nat)
    (b : BindingId) (d : Binding) : Prop where
  occurs : c.Occurs path (.binding b)
  declared : t.binding? b = some d
  outside : ¬ t.Inside own d.scope

/-- A binding that may be overwritten in its slot is referred to at a place outside of the
scope `own` that declares it. -/
structure Code.Refuses (c : Code) (t : ScopeTree) (own : ScopeId) (path : List Nat)
    (b : BindingId) (d : Binding) : Prop extends c.RefersOut t own path b d where
  storage : d.storage = .slot
  «mutable» : d.mutable = true

/-- The supplier of a `this` at a place is outside of the scope `own`. -/
structure Code.TakesThis (c : Code) (t : ScopeTree) (own : ScopeId) (path : List Nat)
    (p : ScopeId) : Prop where
  occurs : c.Occurs path (.this p)
  outside : ¬ t.Inside own p

/-- The binding of a capture is first referred to before that of another one. -/
def Code.Precedes (c : Code) (x y : Capture) : Prop :=
  ∃ b b' path path', x.binding = some b ∧ y.binding = some b' ∧ c.First path (.binding b) ∧
    c.First path' (.binding b') ∧ path < path'

theorem Code.Precedes.binding_ne {c : Code} {x y : Capture} (h : c.Precedes x y) :
    x.binding ≠ y.binding := by
  obtain ⟨b, b', path, path', hb, hb', hfirst, hfirst', hlt⟩ := h
  intro heq
  rw [hb, hb'] at heq
  obtain rfl := Option.some.inj heq
  exact not_lt_of_ge (hfirst'.least path hfirst.occurs) hlt

/-- The captures of a definition with the scope `own`: those of bindings, and that of
`this` if there is one. -/
structure FunctionNode.Captures (t : ScopeTree) (own : ScopeId) (f : FunctionNode)
    (bindings : List Capture) (this : Option Capture) : Prop where
  mem_iff : ∀ c, c ∈ bindings ↔
    ∃ path b d, (Code.definition f).RefersOut t own path b d ∧ c = .ofBinding b d
  once : (bindings.map Capture.binding).Nodup
  ordered : bindings.Pairwise (Code.definition f).Precedes
  this_iff : this.isSome = true ↔
    f.kind = .arrow ∧ ∃ path p, (Code.definition f).TakesThis t own path p
  this_eq : ∀ c, this = some c → ∃ p, c = ⟨none, "this", .thisValue, p⟩ ∧
    ∀ path q, (Code.definition f).TakesThis t own path q → q = p

namespace FunctionNode

variable {t : ScopeTree} {own : ScopeId} {P : BindingId → Prop} {f : FunctionNode}

/-- The supplier of a `this` is a scope of the tree. -/
theorem Settled.inside_supplier (hf : f.Settled P t own) (ht : t.Proper) {p : ScopeId}
    (hp : .this p ∈ f.references) : t.Inside own p ↔ own ∈ t.outward p := by
  obtain ⟨a, sca, -, -, hn⟩ := hf.references _ hp
  obtain ⟨sc, hsc, -⟩ := hn.passes
  exact ht.inside_iff hsc

/-- A `this` from outside has the supplier that is nearest to the definition, which is an
arrow. -/
theorem Settled.nearest_supplier (hf : f.Settled P t own) (ht : t.Proper) {p : ScopeId}
    (hp : .this p ∈ f.references) (hout : own ∉ t.outward p) :
    t.Nearest Scope.providesThis own p ∧ f.isArrow = true := by
  have hnearest := (hf.references _ hp).nearest ht hout
  refine ⟨hnearest, ?_⟩
  obtain ⟨sc, hown, hkind, harrow⟩ := hf.opened
  cases ha : f.isArrow with
  | true => rfl
  | false =>
    have hprovides : sc.providesThis = true := by rw [Scope.providesThis, hkind, harrow, ha]; rfl
    obtain rfl := hnearest.unique (.here hown hprovides)
    exact absurd (t.self_mem_outward p) hout

theorem outerCapture?_eq_some (ht : t.Proper) {b : BindingId} {c : Capture} :
    outerCapture? t own b = some c ↔
      ∃ d, t.binding? b = some d ∧ ¬ t.Inside own d.scope ∧ c = .ofBinding b d := by
  rw [outerCapture?, Option.bind_eq_some_iff]
  refine exists_congr fun d => and_congr_right fun hd => ?_
  rw [← ht.isWithin_eq_false hd]
  cases t.isWithin d.scope own with
  | true => simp
  | false => simp [eq_comm]

/-- What `specOf` lists where nothing is refused. -/
theorem Settled.captures (hf : f.Settled P t own) (ht : t.Proper) : f.Captures t own
    (((f.references.filterMap Reference.binding?).eraseDups).filterMap (outerCapture? t own))
    (if f.isArrow then
      thisCapture t own (f.references.filterMap Reference.provider?) else none) := by
  have hplaces := Code.enumerated_definition f
  have hordered : ((f.references.filterMap Reference.binding?).eraseDups.filterMap
      (outerCapture? t own)).Pairwise (Code.definition f).Precedes := by
    refine List.pairwise_filterMap.2 (hplaces.pairwise_first.imp ?_)
    rintro b b' ⟨path, path', h⟩ c hc c' hc'
    obtain ⟨d, -, -, rfl⟩ := (outerCapture?_eq_some ht).1 hc
    obtain ⟨d', -, -, rfl⟩ := (outerCapture?_eq_some ht).1 hc'
    exact ⟨b, b', path, path', rfl, rfl, h⟩
  have htakes : ∀ p, (∃ path, (Code.definition f).TakesThis t own path p) ↔
      .this p ∈ f.references ∧ t.isWithin p own = false := by
    intro p
    rw [hplaces.mem_iff, ← Bool.not_eq_true, ScopeTree.isWithin_iff]
    constructor
    · rintro ⟨path, hocc, hout⟩
      exact ⟨⟨path, hocc⟩, fun hin =>
        hout ((hf.inside_supplier ht (hplaces.mem_iff.2 ⟨path, hocc⟩)).2 hin)⟩
    · rintro ⟨⟨path, hocc⟩, hout⟩
      exact ⟨path, hocc, fun hin =>
        hout ((hf.inside_supplier ht (hplaces.mem_iff.2 ⟨path, hocc⟩)).1 hin)⟩
  refine ⟨fun c => ?_, List.pairwise_map.2 (hordered.imp Code.Precedes.binding_ne), hordered, ?_,
    fun c hc => ?_⟩
  · rw [List.mem_filterMap]
    constructor
    · rintro ⟨b, hb, hc⟩
      obtain ⟨path, hocc⟩ := hplaces.mem_iff.1 (mem_bindings.1 hb)
      obtain ⟨d, hd, hout, rfl⟩ := (outerCapture?_eq_some ht).1 hc
      exact ⟨path, b, d, ⟨hocc, hd, hout⟩, rfl⟩
    · rintro ⟨path, b, d, hrefers, rfl⟩
      exact ⟨b, mem_bindings.2 (hplaces.mem_iff.2 ⟨path, hrefers.occurs⟩),
        (outerCapture?_eq_some ht).2 ⟨d, hrefers.declared, hrefers.outside, rfl⟩⟩
  · have hkind : f.kind = .arrow ↔ f.isArrow = true := beq_iff_eq.symm
    rw [hkind]
    cases f.isArrow with
    | false => simp
    | true =>
      rw [if_pos rfl, thisCapture, Option.isSome_map, List.find?_isSome, exists_comm]
      simp only [htakes, true_and]
      refine exists_congr fun p => and_congr mem_providers ?_
      rw [Bool.not_eq_true']
  · split at hc
    · obtain ⟨p, hp, rfl⟩ := Option.map_eq_some_iff.1 hc
      refine ⟨p, rfl, fun path q hq => ?_⟩
      have hout := List.find?_some hp
      have hnearest := hf.nearest_supplier ht (mem_providers.1 (List.mem_of_find?_eq_some hp))
        fun hin => by simp [ScopeTree.isWithin_iff.2 hin] at hout
      obtain ⟨hmem, hq⟩ := (htakes q).1 ⟨path, hq⟩
      have hnearest' := hf.nearest_supplier ht hmem fun hin => by
        simp [ScopeTree.isWithin_iff.2 hin] at hq
      exact hnearest'.1.unique hnearest.1
    · cases hc

/-- Analysis of a shared definition without dynamic code either refuses the binding that
stands first among those which may be overwritten, or gives the captures. -/
theorem Settled.analyzeSite (hf : f.Settled P t own) (ht : t.Proper) {site : SiteId}
    (hsite : f.site = some site) (hmemoized : f.memoized = true)
    (hstatic : .dynamic ∉ f.references) :
    (∃ path b d, (Code.definition f).Refuses t own path b d ∧
      (∀ path' b' d', (Code.definition f).Refuses t own path' b' d' → path ≤ path') ∧
      ClosureCache.analyzeSite t f = .error (.mutableCapture site d.name b)) ∨
    ((∀ path b d, ¬ (Code.definition f).Refuses t own path b d) ∧
      ∃ bindings this, f.Captures t own bindings this ∧
        ClosureCache.analyzeSite t f = .ok (.memoized ⟨site, bindings ++ this.toList⟩)) := by
  have hplaces := Code.enumerated_definition f
  have hrefused : ∀ b d, (∃ path, (Code.definition f).Refuses t own path b d) ↔
      b ∈ (f.references.filterMap Reference.binding?).eraseDups ∧ Refused t own b d := by
    intro b d
    rw [mem_bindings, hplaces.mem_iff]
    constructor
    · rintro ⟨path, ⟨hocc, hd, hout⟩, hstorage, hmutable⟩
      exact ⟨⟨path, hocc⟩, hd, (ht.isWithin_eq_false hd).2 hout, hstorage, hmutable⟩
    · rintro ⟨⟨path, hocc⟩, hd, hout, hstorage, hmutable⟩
      exact ⟨path, ⟨hocc, hd, (ht.isWithin_eq_false hd).1 hout⟩, hstorage, hmutable⟩
  have hdeclared : ∀ b ∈ (f.references.filterMap Reference.binding?).eraseDups,
      ∃ d, t.binding? b = some d := by
    intro b hb
    obtain ⟨a, sc, -, -, d, hd, -⟩ := hf.references _ (mem_bindings.1 hb)
    exact ⟨d, hd⟩
  have hanalyze : ClosureCache.analyzeSite t f =
      (specOf t site own f.isArrow f.references).map .memoized := by
    rw [ClosureCache.analyzeSite, hsite, hf.scope]
    simp [hmemoized, hstatic]
  rw [hanalyze, specOf]
  rcases capturesOf_exact site own hdeclared with
    ⟨l₁, b, l₂, d, hsplit, hl₁, hbad, herror⟩ | ⟨hgood, hok⟩
  · left
    have hmem : b ∈ (f.references.filterMap Reference.binding?).eraseDups :=
      hsplit ▸ List.mem_append_right _ List.mem_cons_self
    obtain ⟨path, hfirst⟩ := hplaces.exists_first (mem_bindings.1 hmem)
    refine ⟨path, b, d, ⟨⟨hfirst.occurs, hbad.declared, (ht.isWithin_eq_false hbad.declared).1
      hbad.outside⟩, hbad.storage, hbad.mutable⟩, fun path' b' d' hb' => ?_, ?_⟩
    · -- a refused binding is not in the first part of the list, so it is this one or later
      obtain ⟨hmem', hbad'⟩ := (hrefused b' d').1 ⟨path', hb'⟩
      rw [hsplit] at hmem'
      rcases List.mem_append.1 hmem' with hin | hin
      · exact absurd hbad' (hl₁ b' hin d')
      · rcases List.mem_cons.1 hin with rfl | hin
        · exact hfirst.least path' hb'.occurs
        · have hpairwise := hplaces.pairwise_first
          rw [hsplit] at hpairwise
          obtain ⟨x, x', hx, hx', hlt⟩ :=
            (List.pairwise_cons.1 (List.pairwise_append.1 hpairwise).2.1).1 b' hin
          calc path
            _ ≤ x := hfirst.least x hx.occurs
            _ ≤ x' := le_of_lt hlt
            _ ≤ path' := hx'.least path' hb'.occurs
    · rw [herror]
      rfl
  · right
    refine ⟨fun path b d hb => ?_, _, _, hf.captures ht, ?_⟩
    · obtain ⟨hmem, hbad⟩ := (hrefused b d).1 ⟨path, hb⟩
      exact hgood b hmem d hbad
    · rw [hok]
      rfl

end FunctionNode

/-- For every definition that is shared and has no dynamic code: if it refers to a binding
from outside that may be overwritten in its slot, analysis fails with the binding that
stands first among those; otherwise it gives a spec with the captures that the text
says. -/
theorem Program.analyzeSite_exact {p : Program} {r : ResolvedProgram} (h : p.resolve = .ok r)
    {f : FunctionNode} (hf : f ∈ r.program.functions) (hmemoized : f.memoized = true)
    (hstatic : ∀ path, ¬ (Code.definition f).Occurs path .dynamic) :
    ∃ site own, f.site = some site ∧ f.scope = some own ∧
      ((∃ path b d, (Code.definition f).Refuses r.tree own path b d) →
        ∃ path b d, (Code.definition f).Refuses r.tree own path b d ∧
          (∀ path' b' d', (Code.definition f).Refuses r.tree own path' b' d' → path ≤ path') ∧
          analyzeSite r.tree f = .error (.mutableCapture site d.name b)) ∧
      ((∀ path b d, ¬ (Code.definition f).Refuses r.tree own path b d) →
        ∃ bindings this, f.Captures r.tree own bindings this ∧
          analyzeSite r.tree f = .ok (.memoized ⟨site, bindings ++ this.toList⟩)) := by
  have hsettled := Program.settled_of_resolve (P := fun _ => True) h fun _ _ _ _ => trivial
  obtain ⟨own, hf⟩ := hsettled.functions f hf
  obtain ⟨site, hsite⟩ := Option.isSome_iff_exists.1 hf.site
  have hreferences : .dynamic ∉ f.references := fun hin => by
    obtain ⟨path, hocc⟩ := (Code.enumerated_definition f).mem_iff.1 hin
    exact hstatic path hocc
  refine ⟨site, own, hsite, hf.scope, ?_⟩
  rcases hf.analyzeSite hsettled.proper hsite hmemoized hreferences with hbad | ⟨hnone, hgood⟩
  · obtain ⟨path, b, d, hrefuses, -⟩ := id hbad
    exact ⟨fun _ => hbad, fun hnone => absurd hrefuses (hnone path b d)⟩
  · exact ⟨fun ⟨path, b, d, hrefuses⟩ => absurd hrefuses (hnone path b d), fun _ => hgood⟩

/-- A function that gives a shared arrow over a constant, a cell and its `this`. -/
def counting : Program where
  body :=
    let name (s : String) : Identifier := ⟨s, .unresolved⟩
    let span : SourceSpan := ⟨0, 0, 0, 0, 0, 0⟩
    let arrow : FunctionNode := ⟨none, .arrow, .plain, true, [], none,
      [.expression (.assign (name "count")
          (.binary .add (.identifier (name "step")) (.identifier (name "count")))),
        .returning (some (.this none))],
      span, none, none, none⟩
    [.function ⟨some (name "counter"), .declaration, .plain, false, [name "from"], none,
      [.declaration .letDeclaration (name "count") (some (.identifier (name "from"))) .cell,
        .declaration .constDeclaration (name "step") (some (.literal (.number 1))) .slot,
        .returning (some (.function arrow))],
      span, none, none, none⟩]

theorem isSome_resolve_counting : counting.resolve.toOption.isSome = true := by
  decide +kernel

def countingResolved : ResolvedProgram := counting.resolve.toOption.get isSome_resolve_counting

def countingArrow : FunctionNode :=
  countingResolved.program.functions.get ⟨1, by decide +kernel⟩

/-- The captures of the arrow are in the order of first use, `this` last. -/
theorem analyzeSite_countingArrow : ∃ own bindings this, counting.resolve = .ok countingResolved ∧
    countingArrow ∈ countingResolved.program.functions ∧ countingArrow.memoized = true ∧
    countingArrow.Captures countingResolved.tree own bindings this ∧
    (bindings ++ this.toList).map (fun c => (c.name, c.mode)) =
      [("step", .value), ("count", .cell), ("this", .thisValue)] := by
  have hresolve : counting.resolve = .ok countingResolved :=
    Except.eq_ok_get isSome_resolve_counting
  have hmem : countingArrow ∈ countingResolved.program.functions := List.getElem_mem _
  have hmemoized : countingArrow.memoized = true := by decide +kernel
  have hstatic : Reference.dynamic ∉ countingArrow.references := by decide +kernel
  obtain ⟨site, own, -, -, hrefuses, hcaptures⟩ := Program.analyzeSite_exact hresolve hmem hmemoized
    fun path hocc => hstatic ((Code.enumerated_definition _).mem_iff.2 ⟨path, hocc⟩)
  have hanalysis : ((analyzeSite countingResolved.tree countingArrow).toOption.bind
      SiteAnalysis.spec?).map (fun spec => spec.captures.map fun c => (c.name, c.mode)) =
        some [("step", .value), ("count", .cell), ("this", .thisValue)] := by
    decide +kernel
  obtain ⟨bindings, this, hc, hok⟩ := hcaptures fun path b d hb => by
    obtain ⟨_, _, _, -, -, herror⟩ := hrefuses ⟨path, b, d, hb⟩
    rw [herror] at hanalysis
    cases hanalysis
  rw [hok] at hanalysis
  exact ⟨own, bindings, this, hresolve, hmem, hmemoized, hc, Option.some.inj hanalysis⟩

end ClosureCache
