/-
The specs of a loaded program.

Whatever stands in the analysis table came from a definition of the program, so every
spec is `Regular`: it takes a binding by its cell if the binding has one and by its value
otherwise, in which case no assignment ever writes the binding, and it takes at most one
`this`.
-/
import ClosureCache.Proofs.Capture.Exact

namespace ClosureCache

/-- How a spec takes what it captures. -/
structure CaptureSpec.Regular (t : ScopeTree) (spec : CaptureSpec) : Prop where
  takes : ∀ c ∈ spec.captures, ∀ b, c.binding = some b →
    ∃ d, t.binding? b = some d ∧ c.Takes b d
  this : ∀ c ∈ spec.captures, c.binding = none → c.mode = .thisValue
  this_unique : ∀ c ∈ spec.captures, ∀ c' ∈ spec.captures, c.binding = none →
    c'.binding = none → c = c'

theorem Capture.ofBinding_takes {b : BindingId} {d : Binding}
    (hd : d.storage = .slot → d.mutable = false) : (Capture.ofBinding b d).Takes b d := by
  cases hstorage : d.storage with
  | cell => exact .cell rfl hstorage (by simp [ofBinding, hstorage])
  | slot => exact .value rfl hstorage (by simp [ofBinding, hstorage]) (hd hstorage)

namespace FunctionNode

variable {t : ScopeTree} {own : ScopeId} {P : BindingId → Prop} {f : FunctionNode}

/-- Analysis shares a definition only if it is marked and its text is known. -/
theorem of_analyzeSite {spec : CaptureSpec} (h : analyzeSite t f = .ok (.memoized spec)) :
    f.memoized = true ∧ .dynamic ∉ f.references := by
  rw [analyzeSite] at h
  split at h
  · split at h
    · cases h
    · next hmemoized =>
      dsimp only at h
      split at h
      · cases h
      · next hstatic => exact ⟨by simpa using hmemoized, by simpa using hstatic⟩
  · cases h

/-- A capture is that of a binding from outside or that of `this`. -/
theorem Captures.mem_cases {bindings : List Capture} {this : Option Capture}
    (hf : f.Captures t own bindings this) {c : Capture} (hc : c ∈ bindings ++ this.toList) :
    (∃ path b d, (Code.definition f).RefersOut t own path b d ∧ c = .ofBinding b d) ∨
      this = some c :=
  (List.mem_append.1 hc).imp (hf.mem_iff c).1 Option.mem_toList.1

/-- A definition that analysis shares refers to nothing that it would refuse, and its spec
lists its captures. -/
theorem Settled.captures_of_memoized (hf : f.Settled P t own) (ht : t.Proper) {spec : CaptureSpec}
    (h : ClosureCache.analyzeSite t f = .ok (.memoized spec)) :
    (∀ path b d, ¬ (Code.definition f).Refuses t own path b d) ∧
      ∃ bindings this, f.Captures t own bindings this ∧
        spec.captures = bindings ++ this.toList := by
  obtain ⟨hmemoized, hstatic⟩ := of_analyzeSite h
  obtain ⟨site, hsite⟩ := Option.isSome_iff_exists.1 hf.site
  rcases hf.analyzeSite ht hsite hmemoized hstatic with ⟨_, _, _, _, _, herror⟩ |
    ⟨hrefuses, bindings, this, hcaptures, hok⟩
  · rw [herror] at h
    cases h
  · rw [hok] at h
    obtain rfl := SiteAnalysis.memoized.inj (Except.ok.inj h)
    exact ⟨hrefuses, bindings, this, hcaptures, rfl⟩

theorem Settled.regular (hf : f.Settled P t own) (ht : t.Proper) {spec : CaptureSpec}
    (h : ClosureCache.analyzeSite t f = .ok (.memoized spec)) : spec.Regular t := by
  obtain ⟨hrefuses, bindings, this, hcaptures, hspec⟩ := hf.captures_of_memoized ht h
  have hmem := fun c (hc : c ∈ spec.captures) => hcaptures.mem_cases (hspec ▸ hc)
  have hnone : ∀ c ∈ spec.captures, c.binding = none → this = some c := by
    intro c hc hb
    refine (hmem c hc).resolve_left ?_
    rintro ⟨_, b, d, -, rfl⟩
    cases hb
  refine ⟨fun c hc b hb => ?_, fun c hc hb => ?_, fun c hc c' hc' hb hb' => ?_⟩
  · rcases hmem c hc with ⟨path, b', d, hout, rfl⟩ | hc
    · obtain rfl := Option.some.inj hb
      refine ⟨d, hout.declared, Capture.ofBinding_takes fun hstorage => ?_⟩
      exact Bool.eq_false_iff.2 fun hmutable => hrefuses path b' d ⟨hout, hstorage, hmutable⟩
    · obtain ⟨p, rfl, -⟩ := hcaptures.this_eq c hc
      cases hb
  · obtain ⟨p, rfl, -⟩ := hcaptures.this_eq c (hnone c hc hb)
    rfl
  · exact Option.some.inj ((hnone c hc hb).symm.trans (hnone c' hc' hb'))

end FunctionNode

/-- What stands in the table of an analysis came from a definition, if it did not stand
there before. -/
theorem analyzeSites_origin {t : ScopeTree} {l : List FunctionNode} {table table' : AnalysisTable}
    {errors errors' : List AnalysisError}
    (h : analyzeSites t l (table, errors) = (table', errors')) {site : SiteId} {a : SiteAnalysis}
    (ha : table'.get? site = some a) :
    (∃ f ∈ l, analyzeSite t f = .ok a) ∨ table.get? site = some a := by
  induction l generalizing table errors with
  | nil =>
    obtain ⟨rfl, -⟩ := Prod.mk.inj h
    exact .inr ha
  | cons f rest ih =>
    have hrest : ∀ {table₁ errors₁}, analyzeSites t rest (table₁, errors₁) = (table', errors') →
        (∃ g ∈ f :: rest, analyzeSite t g = .ok a) ∨ table₁.get? site = some a := fun h =>
      (ih h).imp (fun ⟨g, hg, hga⟩ => ⟨g, List.mem_cons_of_mem _ hg, hga⟩) id
    rw [analyzeSites] at h
    cases hf : analyzeSite t f with
    | error e =>
      rw [hf] at h
      exact hrest h
    | ok a₁ =>
      rw [hf] at h
      dsimp only at h
      split at h
      · refine (hrest h).elim .inl fun hget => ?_
        rcases SortedMap.get?_insert_cases hget with ⟨-, rfl⟩ | hget
        · exact .inl ⟨f, List.mem_cons_self, hf⟩
        · exact .inr hget
      · exact hrest h

/-- Every spec of a program that resolves is regular. -/
theorem ResolvedProgram.Settled.regular {P : BindingId → Prop} {r : ResolvedProgram}
    (hr : r.Settled P) {table : AnalysisTable} (h : r.analyze = .ok table) {site : SiteId}
    {spec : CaptureSpec} (hget : table.get? site = some (.memoized spec)) :
    spec.Regular r.tree := by
  rw [analyze] at h
  split at h
  · next hrun =>
    obtain rfl := Except.ok.inj h
    rcases analyzeSites_origin hrun hget with ⟨f, hf, ha⟩ | hempty
    · obtain ⟨own, hsettled⟩ := hr.functions f hf
      exact hsettled.regular hr.proper ha
    · cases hempty
  · cases h

end ClosureCache
