/-
The analysis of a whole program.

Analysis goes through all definitions and stops at none.  Of a program that resolves it
either has an entry for every definition and no other, or it reports the definitions that
cannot be shared: one error for each, in the order of their sites.  The annotations that
analysis reads are those of the scope tree, so nothing but a refused capture is reported.
-/
import Mathlib.Data.List.Sort
import ClosureCache.Proofs.Capture.Exact
import ClosureCache.Proofs.Evaluation.Image
import ClosureCache.Proofs.Program.Sites

namespace ClosureCache

/-! ## The order of sites -/

/-- The keys of a map by site are in the order of their numbers. -/
theorem SortedMap.keys_increasing {α : Type} (m : SortedMap SiteId α) :
    (m.keys.map SiteId.index).Pairwise (· < ·) := by
  rw [keys, List.pairwise_map, List.pairwise_map]
  exact m.sorted.imp fun h => Nat.compare_eq_lt.1 h

/-- A map by site that has the first `n` sites and no others has them for its keys. -/
theorem SortedMap.keys_eq_range {α : Type} {m : SortedMap SiteId α} {n : Nat}
    (h : ∀ i, (m.get? ⟨i⟩).isSome = true ↔ i < n) : m.keys = (List.range n).map SiteId.mk := by
  have hmem : ∀ i, i ∈ m.keys.map SiteId.index ↔ i < n := by
    intro i
    rw [← h, Option.isSome_iff_exists, List.mem_map]
    constructor
    · rintro ⟨site, hsite, rfl⟩
      obtain ⟨⟨k, v⟩, he, rfl⟩ := List.mem_map.1 hsite
      exact ⟨v, mem_toList_iff.1 he⟩
    · rintro ⟨v, hv⟩
      exact ⟨⟨i⟩, List.mem_map.2 ⟨(⟨i⟩, v), mem_toList_iff.2 hv, rfl⟩, rfl⟩
  have hindices : m.keys.map SiteId.index = List.range n :=
    List.Subset.antisymm_of_pairwise m.keys_increasing List.pairwise_lt_range
      (fun i hi => List.mem_range.2 ((hmem i).1 hi)) fun i hi => (hmem i).2 (List.mem_range.1 hi)
  rw [← hindices, List.map_map]
  exact (List.map_id _).symm

/-! ## Failures -/

def AnalysisError.site? : AnalysisError → Option SiteId
  | .mutableCapture site _ _ => some site
  | _ => none

def failing (t : ScopeTree) (l : List FunctionNode) : List FunctionNode :=
  l.filter fun f => (analyzeSite t f).toOption.isNone

/-- Analysis of a definition fails with an error: the definition is shared and has no
dynamic code, and the error is the refusal of a binding that it would capture. -/
structure FunctionNode.FailsWith (t : ScopeTree) (f : FunctionNode) (e : AnalysisError) : Prop where
  fails : analyzeSite t f = .error e
  memoized : f.memoized = true
  static : ∀ path, ¬ (Code.definition f).Occurs path .dynamic
  capture : ∃ site name b, f.site = some site ∧ e = .mutableCapture site name b

section Analysis

variable {t : ScopeTree}

/-- Each failure makes one error, in the order of the definitions. -/
theorem analyzeSites_failing (l : List FunctionNode) (table : AnalysisTable)
    (errors : List AnalysisError) : ∃ new, (analyzeSites t l (table, errors)).2 = errors ++ new ∧
      List.Forall₂ (fun f e => analyzeSite t f = .error e) (failing t l) new := by
  induction l generalizing table errors with
  | nil => exact ⟨[], (List.append_nil _).symm, .nil⟩
  | cons f rest ih =>
    rw [analyzeSites, failing, List.filter_cons]
    cases ha : analyzeSite t f with
    | error e =>
      obtain ⟨new, hnew, hall⟩ := ih table (errors ++ [e])
      exact ⟨e :: new, by rw [hnew, List.append_assoc]; rfl, .cons ha hall⟩
    | ok a => cases f.site with
      | none => exact ih table errors
      | some site => exact ih (table.insert site a) errors

/-- Without failures there is a table, and otherwise a report of them. -/
theorem ResolvedProgram.analyze_cases (r : ResolvedProgram) :
    (∃ table, r.analyze = .ok table ∧ failing r.tree r.program.functions = []) ∨
      ∃ report, r.analyze = .error report ∧ report.errors ≠ [] ∧
        List.Forall₂ (fun f e => analyzeSite r.tree f = .error e)
          (failing r.tree r.program.functions) report.errors := by
  obtain ⟨errors, hnew, hall⟩ := analyzeSites_failing (t := r.tree) r.program.functions ∅ []
  rw [List.nil_append] at hnew
  rw [analyze]
  split
  · next table hrun =>
    rw [hrun] at hnew
    obtain rfl : [] = errors := hnew
    exact .inl ⟨table, rfl, List.forall₂_nil_right_iff.1 hall⟩
  · next errors' hne hrun =>
    rw [hrun] at hnew
    obtain rfl : errors' = errors := hnew
    exact .inr ⟨_, rfl, hne, hall⟩

/-- Of a definition that is settled, the only failure is a refused capture. -/
theorem FunctionNode.Settled.failsWith {P : BindingId → Prop} {own : ScopeId} {f : FunctionNode}
    {e : AnalysisError} (hf : f.Settled P t own) (ht : t.Proper)
    (he : ClosureCache.analyzeSite t f = .error e) : f.FailsWith t e := by
  obtain ⟨site, hsite⟩ := Option.isSome_iff_exists.1 hf.site
  have hmemoized : f.memoized = true := by
    by_contra hnot
    rw [Bool.not_eq_true] at hnot
    simp [ClosureCache.analyzeSite, hsite, hf.scope, hnot] at he
  have hstatic : .dynamic ∉ f.references := by
    intro hin
    simp [ClosureCache.analyzeSite, hsite, hf.scope, hmemoized, hin] at he
  refine ⟨he, hmemoized, fun path hocc => hstatic ?_, ?_⟩
  · exact (Code.enumerated_definition f).mem_iff.2 ⟨path, hocc⟩
  · rcases hf.analyzeSite ht hsite hmemoized hstatic with
      ⟨_, b, d, -, -, herror⟩ | ⟨-, _, _, -, hok⟩
    · rw [he] at herror
      exact ⟨site, d.name, b, hsite, Except.error.inj herror⟩
    · rw [he] at hok
      cases hok

end Analysis

theorem failing_eq_nil {t : ScopeTree} {l : List FunctionNode} :
    failing t l = [] ↔ ∀ f ∈ l, ∃ a, analyzeSite t f = .ok a := by
  rw [failing, List.filter_eq_nil_iff]
  refine forall₂_congr fun f _ => ?_
  cases analyzeSite t f with
  | error e => exact ⟨fun h => absurd rfl h, fun ⟨_, h⟩ => (by cases h)⟩
  | ok a => exact ⟨fun _ => ⟨a, rfl⟩, fun _ h => (by cases h)⟩

/-- Errors are about the sites of the definitions that they come from. -/
theorem sites_eq_of_failsWith {t : ScopeTree} {l : List FunctionNode} {errors : List AnalysisError}
    (h : List.Forall₂ (FunctionNode.FailsWith t) l errors) :
    errors.map AnalysisError.site? = l.map FunctionNode.site := by
  induction h with
  | nil => rfl
  | cons hr _ ih =>
    obtain ⟨site, name, b, hsite, rfl⟩ := hr.capture
    rw [List.map_cons, List.map_cons, ih, hsite, AnalysisError.site?]

/-- The table has entries for the sites of the definitions and for no others. -/
theorem ResolvedProgram.isSome_analyze_iff {r : ResolvedProgram}
    (hr : DistinctSites r.program.functions) {table : AnalysisTable} (h : r.analyze = .ok table)
    (site : SiteId) :
    (table.get? site).isSome = true ↔ ∃ f ∈ r.program.functions, f.site = some site := by
  rw [analyze] at h
  split at h
  · next table' hrun =>
    obtain rfl := Except.ok.inj h
    obtain ⟨hfound, hkeep⟩ := analyzeSites_spec hr hrun
    constructor
    · intro hsome
      by_contra hnone
      rw [hkeep site fun f hf hsite => hnone ⟨f, hf, hsite⟩] at hsome
      cases hsome
    · rintro ⟨f, hf, hsite⟩
      obtain ⟨site', a, hsite', -, hget⟩ := hfound f hf
      obtain rfl := Option.some.inj (hsite.symm.trans hsite')
      rw [hget, Option.isSome_some]
  · cases h

/-! ## Programs -/

/-- Analysis of a program that resolves succeeds just if the analysis of every definition
does, and the table then has one entry for each site and no others.  Otherwise the report
has one error for each definition that fails, a refused capture of a shared definition
without dynamic code, in increasing order of the sites. -/
theorem Program.analyze_reports {p : Program} {r : ResolvedProgram} (h : p.resolve = .ok r) :
    ((∃ table, r.analyze = .ok table) ↔
        ∀ f ∈ r.program.functions, ∃ a, analyzeSite r.tree f = .ok a) ∧
      (∀ table, r.analyze = .ok table →
        table.keys = (List.range r.program.functions.length).map SiteId.mk ∧
          ∀ f ∈ r.program.functions, ∃ site a, f.site = some site ∧
            analyzeSite r.tree f = .ok a ∧ table.get? site = some a) ∧
      ∀ report, r.analyze = .error report → report.errors ≠ [] ∧
        List.Forall₂ (FunctionNode.FailsWith r.tree) (failing r.tree r.program.functions)
          report.errors ∧
        report.errors.Pairwise fun e e' => SiteBefore e.site? e'.site? := by
  have hsettled := Program.settled_of_resolve (P := fun _ => True) h fun _ _ _ _ => trivial
  have hnumbered := Program.numbered_of_resolve h
  rw [← failing_eq_nil]
  rcases r.analyze_cases with ⟨table, htable, hnone⟩ | ⟨report, hreport, hne, hall⟩
  · refine ⟨⟨fun _ => hnone, fun _ => ⟨table, htable⟩⟩, fun table' htable' => ?_,
      fun report hreport => ?_⟩
    · refine ⟨SortedMap.keys_eq_range fun i => ?_,
        ResolvedProgram.analyze_spec hnumbered.distinctSites htable'⟩
      rw [ResolvedProgram.isSome_analyze_iff hnumbered.distinctSites htable',
        hnumbered.exists_site_iff]
    · rw [htable] at hreport
      cases hreport
  · have hsome : failing r.tree r.program.functions ≠ [] := by
      intro hnil
      rw [hnil] at hall
      exact hne (List.forall₂_nil_left_iff.1 hall)
    refine ⟨⟨fun ⟨table, htable⟩ => ?_, fun hnil => absurd hnil hsome⟩, fun table htable => ?_,
      fun report' hreport' => ?_⟩
    · rw [hreport] at htable
      cases htable
    · rw [hreport] at htable
      cases htable
    · obtain rfl := Except.error.inj (hreport.symm.trans hreport')
      have hfails : List.Forall₂ (FunctionNode.FailsWith r.tree)
          (failing r.tree r.program.functions) report.errors := by
        refine ((List.forall₂_and_left _ _).2 ⟨fun f hf => List.mem_of_mem_filter hf, hall⟩).imp ?_
        rintro f e ⟨hf, he⟩
        obtain ⟨own, hown⟩ := hsettled.functions f hf
        exact hown.failsWith hsettled.proper he
      have hincreasing : (report.errors.map AnalysisError.site?).Pairwise SiteBefore := by
        rw [sites_eq_of_failsWith hfails, List.pairwise_map]
        exact hnumbered.increasing.filter _
      exact ⟨hne, hfails, List.pairwise_map.1 hincreasing⟩

/-- Five arrows over a name that is assigned: one that is not shared, one that evaluates
text, one that does not use the name, and between them two that capture it. -/
def reassigning : Program where
  body :=
    let name (s : String) : Identifier := ⟨s, .unresolved⟩
    let span : SourceSpan := ⟨0, 0, 0, 0, 0, 0⟩
    let arrow (memoized : Bool) (body : List Statement) : Statement :=
      .expression (.function
        ⟨none, .arrow, .plain, memoized, [], none, body, span, none, none, none⟩)
    let use : Statement := .returning (some (.identifier (name "n")))
    [.declaration .letDeclaration (name "n") (some (.literal (.number 0))) .slot,
      .expression (.assign (name "n") (.literal (.number 1))),
      arrow false [use], arrow true [use], arrow true [.expression (.dynamicEval "n"), use],
      arrow true [use], arrow true []]

theorem isSome_resolve_reassigning : reassigning.resolve.toOption.isSome = true := by
  decide +kernel

def reassigningResolved : ResolvedProgram :=
  reassigning.resolve.toOption.get isSome_resolve_reassigning

/-- The two arrows that capture the name are reported together. -/
theorem reports_reassigning : reassigning.resolve = .ok reassigningResolved ∧
    ∃ report, reassigningResolved.analyze = .error report ∧
      report.errors.map AnalysisError.site? = [some ⟨1⟩, some ⟨3⟩] := by
  have hresolve : reassigning.resolve = .ok reassigningResolved :=
    Except.eq_ok_get isSome_resolve_reassigning
  have hfailing : (failing reassigningResolved.tree reassigningResolved.program.functions).map
      FunctionNode.site = [some ⟨1⟩, some ⟨3⟩] := by
    decide +kernel
  obtain ⟨hok, -, hreports⟩ := Program.analyze_reports hresolve
  refine ⟨hresolve, ?_⟩
  cases hanalyze : reassigningResolved.analyze with
  | ok table =>
    have hnone := failing_eq_nil.2 (hok.1 ⟨table, hanalyze⟩)
    rw [hnone] at hfailing
    cases hfailing
  | error report =>
    obtain ⟨-, hfails, -⟩ := hreports report hanalyze
    exact ⟨report, rfl, (sites_eq_of_failsWith hfails).trans hfailing⟩

end ClosureCache
