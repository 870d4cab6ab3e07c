/-
What loading a plain program has made, as far as no run changes it.

`Sound` says that the names of the program are bound, that every definition is found
under its site together with its analysis, and that what is assigned is mutable.
-/
import ClosureCache.Proofs.Capture
import ClosureCache.Proofs.Evaluation.Runs
import ClosureCache.Proofs.Program.Binding
import ClosureCache.Proofs.Program.Registration

namespace ClosureCache

/-! ## Tables by site -/

/-- No two definitions have one site, and all have one. -/
def DistinctSites (l : List FunctionNode) : Prop :=
  (l.map FunctionNode.site).Nodup ∧ ∀ f ∈ l, ∃ site, f.site = some site

theorem Numbered.distinctSites {l : List FunctionNode} (h : Numbered l) : DistinctSites l := by
  rw [Numbered] at h
  refine ⟨?_, fun f hf => ?_⟩
  · rw [h]
    refine List.Nodup.map (fun i j hij => ?_) List.nodup_range
    exact SiteId.mk.inj (Option.some.inj hij)
  · have hmem : f.site ∈ l.map FunctionNode.site := List.mem_map_of_mem hf
    rw [h] at hmem
    obtain ⟨i, -, hi⟩ := List.mem_map.1 hmem
    exact ⟨⟨i⟩, hi.symm⟩

section Analysis

variable {t : ScopeTree}

/-- An error that was met stays in the report. -/
theorem analyzeSites_errors {l : List FunctionNode} {table : AnalysisTable}
    {errors : List AnalysisError} (h : (analyzeSites t l (table, errors)).2 = []) :
    errors = [] := by
  induction l generalizing table errors with
  | nil => exact h
  | cons f rest ih =>
    rw [analyzeSites] at h
    split at h
    · exact absurd (ih h) (List.append_ne_nil_of_right_ne_nil _ (List.cons_ne_nil _ _))
    · split at h <;> exact ih h

/-- Without errors every definition is found with its analysis under its site. -/
theorem analyzeSites_spec {l : List FunctionNode} (hl : DistinctSites l)
    {table table' : AnalysisTable} (h : analyzeSites t l (table, []) = (table', [])) :
    (∀ f ∈ l, ∃ site a, f.site = some site ∧ analyzeSite t f = .ok a ∧ table'.get? site = some a) ∧
      ∀ site, (∀ f ∈ l, f.site ≠ some site) → table'.get? site = table.get? site := by
  induction l generalizing table with
  | nil =>
    obtain ⟨rfl, -⟩ := Prod.mk.inj h
    exact ⟨fun f hf => absurd hf List.not_mem_nil, fun _ _ => rfl⟩
  | cons f rest ih =>
    obtain ⟨hnodup, hsome⟩ := hl
    rw [List.map_cons, List.nodup_cons] at hnodup
    obtain ⟨hfresh, hnodup⟩ := hnodup
    have hrest : DistinctSites rest := ⟨hnodup, fun g hg => hsome g (List.mem_cons_of_mem _ hg)⟩
    obtain ⟨site, hsite⟩ := hsome f List.mem_cons_self
    have hother : ∀ g ∈ rest, g.site ≠ some site := by
      intro g hg he
      exact hfresh (hsite ▸ he ▸ List.mem_map_of_mem hg)
    rw [analyzeSites] at h
    cases ha : analyzeSite t f with
    | error e =>
      rw [ha] at h
      have := analyzeSites_errors (congrArg Prod.snd h)
      cases this
    | ok a =>
      rw [ha, hsite] at h
      obtain ⟨hfound, hkeep⟩ := ih hrest h
      refine ⟨fun g hg => ?_, fun s hs => ?_⟩
      · rcases List.mem_cons.1 hg with rfl | hg
        · exact ⟨site, a, hsite, ha, by rw [hkeep site hother, SortedMap.get?_insert_self]⟩
        · exact hfound g hg
      · rw [hkeep s fun g hg => hs g (List.mem_cons_of_mem _ hg), SortedMap.get?_insert_of_ne]
        rintro rfl
        exact hs f List.mem_cons_self hsite

theorem ResolvedProgram.analyze_spec {r : ResolvedProgram} (hr : DistinctSites r.program.functions)
    {table : AnalysisTable} (h : r.analyze = .ok table) :
    ∀ f ∈ r.program.functions, ∃ site a, f.site = some site ∧ analyzeSite r.tree f = .ok a ∧
      table.get? site = some a := by
  rw [analyze] at h
  split at h
  · next table' hrun =>
    obtain rfl := Except.ok.inj h
    exact (analyzeSites_spec hr hrun).1
  · cases h

/-- A definition stands in the table of definitions under its site, and nothing else
does. -/
theorem ResolvedProgram.functionTable_spec {r : ResolvedProgram}
    (hr : DistinctSites r.program.functions) {site : SiteId} {f : FunctionNode} :
    r.functionTable.get? site = some f ↔ f ∈ r.program.functions ∧ f.site = some site := by
  have hmem : ∀ site f, (site, f) ∈ r.program.functions.filterMap
      (fun f => f.site.map fun site => (site, f)) ↔
        f ∈ r.program.functions ∧ f.site = some site := by
    intro site f
    rw [List.mem_filterMap]
    refine ⟨fun ⟨g, hg, he⟩ => ?_, fun ⟨hf, hs⟩ => ⟨f, hf, by rw [hs]; rfl⟩⟩
    obtain ⟨s, hs, he⟩ := Option.map_eq_some_iff.1 he
    obtain ⟨rfl, rfl⟩ := Prod.mk.inj he
    exact ⟨hg, hs⟩
  rw [functionTable, ← hmem]
  refine ⟨SortedMap.mem_of_get?_ofList, SortedMap.get?_ofList_of_mem ?_⟩
  have hsites : ∀ l : List FunctionNode, (l.map FunctionNode.site).Nodup →
      ((l.filterMap fun f => f.site.map fun site => (site, f)).map Prod.fst).Nodup := by
    intro l hl
    rw [List.map_filterMap]
    have heq : (fun f : FunctionNode => (f.site.map fun site => (site, f)).map Prod.fst) =
        FunctionNode.site := by
      funext f
      cases f.site <;> rfl
    have hid : l.filterMap FunctionNode.site = (l.map FunctionNode.site).filterMap id := by
      rw [List.filterMap_map]
      rfl
    rw [heq, hid]
    exact hl.filterMap fun a b c ha hb => ha.trans hb.symm
  exact hsites _ hr.1

end Analysis

/-! ## Sound images -/

/-- A definition of the program, as it is found at run time. -/
def Image.Knows (image : Image) (f : FunctionNode) : Prop :=
  ∃ site, f.site = some site ∧ image.functions.get? site = some f

/-- What a program and its tables keep throughout a run. -/
structure Image.Sound (image : Image) : Prop where
  proper : image.tree.Proper
  opened : ∃ sc, image.tree.scope? ScopeTree.global = some sc
  body : BoundStatements image.tree ScopeTree.global image.program.body
  known : ∀ f ∈ functionsInStatements image.program.body, image.Knows f
  /-- Under every site stands a definition whose names are bound, and whose inner
  definitions are known. -/
  bound : ∀ site f, image.functions.get? site = some f → f.site = some site ∧
    (∃ s, f.Bound image.tree s) ∧ ∀ g ∈ functionsInStatements f.body, image.Knows g
  analyzed : ∀ site f, image.functions.get? site = some f →
    ∃ a, analyzeSite image.tree f = .ok a ∧ image.analysis.get? site = some a
  «mutable» : ∀ b d, image.tree.binding? b = some d →
    d.mutable = (!d.kind.isImmutable && decide (0 < d.assignments))

theorem Session.Loaded.sound {p : Program} {s : Session} {resolved : ResolvedProgram}
    (h : s.Loaded p resolved) (hplain : p.Plain) : s.image.Sound := by
  have hc := Program.complete_of_resolve h.resolve hplain
  have hsites := (Program.numbered_of_resolve h.resolve).distinctSites
  have hself := selfContained_statements _ hc.bound
  have hknows : ∀ f ∈ resolved.program.functions, s.image.Knows f := by
    intro f hf
    obtain ⟨site, hsite⟩ := hsites.2 f hf
    refine ⟨site, hsite, ?_⟩
    rw [h.functions, ResolvedProgram.functionTable_spec hsites]
    exact ⟨hf, hsite⟩
  refine ⟨h.tree ▸ hc.proper, h.tree ▸ hc.opened, ?_, ?_, fun site f hf => ?_, fun site f hf => ?_,
    h.tree ▸ hc.mutable⟩
  · rw [h.tree, h.program]
    exact hc.bound
  · rw [h.program]
    exact hknows
  · rw [h.functions, ResolvedProgram.functionTable_spec hsites] at hf
    obtain ⟨hbound, hinner⟩ := hself f hf.1
    rw [h.tree]
    exact ⟨hf.2, hbound, fun g hg => hknows g (hinner g hg)⟩
  · rw [h.functions, ResolvedProgram.functionTable_spec hsites] at hf
    obtain ⟨site', a, hsite, ha, hget⟩ := ResolvedProgram.analyze_spec hsites h.analyze f hf.1
    rw [hf.2] at hsite
    obtain rfl := Option.some.inj hsite
    exact ⟨a, by rw [h.tree, ha], hget⟩

/-- The analysis of a definition that is shared covers what its body refers to. -/
theorem Image.Sound.covers {image : Image} (hi : image.Sound) {site : SiteId} {f : FunctionNode}
    {s own : ScopeId} (hf : image.functions.get? site = some f)
    (hplaced : f.Placed image.tree s own)
    (hbody : BoundStatements image.tree own f.body) {spec : CaptureSpec}
    (hspec : image.analysis.get? site = some (.memoized spec)) :
    spec.Covers image.tree own f.references := by
  obtain ⟨a, ha, hget⟩ := hi.analyzed site f hf
  rw [hspec] at hget
  obtain rfl := Option.some.inj hget
  obtain ⟨sc, hown, -⟩ := hplaced.opened
  have hwithin : ∀ r ∈ f.references, r.Within image.tree own := by
    rw [FunctionNode.references_eq]
    exact within_statements hi.proper hown f.body hbody
  rw [analyzeSite, (hi.bound site f hf).1, hplaced.scope] at ha
  dsimp only at ha
  split at ha
  · cases Except.ok.inj ha
  · split at ha
    · cases Except.ok.inj ha
    · cases hs : specOf image.tree site own f.isArrow f.references with
      | error e =>
        rw [hs] at ha
        cases ha
      | ok spec' =>
        rw [hs] at ha
        obtain rfl := SiteAnalysis.memoized.inj (Except.ok.inj ha)
        exact specOf_covers hi.proper hplaced hwithin hs

end ClosureCache
