/-
What holds through the requests of a client.

A relation between heaps that caches keep to is kept to by every request, if it allows
collections and, for the objects that the client asks to have rooted, that too.  Two such
relations give invariants of every run: the parts of caches lead where they may, and no
cell and no environment of an activation is rooted.
-/
import ClosureCache.Proofs.Cache.Links
import ClosureCache.Proofs.Cache.Pinning
import ClosureCache.Proofs.Evaluation.Confinement

namespace ClosureCache

/-- A relation between a heap and a later one that allows what evaluation and caches do, and
that objects are unrooted and collected. -/
structure Heap.HostRelation extends Heap.EvalCacheRelation where
  unroot : ∀ h x, Holds h (Heap.unroot x h).2
  collected : ∀ {h h' : Heap} {keep : MarkSet}, Collected h h' keep → Holds h h'
  same : ∀ {h h' : Heap}, h'.entries = h.entries → Holds h h'

section Requests

variable {s : Session} (T : Heap.HostRelation)

theorem EvalM.collectGarbage_keeps (image : Image) (m : Machine) :
    T.Holds m.heap (EvalM.collectGarbage image m).2.heap := by
  rcases EvalM.collectGarbage_spec image m rfl with ⟨hheap, -⟩ | ⟨keep, h, hcollected, hend⟩
  · exact hheap ▸ T.refl _
  · refine T.trans (T.collected hcollected) ?_
    rcases hend with ⟨hheap, -⟩ | hcompact
    · exact hheap ▸ T.refl _
    · have hkeeps := m.registry.compactAll_keeps T.toPruning h
      rw [hcompact] at hkeeps
      exact hkeeps

/-- Every request keeps to the relation, if the roots do that it adds. -/
theorem Request.keeps (r : Request)
    (hretain : ∀ v, r = .act (.retain v) →
      T.Holds s.machine.heap (EvalM.retain v s.image s.machine).2.heap) :
    T.Holds s.machine.heap (r.perform s.image s.machine).2.heap := by
  rcases r.act_or_sameState s with ⟨a, heq, -, ha⟩ | ⟨hstate, -⟩
  · rw [heq]
    by_cases hcollect : a = .collectGarbage
    · subst hcollect
      rw [HostAction.perform, EvalM.map_apply]
      exact EvalM.collectGarbage_keeps T s.image s.machine
    · obtain rfl := ha.resolve_right hcollect
      exact a.keeps T.toEvalCacheRelation T.unroot (fun v ha => hretain v (congrArg _ ha)) hcollect
  · exact T.same hstate.entries

end Requests

namespace Heap

def HostRelation.keepingLinks : HostRelation where
  toEvalCacheRelation := .keepingLinks
  unroot h x := keepsLinks_of_object_eq (size_unroot h x) (object_unroot h x)
  collected := Collected.keepsLinks
  same heq := keepsLinks_of_object_eq (congrArg Array.size heq) fun x => by
    rw [object, object, entry?, entry?, heq]

def HostRelation.pinning : HostRelation where
  toEvalCacheRelation := .pinning
  unroot := pins_unroot
  collected := Collected.pins
  same heq := fun x e he hroots => .inr ⟨e, by rw [Heap.entry?, ← heq]; exact he, hroots, rfl⟩

end Heap

/-- What may be known may be rooted. -/
theorem EvalM.pins_retain {image : Image} {m : Machine} {v : Value}
    (hv : v.Among (m.heap.known image)) : m.heap.Pins (EvalM.retain v image m).2.heap := by
  rw [HostAction.retain_heap]
  cases hobject : v.object? with
  | none => exact .refl _
  | some id =>
    exact Heap.pins_root fun e he => .inl ((hv id hobject).2.role _ (Heap.object_of_some he))

/-! ## Runs -/

section Runs

variable {s₀ s : Session} {past : List Moment}

theorem DiscreetRun.wellLinked {p : Program} {config : Config}
    (hload : Session.load p config = .ok s₀) (hrun : DiscreetRun s₀ s past) :
    s.machine.heap.WellLinked := by
  induction hrun with
  | start =>
    obtain ⟨resolved, hloaded⟩ := Session.loaded hload
    have hlinks :=
      HeapM.Keeps.setUpGlobals Heap.EvalRelation.roots_keepingLinks resolved.tree .empty
    rw [hloaded.globals] at hlinks
    exact hlinks.wellLinked Heap.wellLinked_empty
  | step r _ _ ih =>
    refine (r.keeps .keepingLinks fun v _ => ?_).wellLinked ih
    exact (EvalM.Keeps.retain Heap.EvalRelation.roots_keepingLinks v _ _).2

theorem DiscreetRun.intact {p : Program} {config : Config}
    (hload : Session.load p config = .ok s₀) (hrun : DiscreetRun s₀ s past) :
    s.machine.heap.Intact := by
  induction hrun with
  | start => exact Session.intact_of_load hload
  | @step s past r hrun hr ih =>
    show (r.perform s.image s.machine).2.heap.Intact
    rcases r.act_or_sameState s with ⟨a, heq, -, -⟩ | ⟨hstate, -⟩
    · rw [heq]
      exact (a.intact ih).1
    · exact ih.same hstate.entries

/-- No cell and no environment of an activation is rooted. -/
theorem DiscreetRun.pinned {p : Program} {config : Config}
    (hload : Session.load p config = .ok s₀) (hrun : DiscreetRun s₀ s past) :
    s.machine.heap.Pinned s.image := by
  induction hrun with
  | start =>
    obtain ⟨resolved, hloaded⟩ := Session.loaded hload
    obtain ⟨hobject, h₀, h₁, rfl, hnew, hheap⟩ := setUpGlobals_eq_ok hloaded.globals
    rw [hheap]
    refine Heap.Pinned.root_globalEnvironment ?_
    have hallocated := Heap.pins_allocate .empty (.ordinary ∅)
    have hrooted : Heap.Pins _ (Heap.root s₀.image.globalObject _).2 :=
      Heap.pins_root (h := (Heap.empty.allocate (.ordinary ∅)).2) fun e he => by
        rw [hobject, Heap.entry?_allocate, if_pos rfl] at he
        obtain rfl := Option.some.inj he
        exact .inl rfl
    have hopened := HeapM.Keeps.newEnvironment (T := .pinning) resolved.tree ScopeTree.global
      .outermost (some .undefined)
      (Heap.root s₀.image.globalObject (Heap.empty.allocate (.ordinary ∅)).2).2
    rw [hnew] at hopened
    have hempty : Heap.empty.Pinned s₀.image := fun x e he => by cases he
    exact ((hempty.pins hallocated).pins hrooted).pins hopened
  | @step s past r hrun hr ih =>
    refine Heap.Pinned.pins (h := s.machine.heap) ih (r.keeps .pinning fun v hv => ?_)
    subst hv
    exact EvalM.pins_retain (hr v List.mem_cons_self)

end Runs

end ClosureCache
