/-
What a heap has handed out, and the notes it leaves.

A `Ledger` is what someone could write down who watches a heap from the start: the numbers
that allocations returned, the weak references with the tokens they were made for, the notes
that were fetched, and the objects that went away in collections.  A `History` is a ledger
with the heap at that moment, after operations and collections in any order.

`Balanced` says how the two agree.  The heap itself holds the better part of the ledger: its
places are the numbers given out, and its weak references are the ones that were made, the
cleared ones being those whose note is among the fetched and the waiting ones.  One step
keeps the balance, and the rest is read off it.
-/
import ClosureCache.Proofs.Heap.Collection
import ClosureCache.Proofs.Heap.Operations

namespace ClosureCache

/-! ## Ledgers -/

/-- What was handed out by a heap, and what was taken from it. -/
structure Ledger where
  /-- The numbers that allocations returned. -/
  allocated : List ObjectId
  /-- The weak references that were made, each as the note that is due for it once its target
  goes away. -/
  registered : List FinalizationRecord
  /-- The notes that were fetched. -/
  fetched : List FinalizationRecord
  /-- The objects that collections took away. -/
  swept : List ObjectId

namespace Ledger

def empty : Ledger := ⟨[], [], [], []⟩

/-- The ledger after an operation: what the operation returned is written down. -/
def note (l : Ledger) (op : HeapOp) (h : Heap) : Ledger :=
  match op with
  | .allocate object => { l with allocated := l.allocated ++ [(h.allocate object).1] }
  | .registerWeak target token =>
    match (Heap.registerWeak target token h).1 with
    | .ok handle => { l with registered := l.registered ++ [⟨handle, target, token⟩] }
    | .error _ => l
  | .drain => { l with fetched := l.fetched ++ h.drainFinalizations.1 }
  | _ => l

/-- The ledger after a collection: the objects that are gone are written down. -/
def noteSwept (l : Ledger) (h h' : Heap) : Ledger :=
  { l with swept := l.swept ++ h.ids.filter fun x => h.contains x && !h'.contains x }

/-- All notes that were ever left, in order: those that were fetched and those that wait. -/
def notes (l : Ledger) (h : Heap) : List FinalizationRecord := l.fetched ++ h.pending.toList

end Ledger

/-- The heaps that come about from the empty one by operations, failed ones among them, and
by collections that end, each with its ledger. -/
inductive History : Ledger → Heap → Prop where
  | empty : History .empty .empty
  | op {l : Ledger} {h : Heap} (op : HeapOp) : History l h → History (l.note op h) (op.perform h)
  | collect {l : Ledger} {h h' : Heap} {stats : CollectionStats} :
    History l h → h.collect? = some (stats, h') → History (l.noteSwept h h') h'

theorem Ledger.note_of_inPlace {op : HeapOp} (hop : op.inPlace = true) (l : Ledger) (h : Heap) :
    l.note op h = l := by
  cases op <;> first | rfl | cases hop

/-- Only a collection leaves notes; a fetch takes them from the heap to the ledger. -/
theorem Ledger.notes_note (l : Ledger) (op : HeapOp) (h : Heap) :
    (l.note op h).notes (op.perform h) = l.notes h := by
  by_cases hop : op.inPlace = true
  · rw [note_of_inPlace hop]
    rcases HeapOp.perform_inPlace hop h with heq | ⟨x, f, heq, -⟩ <;> rw [heq]
    rfl
  · cases op with
    | allocate o => rfl
    | registerWeak target token =>
      rw [note, HeapOp.perform, Heap.registerWeak]
      by_cases hin : h.contains target = true
      · simp only [if_pos hin]
        rfl
      · simp only [if_neg hin]
    | drain => simp [notes, note, HeapOp.perform, Heap.drainFinalizations]
    | _ => exact absurd rfl hop

namespace Heap

variable {h h' : Heap} {m : MarkSet} {x : ObjectId} {d : FinalizationRecord}

/-! ## The notes that are due -/

/-- The note for every weak reference, in the order of their handles. -/
def dues (h : Heap) : List FinalizationRecord :=
  h.weakRefs.toList.zipIdx.map fun (r, i) => ⟨⟨i⟩, r.target, r.token⟩

theorem mem_dues : d ∈ h.dues ↔
    ∃ r, h.weakRefs[d.handle.index]? = some r ∧ d.target = r.target ∧ d.token = r.token := by
  obtain ⟨⟨i⟩, target, token⟩ := d
  simp only [dues, List.mem_map, Prod.exists, List.mem_zipIdx_iff_getElem?,
    Array.getElem?_toList, FinalizationRecord.mk.injEq, WeakHandle.mk.injEq]
  constructor
  · rintro ⟨r, _, hr, rfl, rfl, rfl⟩
    exact ⟨r, hr, rfl, rfl⟩
  · rintro ⟨r, hr, rfl, rfl⟩
    exact ⟨r, i, hr, rfl, rfl, rfl⟩

theorem sorted_dues (h : Heap) : h.dues.Pairwise fun a b => a.handle.index < b.handle.index := by
  rw [dues, List.pairwise_map]
  refine List.pairwise_map.1 (?_ : (h.weakRefs.toList.zipIdx.map Prod.snd).Pairwise (· < ·))
  rw [List.zipIdx_map_snd]
  exact List.pairwise_lt_range'

theorem nodup_handles {ds : List FinalizationRecord}
    (hs : ds.Pairwise fun a b => a.handle.index < b.handle.index) :
    (ds.map (·.handle)).Nodup := by
  refine List.pairwise_map.2 (hs.imp fun hlt heq => ?_)
  exact Nat.ne_of_lt hlt (congrArg WeakHandle.index heq)

/-- A handle has one note. -/
theorem eq_of_handle {d' : FinalizationRecord} (hd : d ∈ h.dues) (hd' : d' ∈ h.dues)
    (heq : d.handle = d'.handle) : d = d' := by
  obtain ⟨r, hr, htarget, htoken⟩ := mem_dues.1 hd
  obtain ⟨r', hr', htarget', htoken'⟩ := mem_dues.1 hd'
  obtain rfl : r = r' := Option.some.inj (hr.symm.trans (heq ▸ hr'))
  cases d
  cases d'
  simp_all

theorem dues_push (h : Heap) (target : ObjectId) (token : Nat) :
    dues { h with weakRefs := h.weakRefs.push ⟨target, token, false⟩ } =
      h.dues ++ [⟨⟨h.weakRefs.size⟩, target, token⟩] := by
  simp [dues, List.zipIdx_append]

/-- A sweep leaves the notes that are due as they are. -/
theorem dues_sweep (h : Heap) (m : MarkSet) (rounds : Nat) :
    (h.sweep m rounds).2.dues = h.dues := by
  simp [dues, sweep, clearRef, List.zipIdx_map, Function.comp_def]

/-! ## The number of objects -/

theorem encard_contains (h : Heap) : {x | h.contains x = true}.encard = h.objectCount :=
  encard_objects h.entries

theorem objectCount_congr (hsame : ∀ x, h'.contains x = h.contains x) :
    h'.objectCount = h.objectCount := by
  have : (h'.objectCount : ℕ∞) = h.objectCount := by
    simp only [← encard_contains, hsame]
  exact_mod_cast this

theorem objectCount_mono (hsub : ∀ x, h'.contains x = true → h.contains x = true) :
    h'.objectCount ≤ h.objectCount := by
  have : (h'.objectCount : ℕ∞) ≤ h.objectCount := by
    rw [← encard_contains, ← encard_contains]
    exact Set.encard_le_encard hsub
  exact_mod_cast this

theorem contains_sweep (h : Heap) (m : MarkSet) (rounds : Nat) (x : ObjectId) :
    (h.sweep m rounds).2.contains x = (m.contains x && h.contains x) := by
  change ((h.sweepEntries m)[x.index]?).join.isSome = _
  rw [entry?_sweepEntries]
  by_cases hx : m.contains x = true <;> simp [hx, contains]

/-- A sweep counts the objects that it takes away. -/
theorem count_sweep (h : Heap) (m : MarkSet) (rounds : Nat) :
    (h.sweep m rounds).2.objectCount + (h.sweep m rounds).2.totalSwept =
      h.objectCount + h.totalSwept := by
  have hkept : (h.keptEntries m).countP Option.isSome = (h.sweep m rounds).2.objectCount := by
    have hsame : ∀ x, contains { h with entries := h.keptEntries m } x =
        (h.sweep m rounds).2.contains x := fun x => by
      rw [contains_sweep]
      change ((h.keptEntries m)[x.index]?).join.isSome = _
      rw [getElem?_keptEntries]
      by_cases hx : m.contains x = true <;> simp [hx, contains]
    exact objectCount_congr hsame
  have hle : (h.sweep m rounds).2.objectCount ≤ h.objectCount :=
    objectCount_mono fun x hx => (Bool.and_eq_true_iff.1 (contains_sweep h m rounds x ▸ hx)).2
  have hswept : (h.sweep m rounds).2.totalSwept =
      h.totalSwept + (h.objectCount - (h.keptEntries m).countP Option.isSome) := rfl
  omega

end Heap

/-! ## What one step keeps -/

structure Balanced (l : Ledger) (h : Heap) : Prop where
  allocated : l.allocated = h.ids
  registered : l.registered = h.dues
  /-- Weak references are made for numbers that were given out. -/
  target : ∀ r ∈ h.weakRefs, r.target.index < h.entries.size
  cleared : ∀ r ∈ h.weakRefs, r.cleared = !h.contains r.target
  swept : ∀ x, x ∈ l.swept ↔ x.index < h.entries.size ∧ h.contains x = false
  count : h.objectCount + h.totalSwept = h.entries.size
  /-- The notes are those of the weak references whose target is gone. -/
  notes : ∀ d, d ∈ l.notes h ↔ d ∈ h.dues ∧ h.contains d.target = false
  once : ((l.notes h).map (·.handle)).Nodup

namespace Balanced

variable {l : Ledger} {h h' : Heap}

theorem empty : Balanced .empty .empty where
  allocated := rfl
  registered := rfl
  target r hr := absurd hr (by simp [Heap.empty])
  cleared r hr := absurd hr (by simp [Heap.empty])
  swept x := by simp [Ledger.empty, Heap.empty]
  count := rfl
  notes d := by simp [Ledger.notes, Ledger.empty, Heap.empty, Heap.dues]
  once := by simp [Ledger.notes, Ledger.empty, Heap.empty]

/-- A change of one entry is of no consequence. -/
theorem modifyEntry (hb : Balanced l h) (x : ObjectId) (f : HeapEntry → HeapEntry) :
    Balanced l (h.modifyEntry x f) where
  allocated := by rw [hb.allocated, Heap.ids, Heap.ids, Heap.size_modifyEntry]
  registered := hb.registered
  target r hr := by
    rw [Heap.size_modifyEntry]
    exact hb.target r hr
  cleared r hr := by
    rw [Heap.contains_modifyEntry]
    exact hb.cleared r hr
  swept y := by rw [Heap.size_modifyEntry, Heap.contains_modifyEntry, hb.swept]
  count := by
    rw [Heap.size_modifyEntry, Heap.objectCount_congr fun y => h.contains_modifyEntry x f y]
    exact hb.count
  notes d := by
    rw [Heap.contains_modifyEntry]
    exact hb.notes d
  once := hb.once

theorem due_lt (hb : Balanced l h) {d : FinalizationRecord} (hd : d ∈ h.dues) :
    d.target.index < h.entries.size := by
  obtain ⟨r, hr, htarget, -⟩ := Heap.mem_dues.1 hd
  rw [htarget]
  exact hb.target r (Array.mem_of_getElem? hr)

theorem allocate (hb : Balanced l h) (o : Object) :
    Balanced (l.note (.allocate o) h) (h.allocate o).2 := by
  have hold : ∀ x : ObjectId, x.index < h.entries.size →
      (h.allocate o).2.contains x = h.contains x := fun x hx => by
    rw [Heap.contains, Heap.entry?_allocate_of_lt hx, Heap.contains]
  exact
    { allocated := by
        rw [Heap.ids, Heap.size_allocate, List.range_succ, List.map_append, ← Heap.ids,
          ← hb.allocated]
        rfl
      registered := hb.registered
      target := fun r hr => by
        rw [Heap.size_allocate]
        exact Nat.lt_succ_of_lt (hb.target r hr)
      cleared := fun r hr => by
        rw [hold _ (hb.target r hr)]
        exact hb.cleared r hr
      swept := fun x => by
        refine (hb.swept x).trans ?_
        rw [Heap.size_allocate]
        rcases Nat.lt_trichotomy x.index h.entries.size with hlt | heq | hgt
        · rw [hold x hlt]
          simp [hlt, Nat.lt_succ_of_lt hlt]
        · obtain rfl : x = ⟨h.entries.size⟩ := Heap.ext_index.2 heq
          simp [Heap.contains, Heap.entry?_allocate]
        · simp [Nat.not_lt.2 hgt, Nat.not_lt.2 (Nat.le_of_lt hgt)]
      count := by
        have hcount : (h.allocate o).2.objectCount = h.objectCount + 1 := by
          simp [Heap.objectCount, Heap.allocate]
        have htotal : (h.allocate o).2.totalSwept = h.totalSwept := rfl
        rw [Heap.size_allocate, hcount, htotal, ← hb.count]
        omega
      notes := fun d => (hb.notes d).trans (and_congr_right fun hd => by rw [hold _ (hb.due_lt hd)])
      once := hb.once }

/-- A new weak reference is to an object that is there, so no note is left for it yet. -/
theorem registerWeak (hb : Balanced l h) {target : ObjectId} (hin : h.contains target = true)
    (token : Nat) :
    Balanced { l with registered := l.registered ++ [⟨⟨h.weakRefs.size⟩, target, token⟩] }
      { h with weakRefs := h.weakRefs.push ⟨target, token, false⟩ } := by
  have hall : ∀ {P : WeakRef → Prop}, (∀ r ∈ h.weakRefs, P r) → P ⟨target, token, false⟩ →
      ∀ r ∈ h.weakRefs.push ⟨target, token, false⟩, P r := by
    intro P hold hnew r hr
    rcases Array.mem_push.1 hr with hr | rfl
    · exact hold r hr
    · exact hnew
  exact
    { allocated := hb.allocated
      registered := by rw [Heap.dues_push, hb.registered]
      target := hall hb.target (Heap.lt_of_contains hin)
      cleared := hall hb.cleared (by change false = !h.contains target; rw [hin]; rfl)
      swept := hb.swept
      count := hb.count
      notes := fun d => by
        refine (hb.notes d).trans ?_
        rw [Heap.dues_push, List.mem_append, List.mem_singleton]
        refine ⟨fun hd => ⟨.inl hd.1, hd.2⟩, ?_⟩
        rintro ⟨hd | rfl, hgone⟩
        · exact ⟨hd, hgone⟩
        · exact absurd (hin.symm.trans hgone) (by decide)
      once := hb.once }

theorem drain (hb : Balanced l h) : Balanced (l.note .drain h) h.drainFinalizations.2 := by
  have hnotes := l.notes_note .drain h
  rw [HeapOp.perform] at hnotes
  exact
    { allocated := hb.allocated
      registered := hb.registered
      target := hb.target
      cleared := hb.cleared
      swept := hb.swept
      count := hb.count
      notes := fun d => by
        rw [hnotes]
        exact hb.notes d
      once := by
        rw [hnotes]
        exact hb.once }

/-- Every operation keeps the balance. -/
theorem op (hb : Balanced l h) (op : HeapOp) : Balanced (l.note op h) (op.perform h) := by
  by_cases hop : op.inPlace = true
  · rw [Ledger.note_of_inPlace hop]
    rcases HeapOp.perform_inPlace hop h with heq | ⟨x, f, heq, -⟩
    · rwa [heq]
    · rw [heq]
      exact hb.modifyEntry x f
  · cases op with
    | allocate o => exact hb.allocate o
    | registerWeak target token =>
      rw [Ledger.note, HeapOp.perform, Heap.registerWeak]
      by_cases hin : h.contains target = true
      · simp only [if_pos hin]
        exact hb.registerWeak hin token
      · simp only [if_neg hin]
        exact hb
    | drain => exact hb.drain
    | _ => exact absurd rfl hop

/-- The notes that a sweep leaves are those that are due for the objects it takes away. -/
theorem newRecords_eq (hb : Balanced l h) (m : MarkSet) : h.newRecords m =
    h.dues.filter fun d => h.contains d.target && !m.contains d.target := by
  rw [Heap.newRecords, Heap.dues, ← List.filterMap_eq_filter, List.filterMap_map]
  refine List.filterMap_congr fun ⟨r, i⟩ hmem => ?_
  have hr : r ∈ h.weakRefs := Array.mem_toList_iff.1 (List.fst_mem_of_mem_zipIdx hmem)
  cases hin : h.contains r.target <;> cases hm : m.contains r.target <;>
    simp [hb.cleared r hr, hin, hm, Option.guard]

theorem sorted_newRecords (hb : Balanced l h) (m : MarkSet) :
    (h.newRecords m).Pairwise fun a b => a.handle.index < b.handle.index := by
  rw [hb.newRecords_eq]
  exact h.sorted_dues.filter _

theorem mem_newRecords (hb : Balanced l h) {m : MarkSet} {d : FinalizationRecord} :
    d ∈ h.newRecords m ↔
      d ∈ h.dues ∧ h.contains d.target = true ∧ m.contains d.target = false := by
  simp [hb.newRecords_eq]

theorem sweep (hb : Balanced l h) (m : MarkSet) (rounds : Nat) :
    Balanced (l.noteSwept h (h.sweep m rounds).2) (h.sweep m rounds).2 := by
  have hin := h.contains_sweep m rounds
  have hnotes : (l.noteSwept h (h.sweep m rounds).2).notes (h.sweep m rounds).2 =
      l.notes h ++ h.newRecords m := by
    simp [Ledger.notes, Ledger.noteSwept, Heap.sweep]
  have hsize : (h.sweep m rounds).2.entries.size = h.entries.size := by
    simp [Heap.sweep, Heap.sweepEntries]
  exact
    { allocated := by
        rw [Heap.ids, hsize, ← Heap.ids]
        exact hb.allocated
      registered := (hb.registered).trans (h.dues_sweep m rounds).symm
      target := fun r hr => by
        obtain ⟨old, hold, rfl⟩ := Array.mem_map.1 hr
        rw [hsize]
        exact hb.target old hold
      cleared := fun r hr => by
        obtain ⟨old, hold, rfl⟩ := Array.mem_map.1 hr
        rw [hin]
        simp [Heap.clearRef, hb.cleared old hold, Bool.or_comm]
      swept := fun x => by
        rw [hsize, hin]
        simp only [Ledger.noteSwept, List.mem_append, hb.swept, List.mem_filter, Heap.mem_ids, hin]
        cases h.contains x <;> cases m.contains x <;> simp
      count := by rw [h.count_sweep m rounds, hsize, hb.count]
      notes := fun d => by
        rw [hnotes, List.mem_append, hb.notes, hb.mem_newRecords, h.dues_sweep, hin]
        cases h.contains d.target <;> cases m.contains d.target <;> simp
      once := by
        rw [hnotes, List.map_append, List.nodup_append]
        refine ⟨hb.once, Heap.nodup_handles (hb.sorted_newRecords m), ?_⟩
        rintro _ hw _ hw' rfl
        obtain ⟨d, hd, rfl⟩ := List.mem_map.1 hw
        obtain ⟨d', hd', heq⟩ := List.mem_map.1 hw'
        obtain ⟨hdue, hgone⟩ := (hb.notes d).1 hd
        obtain ⟨hdue', hin', -⟩ := hb.mem_newRecords.1 hd'
        rw [Heap.eq_of_handle hdue' hdue heq, hgone] at hin'
        cases hin' }

theorem collect (hb : Balanced l h) {stats : CollectionStats}
    (hrun : h.collect? = some (stats, h')) : Balanced (l.noteSwept h h') h' := by
  obtain ⟨m, r, -, hsweep⟩ := Heap.exists_sweep hrun
  have hb' := hb.sweep m r
  rwa [hsweep] at hb'

/-- A weak reference gives its target for as long as that is there. -/
theorem derefWeak_eq (hb : Balanced l h) {d : FinalizationRecord} (hd : d ∈ h.dues) :
    h.derefWeak d.handle = if h.contains d.target then some d.target else none := by
  obtain ⟨r, hr, htarget, -⟩ := Heap.mem_dues.1 hd
  rw [Heap.derefWeak, hr, Option.bind_some, hb.cleared r (Array.mem_of_getElem? hr), htarget]
  cases h.contains r.target <;> rfl

/-- The notes of a weak reference. -/
theorem filter_notes (hb : Balanced l h) {d : FinalizationRecord} (hd : d ∈ h.dues) :
    (l.notes h).filter (·.handle = d.handle) = if h.contains d.target then [] else [d] := by
  have hsame : ∀ a ∈ l.notes h, a.handle = d.handle → a = d := fun a ha =>
    Heap.eq_of_handle ((hb.notes a).1 ha).1 hd
  cases hin : h.contains d.target with
  | true =>
    refine List.filter_eq_nil_iff.2 fun a ha heq => ?_
    have hgone := ((hb.notes a).1 ha).2
    rw [hsame a ha (of_decide_eq_true heq), hin] at hgone
    cases hgone
  | false =>
    have hmem : d ∈ l.notes h := (hb.notes d).2 ⟨hd, hin⟩
    have hfilter : (l.notes h).filter (·.handle = d.handle) = (l.notes h).filter (· == d) := by
      refine List.filter_congr fun a ha => ?_
      rw [Bool.eq_iff_iff, decide_eq_true_iff, beq_iff_eq]
      exact ⟨hsame a ha, fun heq => heq ▸ rfl⟩
    rw [hfilter, List.filter_beq, List.count_eq_one_of_mem (.of_map _ hb.once) hmem]
    rfl

end Balanced

theorem History.balanced {l : Ledger} {h : Heap} (hh : History l h) : Balanced l h := by
  induction hh with
  | empty => exact .empty
  | op op _ ih => exact ih.op op
  | collect _ hrun ih => exact ih.collect hrun

/-- Whatever was done to a heap: no number was given out twice, and as many were given out as
there are objects left and swept.  A weak reference gives its target until that is swept, and
its note is left once if the target was swept, else not at all.  A collection leaves the notes
of the objects it sweeps after all earlier ones, in the order of the handles; nothing else
leaves one or loses one. -/
theorem finalized_once {l : Ledger} {h : Heap} (hh : History l h) :
    (l.allocated.Nodup ∧ l.allocated.length = h.objectCount + h.totalSwept ∧
      ∀ x, x ∈ l.swept ↔ x ∈ l.allocated ∧ h.contains x = false) ∧
    ((l.registered.map (·.handle)).Nodup ∧
      (∀ d ∈ l.registered,
        h.derefWeak d.handle = if h.contains d.target then some d.target else none) ∧
      ∀ w, (∀ d ∈ l.registered, d.handle ≠ w) → h.derefWeak w = none) ∧
    ((∀ d ∈ l.notes h, d ∈ l.registered) ∧ ∀ d ∈ l.registered,
      (l.notes h).filter (·.handle = d.handle) = if d.target ∈ l.swept then [d] else []) ∧
    (∀ op : HeapOp, (l.note op h).notes (op.perform h) = l.notes h) ∧
    ∀ stats h', h.collect? = some (stats, h') → ∃ queued : List FinalizationRecord,
      h'.pending.toList = h.pending.toList ++ queued ∧ queued.length = stats.finalized ∧
      (queued.Pairwise fun a b => a.handle.index < b.handle.index) ∧
      ∀ d, d ∈ queued ↔
        d ∈ l.registered ∧ h.contains d.target = true ∧ h'.contains d.target = false := by
  have hb := hh.balanced
  have hswept : ∀ d ∈ h.dues, (d.target ∈ l.swept ↔ h.contains d.target = false) := fun d hd => by
    rw [hb.swept]
    exact and_iff_right (hb.due_lt hd)
  refine ⟨⟨?_, ?_, fun x => ?_⟩, ⟨?_, fun d hd => ?_, fun w hw => ?_⟩, ⟨fun d hd => ?_,
    fun d hd => ?_⟩, fun op => l.notes_note op h, fun stats h' hrun => ?_⟩
  · rw [hb.allocated]
    exact List.nodup_range.map fun _ _ heq => ObjectId.mk.inj heq
  · simp [hb.allocated, hb.count, Heap.ids]
  · rw [hb.swept, hb.allocated, Heap.mem_ids]
  · rw [hb.registered]
    exact Heap.nodup_handles h.sorted_dues
  · exact hb.derefWeak_eq (hb.registered ▸ hd)
  · rw [Heap.derefWeak]
    cases hr : h.weakRefs[w.index]? with
    | none => rfl
    | some r =>
      have hd : ⟨w, r.target, r.token⟩ ∈ l.registered :=
        hb.registered ▸ Heap.mem_dues.2 ⟨r, hr, rfl, rfl⟩
      exact absurd rfl (hw _ hd)
  · rw [hb.registered]
    exact ((hb.notes d).1 hd).1
  · rw [hb.registered] at hd
    rw [hb.filter_notes hd]
    simp only [hswept d hd]
    cases h.contains d.target <;> rfl
  · obtain ⟨m, r, -, hsweep⟩ := Heap.exists_sweep hrun
    have hleft := h.contains_sweep m r
    rw [hsweep] at hleft
    refine ⟨h.newRecords m, ?_, (congrArg (·.1.finalized) hsweep), hb.sorted_newRecords m,
      fun d => ?_⟩
    · rw [← congrArg (·.2.pending) hsweep]
      simp [Heap.sweep]
    · rw [hb.mem_newRecords, hb.registered, hleft]
      refine and_congr_right fun _ => and_congr_right fun hin => ?_
      rw [hin, Bool.and_true]

def afterOps (s : Ledger × Heap) (ops : List HeapOp) : Ledger × Heap :=
  ops.foldl (fun s op => (s.1.note op s.2, op.perform s.2)) s

theorem History.ops {s : Ledger × Heap} (hh : History s.1 s.2) (ops : List HeapOp) :
    History (afterOps s ops).1 (afterOps s ops).2 := by
  induction ops generalizing s with
  | nil => exact hh
  | cons op ops ih => exact ih (s := (s.1.note op s.2, op.perform s.2)) (hh.op op)

/-- An object with two weak references and a rooted one with another. -/
def watched : Ledger × Heap :=
  afterOps (.empty, .empty) [.allocate (.ordinary ∅), .allocate (.cell none), .root ⟨1⟩,
    .registerWeak ⟨0⟩ 7, .registerWeak ⟨1⟩ 8, .registerWeak ⟨0⟩ 9]

/-- Once the first object is swept and the notes are fetched, both of its weak references have
had their note, and the third one still gives its target. -/
theorem finalized_once_watched : ∃ l h, History l h ∧ l.swept = [⟨0⟩] ∧
    (l.notes h).filter (·.handle = ⟨2⟩) = [⟨⟨2⟩, ⟨0⟩, 9⟩] ∧
    (l.notes h).filter (·.handle = ⟨1⟩) = [] ∧ h.derefWeak ⟨0⟩ = none ∧
    h.derefWeak ⟨1⟩ = some ⟨1⟩ ∧ h.objectCount + h.totalSwept = 2 := by
  have hwatched : History watched.1 watched.2 := History.ops (s := (.empty, .empty)) .empty _
  obtain ⟨⟨stats, h⟩, hrun⟩ := Option.isSome_iff_exists.1
    (by decide +kernel : watched.2.collect?.isSome = true)
  have hafter : (watched.1.noteSwept watched.2 h).swept = [⟨0⟩] ∧ h.contains ⟨1⟩ = true ∧
      h.contains ⟨0⟩ = false := by
    have hall : ∀ r ∈ watched.2.collect?, (watched.1.noteSwept watched.2 r.2).swept = [⟨0⟩] ∧
        r.2.contains ⟨1⟩ = true ∧ r.2.contains ⟨0⟩ = false := by decide +kernel
    exact hall (stats, h) hrun
  obtain ⟨hswept, hleft, hgone⟩ := hafter
  have hh := (hwatched.collect hrun).op .drain
  generalize hl : (watched.1.noteSwept watched.2 h).note .drain h = l at hh
  generalize hh' : HeapOp.drain.perform h = h' at hh
  have hregistered : l.registered = [⟨⟨0⟩, ⟨0⟩, 7⟩, ⟨⟨1⟩, ⟨1⟩, 8⟩, ⟨⟨2⟩, ⟨0⟩, 9⟩] := by
    rw [← hl]
    rfl
  have hallocated : l.allocated = [⟨0⟩, ⟨1⟩] := by
    rw [← hl]
    rfl
  have hswept' : l.swept = [⟨0⟩] := by rw [← hl, ← hswept]; rfl
  have hin : ∀ x, h'.contains x = h.contains x := fun x => by rw [← hh']; rfl
  obtain ⟨⟨-, hcount, -⟩, ⟨-, hderef, -⟩, ⟨-, honce⟩, -⟩ := finalized_once hh
  refine ⟨l, h', hh, hswept', ?_, ?_, ?_, ?_, ?_⟩
  · have := honce ⟨⟨2⟩, ⟨0⟩, 9⟩ (by simp [hregistered])
    rwa [if_pos (by simp [hswept'])] at this
  · have := honce ⟨⟨1⟩, ⟨1⟩, 8⟩ (by simp [hregistered])
    rwa [if_neg (by simp [hswept'])] at this
  · have := hderef ⟨⟨0⟩, ⟨0⟩, 7⟩ (by simp [hregistered])
    rwa [hin, hgone] at this
  · have := hderef ⟨⟨1⟩, ⟨1⟩, 8⟩ (by simp [hregistered])
    rwa [hin, hleft] at this
  · rw [← hcount, hallocated]
    rfl

end ClosureCache
