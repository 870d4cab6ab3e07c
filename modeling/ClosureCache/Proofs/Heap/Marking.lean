/-
The marking loop, one turn at a time.

`Turn` is one turn of the loop: an object is visited, a number is passed over, or, when
nothing is left to visit, the marked weak maps are looked through for another round.  The
loop has no bound of its own and is at its exit when such a round finds nothing.

`marksTo_iff` says that the loop and `mark?` end for the same heaps, with the same marks
after the same number of rounds.  The loop takes work from a stack and keeps a list of
weak maps, where `mark?` traverses and searches all marks; a round of either marks the
least set with the work that is closed under strong references, so the order is no matter.
`marking_ends_iff` tells from the reachable objects whether the exit is reached: every
round before the last finds an object, and only a number without an object can be found
again and again.
-/
import Mathlib.Logic.Relation
import ClosureCache.Proofs.Heap.Collection

namespace ClosureCache

structure Marking where
  marks : MarkSet
  /-- What is to be visited, the next one first. -/
  work : List ObjectId
  /-- The marked weak maps, in the order in which they were marked. -/
  maps : List ObjectId
  /-- Number of rounds that found something. -/
  rounds : Nat

namespace Heap

open Relation (ReflTransGen)

/-! ## The loop -/

def isWeakMap (h : Heap) (x : ObjectId) : Bool :=
  match h.entry? x with
  | some ⟨.weakMap _, _⟩ => true
  | _ => false

/-- The unmarked objects that weak maps lead to, in the order in which they are found. -/
def targetsIn (h : Heap) (m : MarkSet) (maps : List ObjectId) : List ObjectId :=
  maps.flatMap fun map => entryTargets m (h.weakLinks map)

/-- A turn of the loop.  What is found last is visited first. -/
inductive Turn (h : Heap) : Marking → Marking → Prop where
  | visit {m : MarkSet} {x : ObjectId} {rest maps : List ObjectId} {n : Nat} :
    h.isFresh m x = true →
    Turn h ⟨m, x :: rest, maps, n⟩
      ⟨m.insert x, (h.strongRefs x).reverse ++ rest, maps ++ [x].filter h.isWeakMap, n⟩
  /-- A marked object is not visited again, and numbers without an object are passed over. -/
  | pass {m : MarkSet} {x : ObjectId} {rest maps : List ObjectId} {n : Nat} :
    h.isFresh m x = false → Turn h ⟨m, x :: rest, maps, n⟩ ⟨m, rest, maps, n⟩
  | round {m : MarkSet} {maps : List ObjectId} {n : Nat} : h.targetsIn m maps ≠ [] →
    Turn h ⟨m, [], maps, n⟩ ⟨m, (h.targetsIn m maps).reverse, maps, n + 1⟩

abbrev Turns (h : Heap) : Marking → Marking → Prop := ReflTransGen h.Turn

/-- The loop is at its exit: nothing is left to visit, and the weak maps lead to nothing
unmarked. -/
structure Finished (h : Heap) (s : Marking) : Prop where
  work : s.work = []
  targets : h.targetsIn s.marks s.maps = []

def firstMarking (h : Heap) : Marking := ⟨.empty h.entries.size, h.rooted.reverse, [], 0⟩

/-- The loop reaches its exit with some marks, in a round of the given number. -/
def MarksTo (h : Heap) (m : MarkSet) (rounds : Nat) : Prop :=
  ∃ s, h.Turns h.firstMarking s ∧ h.Finished s ∧ s.marks = m ∧ s.rounds + 1 = rounds

variable {h : Heap} {m m' : MarkSet} {x y : ObjectId} {work work' maps rest : List ObjectId}
  {n r : Nat} {s s' : Marking}

theorem Turn.unique {s₁ s₂ : Marking} (a : h.Turn s s₁) (b : h.Turn s s₂) : s₁ = s₂ := by
  cases a with
  | visit hx =>
    cases b with
    | visit => rfl
    | pass hx' => rw [hx] at hx'; cases hx'
  | pass hx =>
    cases b with
    | visit hx' => rw [hx] at hx'; cases hx'
    | pass => rfl
  | round =>
    cases b
    rfl

theorem Finished.not_turn (hs : h.Finished s) : ¬ h.Turn s s' := by
  obtain ⟨hwork, htargets⟩ := hs
  intro ht
  cases ht with
  | visit => cases hwork
  | pass => cases hwork
  | round hsome => exact hsome htargets

/-- The exit is reached in one way only. -/
theorem MarksTo.unique {r' : Nat} (a : h.MarksTo m r) (b : h.MarksTo m' r') : m = m' ∧ r = r' := by
  obtain ⟨s, hturns, hs, rfl, rfl⟩ := a
  obtain ⟨s', hturns', hs', rfl, rfl⟩ := b
  have hsame : s = s' := by
    have hunique : Relator.RightUnique h.Turn := fun _ _ _ => Turn.unique
    rcases ReflTransGen.total_of_right_unique hunique hturns hturns' with hmore | hmore
    · rcases hmore.cases_head with rfl | ⟨_, hturn, -⟩
      · rfl
      · exact absurd hturn hs.not_turn
    · rcases hmore.cases_head with rfl | ⟨_, hturn, -⟩
      · rfl
      · exact absurd hturn hs'.not_turn
  rw [hsame]
  exact ⟨rfl, rfl⟩

/-! ## What every turn keeps -/

theorem isWeakMap_of_mem {p : ObjectId × Value} (hp : p ∈ h.weakLinks x) :
    h.isWeakMap x = true := by
  rw [weakLinks] at hp
  split at hp
  · next e he =>
    obtain ⟨o, k⟩ := e
    cases o with
    | weakMap entries => rw [isWeakMap, he]
    | _ => exact absurd hp List.not_mem_nil
  · exact absurd hp List.not_mem_nil

/-- What holds wherever the loop may stand: the marks are of reachable objects, nothing that
they keep alive is forgotten, and the list of weak maps is complete. -/
structure Sound (h : Heap) (s : Marking) : Prop where
  size : s.marks.flags.size = h.entries.size
  roots : ∀ x ∈ h.rooted, s.marks.contains x = true ∨ x ∈ s.work
  pending : h.Pending s.marks s.work
  maps : ∀ x, x ∈ s.maps ↔ s.marks.contains x = true ∧ h.isWeakMap x = true
  marked : ∀ x, s.marks.contains x = true → h.Reachable x
  found : ∀ x ∈ s.work, h.contains x = true → h.Reachable x

theorem sound_firstMarking (h : Heap) : h.Sound h.firstMarking where
  size := by simp [firstMarking, MarkSet.empty]
  roots x hx := .inr (List.mem_reverse.2 hx)
  pending x hx := by simp [firstMarking] at hx
  maps x := by simp [firstMarking]
  marked x hx := by simp [firstMarking] at hx
  found x hx _ := by
    obtain ⟨e, he, hr⟩ := mem_rooted.1 (List.mem_reverse.1 hx)
    exact .root he hr

/-- The weak maps that were met lead to the objects to which all marked ones lead. -/
theorem Sound.mem_targetsIn (hs : h.Sound s) :
    y ∈ h.targetsIn s.marks s.maps ↔ y ∈ h.weakTargets s.marks := by
  rw [targetsIn, List.mem_flatMap, mem_weakTargets]
  constructor
  · rintro ⟨map, hmap, hy⟩
    obtain ⟨key, hmem, hkey, hfree⟩ := mem_entryTargets.1 hy
    exact ⟨map, key, ((hs.maps map).1 hmap).1, hmem, hkey, hfree⟩
  · rintro ⟨map, key, hmap, hmem, hkey, hfree⟩
    exact ⟨map, (hs.maps map).2 ⟨hmap, isWeakMap_of_mem hmem⟩,
      mem_entryTargets.2 ⟨key, hmem, hkey, hfree⟩⟩

theorem Sound.targetsIn_eq_nil (hs : h.Sound s) :
    h.targetsIn s.marks s.maps = [] ↔ h.weakTargets s.marks = [] := by
  simp only [List.eq_nil_iff_forall_not_mem, hs.mem_targetsIn]

/-- Numbers that are passed over need not be visited. -/
theorem marked_or_mem_tail (hx : h.isFresh m x = false) (hy : h.contains y = true)
    (hmem : m.contains y = true ∨ y ∈ x :: rest) : m.contains y = true ∨ y ∈ rest := by
  rcases hmem with hm | hmem
  · exact .inl hm
  · rcases List.mem_cons.1 hmem with rfl | hmem
    · exact .inl (by simpa [isFresh, hy] using hx)
    · exact .inr hmem

theorem contains_of_mem_rooted (hx : x ∈ h.rooted) : h.contains x = true := by
  obtain ⟨e, he, -⟩ := mem_rooted.1 hx
  exact contains_of_some he

theorem Sound.turn (hs : h.Sound s) (ht : h.Turn s s') : h.Sound s' := by
  cases ht with
  | @visit m x rest maps n hx =>
    obtain ⟨hin, hfree⟩ := isFresh_iff.1 hx
    have hlt : x.index < m.flags.size := hs.size ▸ lt_of_contains hin
    have hreach : h.Reachable x := hs.found x List.mem_cons_self hin
    -- what was marked or to be visited still is, the object visited among the marks
    have hcovered : ∀ y, m.contains y = true ∨ y ∈ x :: rest →
        (m.insert x).contains y = true ∨ y ∈ (h.strongRefs x).reverse ++ rest := by
      rintro y (hy | hy)
      · exact .inl (MarkSet.contains_insert_of_contains hy)
      · rcases List.mem_cons.1 hy with rfl | hy
        · exact .inl (MarkSet.contains_insert_self hlt)
        · exact .inr (List.mem_append_right _ hy)
    refine ⟨by simpa using hs.size, fun y hy => hcovered y (hs.roots y hy), fun y hy z hz hc => ?_,
      fun y => ?_, fun y hy => ?_, fun y hy hc => ?_⟩
    · rcases MarkSet.eq_or_contains_of_insert hy with rfl | hy
      · exact .inr (List.mem_append_left _ (List.mem_reverse.2 hz))
      · exact hcovered z (hs.pending y hy z hz hc)
    · rw [List.mem_append, hs.maps, List.mem_filter, List.mem_singleton]
      constructor
      · rintro (⟨hy, hmap⟩ | ⟨rfl, hmap⟩)
        · exact ⟨MarkSet.contains_insert_of_contains hy, hmap⟩
        · exact ⟨MarkSet.contains_insert_self hlt, hmap⟩
      · rintro ⟨hy, hmap⟩
        rcases MarkSet.eq_or_contains_of_insert hy with rfl | hy
        · exact .inr ⟨rfl, hmap⟩
        · exact .inl ⟨hy, hmap⟩
    · rcases MarkSet.eq_or_contains_of_insert hy with rfl | hy
      · exact hreach
      · exact hs.marked y hy
    · rcases List.mem_append.1 hy with hy | hy
      · exact .strong hreach (List.mem_reverse.1 hy) hc
      · exact hs.found y (List.mem_cons_of_mem _ hy) hc
  | pass hx =>
    exact ⟨hs.size, fun y hy => marked_or_mem_tail hx (contains_of_mem_rooted hy) (hs.roots y hy),
      fun y hy z hz hc => marked_or_mem_tail hx hc (hs.pending y hy z hz hc), hs.maps, hs.marked,
      fun y hy => hs.found y (List.mem_cons_of_mem _ hy)⟩
  | round _ =>
    refine ⟨hs.size, fun y hy => .inl ((hs.roots y hy).resolve_right List.not_mem_nil),
      hs.pending.mono fun y hy => absurd hy List.not_mem_nil, hs.maps, hs.marked,
      fun y hy hc => ?_⟩
    obtain ⟨map, key, hmap, hmem, hkey, -⟩ :=
      mem_weakTargets.1 (hs.mem_targetsIn.1 (List.mem_reverse.1 hy))
    exact .weak (hs.marked map hmap) hmem (hs.marked key hkey) hc

theorem Sound.turns (hs : h.Sound s) (ht : h.Turns s s') : h.Sound s' := by
  induction ht with
  | refl => exact hs
  | tail _ ht ih => exact ih.turn ht

/-- At the exit the marks are those of the reachable objects. -/
theorem Sound.contains_iff (hs : h.Sound s) (hend : h.Finished s) (x : ObjectId) :
    s.marks.contains x = true ↔ h.Reachable x := by
  obtain ⟨hwork, htargets⟩ := hend
  have hroots := hs.roots
  have hpending := hs.pending
  rw [hwork] at hroots hpending
  exact contains_iff_of_closed (fun y hy => (hroots y hy).resolve_right List.not_mem_nil) hpending
    (hs.targetsIn_eq_nil.1 htargets) hs.marked x

theorem Sound.weaklyClosed (hs : h.Sound s) (hend : h.Finished s) : h.WeaklyClosed :=
  weaklyClosed_of_marks (hs.contains_iff hend) (hs.targetsIn_eq_nil.1 hend.targets)

/-! ## The turns between two rounds -/

/-- The marks `m'` are the least ones with the marks `m` and the work that are closed under
strong references. -/
structure Traversed (h : Heap) (m : MarkSet) (work : List ObjectId) (m' : MarkSet) : Prop where
  mono : ∀ x, m.contains x = true → m'.contains x = true
  visited : ∀ x ∈ work, h.contains x = true → m'.contains x = true
  least : ∀ P : ObjectId → Prop,
    (∀ x y, P x → y ∈ h.strongRefs x → h.contains y = true → P y) →
    (∀ x, m.contains x = true → P x) → (∀ x ∈ work, h.contains x = true → P x) →
    ∀ x, m'.contains x = true → P x

theorem Traversed.nil (h : Heap) (m : MarkSet) : h.Traversed m [] m :=
  ⟨fun _ hx => hx, fun _ hx => absurd hx List.not_mem_nil, fun _ _ hm _ => hm⟩

theorem Traversed.visit (hlt : x.index < m.flags.size) (hin : h.contains x = true)
    (ht : h.Traversed (m.insert x) ((h.strongRefs x).reverse ++ rest) m') :
    h.Traversed m (x :: rest) m' where
  mono y hy := ht.mono y (MarkSet.contains_insert_of_contains hy)
  visited y hy hc := by
    rcases List.mem_cons.1 hy with rfl | hy
    · exact ht.mono y (MarkSet.contains_insert_self hlt)
    · exact ht.visited y (List.mem_append_right _ hy) hc
  least P hstrong hm hwork := by
    have hx : P x := hwork x List.mem_cons_self hin
    refine ht.least P hstrong (fun y hy => ?_) (fun y hy hc => ?_)
    · rcases MarkSet.eq_or_contains_of_insert hy with rfl | hy
      · exact hx
      · exact hm y hy
    · rcases List.mem_append.1 hy with hy | hy
      · exact hstrong x y hx (List.mem_reverse.1 hy) hc
      · exact hwork y (List.mem_cons_of_mem _ hy) hc

theorem Traversed.pass (hx : h.isFresh m x = false) (ht : h.Traversed m rest m') :
    h.Traversed m (x :: rest) m' where
  mono := ht.mono
  visited y hy hc := by
    rcases marked_or_mem_tail hx hc (.inr hy) with hy | hy
    · exact ht.mono y hy
    · exact ht.visited y hy hc
  least P hstrong hm hwork :=
    ht.least P hstrong hm fun y hy => hwork y (List.mem_cons_of_mem _ hy)

/-- The loop comes to the end of its work without another round, for a visit leaves one
unmarked object less. -/
theorem exists_traversed (h : Heap) (m : MarkSet) (work maps : List ObjectId) (n : Nat)
    (hsize : m.flags.size = h.entries.size) :
    ∃ m' maps', h.Turns ⟨m, work, maps, n⟩ ⟨m', [], maps', n⟩ ∧ h.Traversed m work m' := by
  match work with
  | [] => exact ⟨m, maps, ReflTransGen.refl, .nil h m⟩
  | x :: rest =>
    by_cases hx : h.isFresh m x = true
    · obtain ⟨hin, hfree⟩ := isFresh_iff.1 hx
      have hlt : x.index < m.flags.size := hsize ▸ lt_of_contains hin
      have hcount := MarkSet.size_insert hlt hfree
      have hle := (m.insert x).size_le
      rw [MarkSet.size_flags_insert, hsize] at hle
      have hless : h.entries.size - (m.insert x).size < h.entries.size - m.size := by omega
      obtain ⟨m', maps', hturns, ht⟩ := exists_traversed h (m.insert x)
        ((h.strongRefs x).reverse ++ rest) (maps ++ [x].filter h.isWeakMap) n (by simpa using hsize)
      exact ⟨m', maps', ReflTransGen.head (.visit hx) hturns, ht.visit hlt hin⟩
    · rw [Bool.not_eq_true] at hx
      obtain ⟨m', maps', hturns, ht⟩ := exists_traversed h m rest maps n hsize
      exact ⟨m', maps', ReflTransGen.head (.pass hx) hturns, ht.pass hx⟩
termination_by (h.entries.size - m.size, work.length)
decreasing_by
  · exact Prod.Lex.left _ _ hless
  · exact Prod.Lex.right _ (Nat.lt_succ_self _)

/-- A traversal of the same work ends with the same marks. -/
theorem Traversed.eq_visit (ht : h.Traversed m work m') (hclosed : h.Pending m' [])
    (hsize : m.flags.size = h.entries.size) (hsize' : m'.flags.size = h.entries.size)
    (hp : h.Pending m work) (hwork : ∀ x, x ∈ work ↔ x ∈ work') :
    h.visit h.entries.size m work' = m' := by
  have hp' : h.Pending m work' := hp.mono fun x hx => (hwork x).1 hx
  obtain ⟨hvisited, hclosed'⟩ := visit_complete hsize (Nat.le_add_left _ m.size) hp'
  obtain ⟨hflags, hmono⟩ := h.visit_mono h.entries.size m work'
  have hstrong : ∀ {m : MarkSet}, h.Pending m [] → ∀ x y, m.contains x = true →
      y ∈ h.strongRefs x → h.contains y = true → m.contains y = true :=
    fun hc x y hx hy hin => (hc x hx y hy hin).resolve_right List.not_mem_nil
  refine MarkSet.eq_of_contains (hflags.trans (hsize.trans hsize'.symm)) fun x => ?_
  rw [Bool.eq_iff_iff]
  constructor
  · exact visit_sound (P := fun x => m'.contains x = true) (hstrong hclosed) ht.mono
      (fun y hy hc => ht.visited y ((hwork y).2 hy) hc) x
  · exact ht.least _ (hstrong hclosed') hmono (fun y hy hc => hvisited y ((hwork y).1 hy) hc) x

/-! ## The whole loop -/

/-- Where the rounds of `markRounds` end, the loop reaches its exit with the same marks after
as many rounds. -/
theorem turns_of_markRounds (hs : h.Sound ⟨m, work, maps, n⟩) (hwork : ∀ x, x ∈ work ↔ x ∈ work')
    {k : Nat} (hrun : h.markRounds k m work' n = some (m', r)) :
    ∃ s, h.Turns ⟨m, work, maps, n⟩ s ∧ h.Finished s ∧ s.marks = m' ∧ s.rounds + 1 = r := by
  induction k generalizing m work maps n work' with
  | zero => cases hrun
  | succ k ih =>
    obtain ⟨m₁, maps₁, hturns, ht⟩ := exists_traversed h m work maps n hs.size
    have hs₁ := hs.turns hturns
    rw [markRounds, ht.eq_visit hs₁.pending hs.size hs₁.size hs.pending hwork] at hrun
    split at hrun
    · next hnone =>
      obtain ⟨rfl, rfl⟩ := Prod.mk.inj (Option.some.inj hrun)
      exact ⟨_, hturns, ⟨rfl, hs₁.targetsIn_eq_nil.2 hnone⟩, rfl, rfl⟩
    · next hsome =>
      have hround : h.Turn ⟨m₁, [], maps₁, n⟩
          ⟨m₁, (h.targetsIn m₁ maps₁).reverse, maps₁, n + 1⟩ :=
        .round fun hnil => hsome (hs₁.targetsIn_eq_nil.1 hnil)
      obtain ⟨s, hmore, hend⟩ := ih (hs₁.turn hround)
        (fun y => List.mem_reverse.trans hs₁.mem_targetsIn) hrun
      exact ⟨s, (hturns.tail hround).trans hmore, hend⟩

theorem marksTo_of_mark? (hrun : h.mark? = some (m, r)) : h.MarksTo m r :=
  turns_of_markRounds h.sound_firstMarking (fun _ => List.mem_reverse) hrun

/-- If the loop reaches its exit, every reachable entry of a weak map leads to an object. -/
theorem MarksTo.weaklyClosed (hm : h.MarksTo m r) : h.WeaklyClosed := by
  obtain ⟨s, hturns, hend, -, -⟩ := hm
  exact (h.sound_firstMarking.turns hturns).weaklyClosed hend

/-- The marking loop does what `mark?` says. -/
theorem marksTo_iff : h.MarksTo m r ↔ h.mark? = some (m, r) := by
  refine ⟨fun hm => ?_, marksTo_of_mark?⟩
  have hsome := (collect?_isSome_iff h).2 hm.weaklyClosed
  rw [collect?, Option.isSome_map] at hsome
  obtain ⟨⟨m', r'⟩, hrun⟩ := Option.isSome_iff_exists.1 hsome
  obtain ⟨rfl, rfl⟩ := hm.unique (marksTo_of_mark? hrun)
  exact hrun

/-- Every round but the last marks an object. -/
theorem WeaklyClosed.rounds_le (hweak : h.WeaklyClosed) {k : Nat}
    (hsize : m.flags.size = h.entries.size) (hp : h.Pending m work)
    (hm : ∀ x, m.contains x = true → h.Reachable x)
    (hwork : ∀ x ∈ work, h.contains x = true → h.Reachable x)
    (hrun : h.markRounds k m work n = some (m', r)) :
    r + (h.visit h.entries.size m work).size ≤ n + 1 + m'.size := by
  induction k generalizing m work n with
  | zero => cases hrun
  | succ k ih =>
    rw [markRounds] at hrun
    obtain ⟨-, hclosed⟩ := visit_complete hsize (Nat.le_add_left _ m.size) hp
    have hsize' := (h.visit_mono h.entries.size m work).1.trans hsize
    have hmarked : ∀ x, (h.visit h.entries.size m work).contains x = true → h.Reachable x :=
      visit_sound (fun _ _ hx hy hc => .strong hx hy hc) hm hwork
    generalize h.visit h.entries.size m work = m₁ at *
    split at hrun
    · obtain ⟨rfl, rfl⟩ := Prod.mk.inj (Option.some.inj hrun)
      exact Nat.le_refl _
    · next hsome =>
      have hlt := hweak.size_lt_visit hsize' hclosed hmarked hsome
      have hle := ih hsize' (hclosed.mono fun x hx => absurd hx List.not_mem_nil) hmarked
        (fun y hy _ => hweak.reachable_weakTargets hmarked y hy) hrun
      omega

theorem MarksTo.rounds_le (hm : h.MarksTo m r) : r ≤ m.size + 1 := by
  have hle := hm.weaklyClosed.rounds_le h.sound_firstMarking.size
    (fun x hx => absurd hx (by simp [firstMarking])) h.sound_firstMarking.marked
    (fun x hx => h.sound_firstMarking.found x (List.mem_reverse.2 hx)) (marksTo_iff.1 hm)
  omega

/-- The marking loop reaches its exit exactly if no entry of a reachable weak map with a
reachable key leads to a number without an object, and then it has marked the reachable
objects, in at most one round more than there are of them. -/
theorem marking_ends_iff (h : Heap) : ∃ R : Set ObjectId, IsLeast {S | h.Saturated S} R ∧
    ((∃ m r, h.MarksTo m r) ↔ ¬ ∃ map ∈ R, ∃ key ∈ R, ∃ y,
      (key, .object y) ∈ h.weakLinks map ∧ h.contains y = false) ∧
    ∀ m r, h.MarksTo m r → h.mark? = some (m, r) ∧ {x | m.contains x = true} = R ∧
      (r : ℕ∞) ≤ R.encard + 1 := by
  refine ⟨{x | h.Reachable x}, h.isLeast_reachable, ⟨?_, fun hnone => ?_⟩, fun m r hm => ?_⟩
  · rintro ⟨m, r, hm⟩ ⟨map, hmap, key, hkey, y, hmem, hy⟩
    rw [hm.weaklyClosed map key y hmap hmem hkey] at hy
    cases hy
  · have hweak : h.WeaklyClosed := fun map key y hmap hmem hkey => by
      by_contra hy
      exact hnone ⟨map, hmap, key, hkey, y, hmem, by simpa using hy⟩
    have hsome := (collect?_isSome_iff h).2 hweak
    rw [collect?, Option.isSome_map] at hsome
    obtain ⟨⟨m, r⟩, hrun⟩ := Option.isSome_iff_exists.1 hsome
    exact ⟨m, r, marksTo_of_mark? hrun⟩
  · have hrun := marksTo_iff.1 hm
    have hR : {x | m.contains x = true} = {x | h.Reachable x} := Set.ext (mark?_contains_iff hrun)
    refine ⟨hrun, hR, ?_⟩
    rw [← hR, m.encard_contains]
    exact_mod_cast hm.rounds_le

/-- A rooted weak map with an entry for itself that leads to a number without an object. -/
def dangling : Heap :=
  { empty with entries := #[some ⟨.weakMap (.ofList [(⟨0⟩, .object ⟨1⟩)]), 1⟩] }

example : dangling.mark? = none := by decide +kernel

end Heap
end ClosureCache
