/-
Finite maps kept as a list of entries in strictly increasing order of their keys.

The order is visible: the entries of a map are read out by key, and two maps
with the same entries are equal.  That the list is sorted is part of the type,
so no operation has to be trusted to keep it so.

The view of a map is `get?`.  `get?_insert`, `get?_erase` and `get?_filterKeys`
say what each operation does to it.
-/
import ClosureCache.Identity

namespace ClosureCache

/-- Entries in strictly increasing order of their keys. -/
structure SortedMap (κ α : Type) [Ord κ] where
  entries : List (κ × α)
  sorted : entries.Pairwise fun a b => compare a.1 b.1 = .lt

namespace SortedMap

variable {κ α : Type} [Ord κ]

instance [DecidableEq κ] [DecidableEq α] : DecidableEq (SortedMap κ α) := fun a b =>
  decidable_of_iff (a.entries = b.entries) (by cases a; cases b; simp)

instance [Repr κ] [Repr α] : Repr (SortedMap κ α) := ⟨fun m n => reprPrec m.entries n⟩

def empty : SortedMap κ α := ⟨[], .nil⟩

instance : EmptyCollection (SortedMap κ α) := ⟨empty⟩

instance : Inhabited (SortedMap κ α) := ⟨empty⟩

def toList (m : SortedMap κ α) : List (κ × α) := m.entries

def keys (m : SortedMap κ α) : List κ := m.entries.map Prod.fst

def values (m : SortedMap κ α) : List α := m.entries.map Prod.snd

def size (m : SortedMap κ α) : Nat := m.entries.length

def isEmpty (m : SortedMap κ α) : Bool := m.entries.isEmpty

def get? (m : SortedMap κ α) (k : κ) : Option α :=
  (m.entries.find? fun e => compare k e.1 == .eq).map Prod.snd

def contains (m : SortedMap κ α) (k : κ) : Bool := (m.get? k).isSome

def filterKeys (m : SortedMap κ α) (keep : κ → Bool) : SortedMap κ α :=
  ⟨m.entries.filter fun e => keep e.1, m.sorted.filter _⟩

def erase (m : SortedMap κ α) (k : κ) : SortedMap κ α :=
  m.filterKeys fun other => compare k other != .eq

/-- Puts an entry where it belongs in a sorted list, in place of one with the
same key. -/
def place (k : κ) (v : α) : List (κ × α) → List (κ × α)
  | [] => [(k, v)]
  | e :: rest =>
    match compare k e.1 with
    | .lt => (k, v) :: e :: rest
    | .eq => (k, v) :: rest
    | .gt => e :: place k v rest

/-- An entry after placing is the new one or was there before. -/
theorem mem_of_mem_place {k : κ} {v : α} {e : κ × α} {l : List (κ × α)} (h : e ∈ place k v l) :
    e = (k, v) ∨ e ∈ l := by
  induction l with
  | nil => simpa [place] using h
  | cons head rest ih =>
    rw [place] at h
    split at h <;> simp only [List.mem_cons] at h ⊢
    · exact h
    · exact h.imp_right .inr
    · rcases h with h | h
      · exact .inr (.inl h)
      · exact (ih h).imp_right .inr

variable [Std.TransOrd κ] [Std.LawfulEqOrd κ]

/-- Placing an entry keeps a list sorted. -/
theorem pairwise_place {k : κ} {v : α} {l : List (κ × α)}
    (h : l.Pairwise fun a b => compare a.1 b.1 = .lt) :
    (place k v l).Pairwise fun a b => compare a.1 b.1 = .lt := by
  induction l with
  | nil => simp [place]
  | cons head rest ih =>
    have ⟨hhead, hrest⟩ := List.pairwise_cons.1 h
    rw [place]
    split
    · next hlt =>
      refine List.pairwise_cons.2 ⟨fun e he => ?_, h⟩
      rcases List.mem_cons.1 he with rfl | he
      · exact hlt
      · exact Std.TransCmp.lt_trans hlt (hhead e he)
    · next heq =>
      have hk : k = head.1 := Std.LawfulEqOrd.eq_of_compare heq
      exact List.pairwise_cons.2 ⟨fun e he => hk ▸ hhead e he, hrest⟩
    · next hgt =>
      refine List.pairwise_cons.2 ⟨fun e he => ?_, ih hrest⟩
      rcases mem_of_mem_place he with rfl | he
      · exact Std.OrientedCmp.gt_iff_lt.1 hgt
      · exact hhead e he

/-- Holds a value under a key, in place of the one held before. -/
def insert (m : SortedMap κ α) (k : κ) (v : α) : SortedMap κ α :=
  ⟨place k v m.entries, pairwise_place m.sorted⟩

/-- The map of a list of entries; of several with one key the last is kept. -/
def ofList (l : List (κ × α)) : SortedMap κ α := l.foldl (fun m e => m.insert e.1 e.2) empty

/-! ## What the operations do to the view -/

/-- The search for a key after placing an entry. -/
theorem find?_place (k : κ) (v : α) (j : κ) (l : List (κ × α)) :
    (place k v l).find? (fun e => compare j e.1 == .eq) =
      if compare j k = .eq then some (k, v) else l.find? fun e => compare j e.1 == .eq := by
  induction l with
  | nil => by_cases hj : compare j k = .eq <;> simp [place, hj]
  | cons head rest ih =>
    rw [place]
    split
    · by_cases hj : compare j k = .eq <;> simp [List.find?_cons, hj]
    · next heq =>
      have hk : k = head.1 := Std.LawfulEqOrd.eq_of_compare heq
      by_cases hj : compare j k = .eq
      · simp [hj]
      · simp [hj, hk ▸ hj]
    · next hgt =>
      by_cases hj : compare j head.1 = .eq
      · have hne : compare j k ≠ .eq := by
          rw [Std.LawfulEqOrd.eq_of_compare hj, Std.OrientedOrd.eq_swap, hgt]
          decide
        simp [hj, hne]
      · simp [hj, ih]

/-- A key reads the value inserted last under it. -/
theorem get?_insert (m : SortedMap κ α) (k : κ) (v : α) (j : κ) :
    (m.insert k v).get? j = if compare j k = .eq then some v else m.get? j := by
  simp only [get?, insert, find?_place]
  split <;> rfl

omit [Std.TransOrd κ] in
/-- A filter on keys hides exactly the keys that fail it. -/
theorem get?_filterKeys (m : SortedMap κ α) (keep : κ → Bool) (j : κ) :
    (m.filterKeys keep).get? j = if keep j then m.get? j else none := by
  have hkey (e : κ × α) (he : compare j e.1 = .eq) : keep e.1 = keep j :=
    congrArg keep (Std.LawfulEqOrd.eq_of_compare he).symm
  simp only [get?, filterKeys, List.find?_filter]
  by_cases h : keep j = true
  · simp only [h, if_true]
    congr 2
    funext e
    by_cases he : compare j e.1 = .eq
    · simp [he, hkey e he, h]
    · simp [he]
  · rw [if_neg h, List.find?_eq_none.2]
    · rfl
    · intro e _ he
      simp only [beq_iff_eq, decide_eq_true_eq] at he
      exact h (hkey e he.2 ▸ he.1)

omit [Std.TransOrd κ] in
/-- An erased key holds nothing, and every other key is left alone. -/
theorem get?_erase (m : SortedMap κ α) (k j : κ) :
    (m.erase k).get? j = if compare k j = .eq then none else m.get? j := by
  rw [erase, get?_filterKeys]
  by_cases h : compare k j = .eq <;> simp [h]

end SortedMap

end ClosureCache
