/-
The entries of a sorted map and its view.

The list of entries holds no key twice, and holds exactly what `get?` reads.  Two
maps with the same view therefore have the same number of entries.
-/
import Mathlib.Data.List.Induction
import Mathlib.Data.List.Nodup
import ClosureCache.SortedMap

namespace ClosureCache
namespace SortedMap

variable {κ α : Type} [Ord κ] [Std.LawfulEqOrd κ]

theorem compare_ne_eq {a b : κ} (h : compare a b = .lt) : a ≠ b := by
  rintro rfl
  rw [Std.ReflOrd.compare_self] at h
  exact absurd h (by decide)

theorem nodup_keys (m : SortedMap κ α) : m.keys.Nodup := by
  rw [keys, List.Nodup, List.pairwise_map]
  exact m.sorted.imp compare_ne_eq

/-- Two entries with one key are one entry. -/
theorem eq_of_mem_toList {m : SortedMap κ α} {k : κ} {v w : α} (hv : (k, v) ∈ m.toList)
    (hw : (k, w) ∈ m.toList) : v = w := by
  obtain ⟨entries, hsorted⟩ := m
  change (k, v) ∈ entries at hv
  change (k, w) ∈ entries at hw
  induction entries with
  | nil => exact absurd hv (by simp)
  | cons e rest ih =>
    obtain ⟨hhead, hrest⟩ := List.pairwise_cons.1 hsorted
    rcases List.mem_cons.1 hv with hv | hv <;> rcases List.mem_cons.1 hw with hw | hw
    · exact (Prod.mk.inj (hv.trans hw.symm)).2
    · exact absurd rfl (compare_ne_eq (hv ▸ hhead _ hw))
    · exact absurd rfl (compare_ne_eq (hw ▸ hhead _ hv))
    · exact ih hrest hv hw

/-- The list of entries holds what the view reads. -/
theorem mem_toList_iff {m : SortedMap κ α} {k : κ} {v : α} :
    (k, v) ∈ m.toList ↔ m.get? k = some v := by
  constructor
  · intro hmem
    rw [get?, Option.map_eq_some_iff]
    have hsome : (m.entries.find? fun e => compare k e.1 == .eq).isSome = true := by
      rw [List.find?_isSome]
      exact ⟨(k, v), hmem, by simp⟩
    obtain ⟨e, he⟩ := Option.isSome_iff_exists.1 hsome
    have hkey : k = e.1 := Std.LawfulEqOrd.eq_of_compare (by simpa using List.find?_some he)
    have hin : (k, e.2) ∈ m.toList := hkey ▸ List.mem_of_find?_eq_some he
    exact ⟨e, he, eq_of_mem_toList hin hmem⟩
  · intro hget
    rw [get?, Option.map_eq_some_iff] at hget
    obtain ⟨e, he, rfl⟩ := hget
    have hkey : k = e.1 := Std.LawfulEqOrd.eq_of_compare (by simpa using List.find?_some he)
    exact hkey ▸ List.mem_of_find?_eq_some he

theorem mem_values_iff {m : SortedMap κ α} {v : α} : v ∈ m.values ↔ ∃ k, m.get? k = some v := by
  rw [values, List.mem_map]
  constructor
  · rintro ⟨⟨k, v⟩, hmem, rfl⟩
    exact ⟨k, mem_toList_iff.1 hmem⟩
  · rintro ⟨k, hk⟩
    exact ⟨(k, v), mem_toList_iff.2 hk, rfl⟩

omit [Std.LawfulEqOrd κ] in
theorem mem_values_filterKeys {m : SortedMap κ α} {keep : κ → Bool} {v : α}
    (h : v ∈ (m.filterKeys keep).values) : v ∈ m.values := by
  obtain ⟨e, he, rfl⟩ := List.mem_map.1 h
  exact List.mem_map.2 ⟨e, (List.mem_filter.1 he).1, rfl⟩

theorem isEmpty_iff {m : SortedMap κ α} : m.isEmpty = true ↔ ∀ k, m.get? k = none := by
  rw [isEmpty, List.isEmpty_iff]
  constructor
  · intro h k
    rw [get?, h]
    rfl
  · intro h
    rw [List.eq_nil_iff_forall_not_mem]
    rintro ⟨k, v⟩ hmem
    exact absurd (h k) (by simp [mem_toList_iff.1 hmem])

/-- A list that holds every key once and exactly what the view reads is as long as
the map is large. -/
theorem size_eq_length {m : SortedMap κ α} {l : List (κ × α)} (hl : (l.map Prod.fst).Nodup)
    (hmem : ∀ k v, (k, v) ∈ l ↔ m.get? k = some v) : m.size = l.length := by
  have hnodup : l.Nodup := List.Nodup.of_map _ hl
  have hnodup' : m.toList.Nodup := List.Nodup.of_map _ m.nodup_keys
  refine Nat.le_antisymm (List.Nodup.length_le_of_subset hnodup' ?_)
    (List.Nodup.length_le_of_subset hnodup ?_)
  · rintro ⟨k, v⟩ h
    exact (hmem k v).2 (mem_toList_iff.1 h)
  · rintro ⟨k, v⟩ h
    exact mem_toList_iff.2 ((hmem k v).1 h)

/-! ## The map of a list -/

variable [Std.TransOrd κ]

theorem get?_insert_self (m : SortedMap κ α) (k : κ) (v : α) : (m.insert k v).get? k = some v := by
  rw [get?_insert, if_pos Std.ReflOrd.compare_self]

theorem get?_insert_of_ne (m : SortedMap κ α) {j k : κ} (v : α) (hj : j ≠ k) :
    (m.insert k v).get? j = m.get? j := by
  rw [get?_insert, if_neg fun h => hj (Std.LawfulEqOrd.eq_of_compare h)]

/-- What the view of a map reads after an insertion was inserted or there before. -/
theorem get?_insert_cases {m : SortedMap κ α} {j k : κ} {v w : α}
    (h : (m.insert k v).get? j = some w) : j = k ∧ w = v ∨ m.get? j = some w := by
  rw [get?_insert] at h
  split at h
  · next hj => exact .inl ⟨Std.LawfulEqOrd.eq_of_compare hj, (Option.some.inj h).symm⟩
  · exact .inr h

theorem mem_values_insert {m : SortedMap κ α} {k : κ} {v w : α}
    (h : w ∈ (m.insert k v).values) : w = v ∨ w ∈ m.values := by
  obtain ⟨j, hj⟩ := mem_values_iff.1 h
  rcases get?_insert_cases hj with ⟨-, rfl⟩ | hold
  · exact .inl rfl
  · exact .inr (mem_values_iff.2 ⟨j, hold⟩)

theorem ofList_concat (l : List (κ × α)) (e : κ × α) :
    ofList (l ++ [e]) = (ofList l).insert e.1 e.2 := by
  rw [ofList, List.foldl_append]
  rfl

theorem mem_of_get?_ofList {l : List (κ × α)} {k : κ} {v : α}
    (h : (ofList l).get? k = some v) : (k, v) ∈ l := by
  induction l using List.reverseRecOn with
  | nil => cases h
  | append_singleton l e ih =>
    rw [ofList_concat] at h
    rcases get?_insert_cases h with ⟨rfl, rfl⟩ | h
    · exact List.mem_append_right _ (List.mem_singleton.2 rfl)
    · exact List.mem_append_left _ (ih h)

theorem get?_ofList_of_mem {l : List (κ × α)} (hl : (l.map Prod.fst).Nodup) {k : κ} {v : α}
    (h : (k, v) ∈ l) : (ofList l).get? k = some v := by
  induction l using List.reverseRecOn with
  | nil => exact absurd h List.not_mem_nil
  | append_singleton l e ih =>
    rw [List.map_append, List.nodup_append] at hl
    obtain ⟨hl, -, hdisjoint⟩ := hl
    rw [ofList_concat]
    rcases List.mem_append.1 h with h | h
    · rw [get?_insert_of_ne, ih hl h]
      exact hdisjoint k (List.mem_map_of_mem h) e.1 (List.mem_singleton.2 rfl)
    · obtain rfl := List.mem_singleton.1 h
      exact get?_insert_self _ _ _

end SortedMap
end ClosureCache
