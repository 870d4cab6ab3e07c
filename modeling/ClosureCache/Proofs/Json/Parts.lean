/-
Taking apart the JSON values that are written.

`depth` is the number of arrays and objects that stand inside each other in a value.
For each way in which a value is put together there is a lemma that says what its
reader finds there, given what the readers of the parts find.
-/
import ClosureCache.Json.Decode

namespace ClosureCache
namespace Json

/-! ## Depth -/

mutual

def depth : Json → Nat
  | array items => itemsDepth items + 1
  | object members => membersDepth members + 1
  | _ => 0

def itemsDepth : List Json → Nat
  | [] => 0
  | item :: items => max item.depth (itemsDepth items)

def membersDepth : List (Option String × Json) → Nat
  | [] => 0
  | (_, value) :: members => max value.depth (membersDepth members)

end

theorem depth_array_le {items : List Json} {n : Nat} :
    (array items).depth ≤ n ↔ ∃ k, n = k + 1 ∧ ∀ item ∈ items, item.depth ≤ k := by
  have hitems : ∀ k, itemsDepth items ≤ k ↔ ∀ item ∈ items, item.depth ≤ k := fun k => by
    induction items with
    | nil => simp [itemsDepth]
    | cons item items ih => rw [itemsDepth, Nat.max_le, ih, List.forall_mem_cons]
  rw [depth]
  constructor
  · intro h
    exact ⟨n - 1, by omega, (hitems _).1 (by omega)⟩
  · rintro ⟨k, rfl, h⟩
    exact Nat.succ_le_succ ((hitems k).2 h)

theorem depth_record_le {members : List (String × Json)} {n : Nat} :
    (record members).depth ≤ n ↔ ∃ k, n = k + 1 ∧ ∀ m ∈ members, m.2.depth ≤ k := by
  have hmembers : ∀ k, membersDepth (members.map fun m => (some m.1, m.2)) ≤ k ↔
      ∀ m ∈ members, m.2.depth ≤ k := fun k => by
    induction members with
    | nil => simp [membersDepth]
    | cons m members ih =>
      rw [List.map_cons, membersDepth, Nat.max_le, ih, List.forall_mem_cons]
  rw [record, depth]
  constructor
  · intro h
    exact ⟨n - 1, by omega, (hmembers _).1 (by omega)⟩
  · rintro ⟨k, rfl, h⟩
    exact Nat.succ_le_succ ((hmembers k).2 h)

theorem depth_case_le {name : String} {contents : Json} {n : Nat} :
    (case name contents).depth ≤ n ↔ ∃ k, n = k + 1 ∧ contents.depth ≤ k := by
  rw [case, depth_record_le]
  simp

/-- A part that may be missing takes no more room than one that is there. -/
theorem depth_nullable_le {α : Type} {f : α → Json} {x : Option α} {n : Nat} :
    (nullable f x).depth ≤ n ↔ ∀ a ∈ x, (f a).depth ≤ n := by
  cases x <;> simp [nullable, depth]

/-! ## Records -/

section Records

variable {α β γ : Type} {members : List (String × Json)}

/-- In a record whose names differ each name has its value. -/
theorem member?_of_mem (hnodup : (members.map Prod.fst).Nodup) {m : String × Json}
    (hm : m ∈ members) :
    member? (members.map fun m => (some m.1, m.2)) m.1 = some (some m.2) := by
  have hfilter : (members.map fun m => (some m.1, m.2)).filter (fun m' => m'.1 == some m.1) =
      [(some m.1, m.2)] := by
    induction members with
    | nil => exact absurd hm (by simp)
    | cons m' members ih =>
      rw [List.map_cons, List.nodup_cons] at hnodup
      have hrest : ∀ m₁ : String × Json, m₁.1 ∉ members.map Prod.fst →
          (members.map fun m => (some m.1, m.2)).filter (fun m' => m'.1 == some m₁.1) = [] := by
        intro m₁ hm₁
        rw [List.filter_eq_nil_iff]
        intro x hx
        obtain ⟨m₂, hm₂, rfl⟩ := List.mem_map.1 hx
        simp only [beq_iff_eq, Option.some.injEq]
        exact fun he => hm₁ (he ▸ List.mem_map_of_mem hm₂)
      rcases List.mem_cons.1 hm with rfl | hm
      · rw [List.map_cons, List.filter_cons_of_pos (by simp), hrest m hnodup.1]
      · have hne : m'.1 ≠ m.1 := fun he => hnodup.1 (he ▸ List.mem_map_of_mem hm)
        rw [List.map_cons, List.filter_cons_of_neg (by simpa using hne), ih hnodup.2 hm]
  rw [member?, hfilter]

/-- A record is taken apart by the names of its fields. -/
theorem fields?_record (members : List (String × Json)) (hnodup : (members.map Prod.fst).Nodup) :
    (record members).fields? (members.map Prod.fst) = some (members.map fun m => some m.2) := by
  have hall : (members.map fun m => (some m.1, m.2)).all (fun m => m.1.isSome) = true := by
    simp
  rw [record, fields?, if_pos hall]
  suffices ∀ l ⊆ members, (l.map Prod.fst).mapM
      (member? (members.map fun m => (some m.1, m.2))) = some (l.map fun m => some m.2) from
    this members (List.Subset.refl _)
  intro l hl
  induction l with
  | nil => rfl
  | cons m l ih =>
    rw [List.cons_subset] at hl
    rw [List.map_cons, List.mapM_cons, member?_of_mem hnodup hl.1, ih hl.2]
    rfl

variable {f : Json → Option α} {g : Json → Option β} {k : Json → Option γ} {a : Json} {x : α}
  {b : Json} {y : β} {c : Json} {z : γ} {name name' name'' : String}

theorem record1?_record (hx : f a = some x) : (record [(name, a)]).record1? name f = some x := by
  have hfields := fields?_record [(name, a)] (by simp)
  rw [List.map_singleton, List.map_singleton] at hfields
  rw [record1?, hfields]
  exact hx

theorem record2?_record (hne : name ≠ name') (hx : f a = some x) (hy : g b = some y) :
    (record [(name, a), (name', b)]).record2? name f name' g = some (x, y) := by
  have hfields := fields?_record [(name, a), (name', b)] (by simpa using hne)
  simp only [List.map_cons, List.map_nil] at hfields
  rw [record2?, hfields]
  simp only [required?, Option.bind_some, hx, hy]
  rfl

theorem record3?_record (hnodup : [name, name', name''].Nodup) (hx : f a = some x)
    (hy : g b = some y) (hz : k c = some z) :
    (record [(name, a), (name', b), (name'', c)]).record3? name f name' g name'' k =
      some (x, y, z) := by
  have hfields := fields?_record [(name, a), (name', b), (name'', c)] hnodup
  simp only [List.map_cons, List.map_nil] at hfields
  rw [record3?, hfields]
  simp only [required?, Option.bind_some, hx, hy, hz]
  rfl

end Records

/-! ## Parts -/

section Parts

variable {α : Type} {f : Json → Option α} {g : α → Json}

/-- A part that may be missing is read back where the part itself is, if `null` is no
form of the part. -/
theorem asNullable?_nullable (hnull : f null = none) {x : Option α}
    (hx : ∀ a ∈ x, f (g a) = some a) : asNullable? f (nullable g x) = some x := by
  cases x with
  | none => rfl
  | some a =>
    have ha := hx a rfl
    rw [nullable, asNullable?, ha]
    · rfl
    · intro he
      rw [he, hnull] at ha
      exact absurd ha (by simp)

/-- A list is read back where its items are. -/
theorem asList?_map {l : List α} (hl : ∀ a ∈ l, f (g a) = some a) :
    asList? f (array (l.map g)) = some l := by
  rw [asList?]
  induction l with
  | nil => rfl
  | cons a l ih =>
    rw [List.forall_mem_cons] at hl
    rw [List.map_cons, List.mapM_cons, hl.1, ih hl.2]
    rfl

theorem asString?_str (s : String) : asString? (str s) = some s := rfl

theorem asNatBelow?_nat {bound n : Nat} (hn : n < bound) : asNatBelow? bound (nat n) = some n :=
  if_pos hn

theorem asInt64?_int (n : Int64) : asInt64? (int n.toInt) = some n := by
  have hlow := n.le_toInt
  have hhigh := n.toInt_lt
  rw [int]
  rcases Int.lt_or_le n.toInt 0 with hneg | hpos
  · rw [decide_eq_true hneg, asInt64?, if_pos (by omega)]
    rw [show (-(n.toInt.natAbs : Int)) = n.toInt by omega, Int64.ofInt_toInt]
  · rw [decide_eq_false (by omega), asInt64?, if_pos (by omega), ← Int64.ofInt_eq_ofNat,
      show ((n.toInt.natAbs : Nat) : Int) = n.toInt by omega, Int64.ofInt_toInt]

end Parts

end Json
end ClosureCache
