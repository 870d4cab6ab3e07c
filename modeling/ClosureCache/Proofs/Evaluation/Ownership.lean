/-
The cells of environments.

A new environment has a cell of its own for each of its bindings that is kept in one.  No
step writes another cell to the slot, so every such cell has one owner for good: a slot of
one environment.  `Owned` is the invariant, for an assignment of owners that only grows.
-/
import ClosureCache.Proofs.Evaluation.Sealing

namespace ClosureCache

/-- The owners of cells: environments, with the number of a slot. -/
abbrev Owners := ObjectId → Option (ObjectId × Nat)

def Owners.Le (owners owners' : Owners) : Prop := ∀ c p, owners c = some p → owners' c = some p

/-- The owners, with those of the cells in the slots of an environment that comes after
`n` objects. -/
def Owners.extend (owners : Owners) (n : Nat) (x : ObjectId) (slots : List (Option Value)) :
    Owners := fun c =>
  if c.index < n then owners c
  else (slots.findIdx? fun raw => raw == some (.object c)).map fun i => (x, i)

section Owners

variable {owners : Owners} {n : Nat} {x c : ObjectId} {slots : List (Option Value)}

theorem Owners.extend_of_lt (hc : c.index < n) : owners.extend n x slots c = owners c := if_pos hc

theorem Owners.extend_eq_some {p : ObjectId × Nat} (hp : owners.extend n x slots c = some p) :
    owners c = some p ∨ ∃ i, p = (x, i) ∧ slots[i]? = some (some (.object c)) := by
  rw [extend] at hp
  split at hp
  · exact .inl hp
  · obtain ⟨i, hi, rfl⟩ := Option.map_eq_some_iff.1 hp
    obtain ⟨hlt, heq, -⟩ := List.findIdx?_eq_some_iff_getElem.1 hi
    exact .inr ⟨i, rfl, by rw [List.getElem?_eq_getElem hlt, beq_iff_eq.1 heq]⟩

/-- A new cell that one slot holds belongs to that slot. -/
theorem Owners.extend_of_slot (hc : n ≤ c.index) {i : Nat}
    (hi : slots[i]? = some (some (.object c)))
    (hone : ∀ j : Nat, slots[j]? = some (some (.object c)) → j = i) :
    owners.extend n x slots c = some (x, i) := by
  rw [extend, if_neg (Nat.not_lt_of_le hc)]
  have hfind : (slots.findIdx? fun raw => raw == some (Value.object c)).isSome = true := by
    rw [List.findIdx?_isSome, List.any_eq_true]
    exact ⟨_, List.mem_of_getElem? hi, beq_self_eq_true _⟩
  obtain ⟨j, hj⟩ := Option.isSome_iff_exists.1 hfind
  obtain ⟨hlt, heq, -⟩ := List.findIdx?_eq_some_iff_getElem.1 hj
  have hslot : slots[j]? = some (some (.object c)) := by
    rw [List.getElem?_eq_getElem hlt, beq_iff_eq.1 heq]
  rw [hj, hone j hslot]
  rfl

end Owners

/-- The slots of bindings with cells hold cells that belong to them. -/
def Environment.Owns (tree : ScopeTree) (owners : Owners) (x : ObjectId) (e : Environment) :
    Prop :=
  ∀ b d, tree.binding? b = some d → d.scope = e.scope → d.storage = .cell →
    ∃ c, e.slots[d.slot]? = some (some (.object c)) ∧ owners c = some (x, d.slot)

/-- No new environments, and writes that leave the slots of bindings with cells alone. -/
def Effects.sparingCells (tree : ScopeTree) (makes : FunctionObject → Prop) : Effects where
  writes _ e e' := ∀ b d, tree.binding? b = some d → d.scope = e.scope → d.storage = .cell →
    e'.slots[d.slot]? = e.slots[d.slot]?
  opens _ := False
  makes := makes
  refl _ _ _ _ _ _ _ := rfl
  trans _ _ _ _ hsame hw hw' b d hd hscope hcell :=
    (hw' b d hd (hscope.trans hsame.scope.symm) hcell).trans (hw b d hd hscope hcell)
  opens_of_writes _ _ _ _ hopens := hopens.elim

namespace Heap

variable {image : Image} {tree : ScopeTree} {owners : Owners}
  {makes : FunctionObject → Prop} {h h' : Heap}

/-- Every cell in the slot of an environment belongs to it. -/
structure Owned (tree : ScopeTree) (owners : Owners) (h : Heap) : Prop where
  lt : ∀ c p, owners c = some p → c.index < h.entries.size
  environment : ∀ x e, h.environment x = .ok e → e.Owns tree owners x

theorem owned_empty (tree : ScopeTree) : Heap.empty.Owned tree fun _ => none where
  lt _ _ hp := by cases hp
  environment x e he := by
    have hlt := lt_of_contains (contains_of_environment he)
    exact absurd hlt (Nat.not_lt_zero _)

theorem Owned.lasts (ho : h.Owned tree owners) (hl : h.Lasts (.sparingCells tree makes) h') :
    h'.Owned tree owners where
  lt c p hp := Nat.lt_of_lt_of_le (ho.lt c p hp) hl.size_le
  environment x e' he' b d hd hscope hcell := by
    rcases hl.opened x e' he' with ⟨e, he⟩ | ⟨-, hopens⟩
    · obtain ⟨e₁, he₁, hsame, hwrites⟩ := hl.environment x e (contains_of_environment he') he
      obtain rfl := Except.ok.inj (he'.symm.trans he₁)
      have hscope := hscope.trans hsame.scope
      obtain ⟨c, hc, howner⟩ := ho.environment x e he b d hd hscope hcell
      exact ⟨c, (hwrites b d hd hscope hcell).trans hc, howner⟩
    · exact hopens.elim

/-- Writing a binding without a cell leaves the slots of the others alone. -/
theorem writable_of_slot (ht : tree.Proper) {b : BindingId} {d : Binding}
    (hd : tree.binding? b = some d) (hstorage : d.storage = .slot) (env : ObjectId) :
    h.Writable (.sparingCells tree makes) tree env b := by
  intro x i e v hlocate he b' d' hd' hscope' hcell
  obtain ⟨target, htarget, hlocate⟩ := locate_eq_some hlocate
  obtain rfl := Option.some.inj (hd.symm.trans htarget)
  rcases locateFrom_eq_some hlocate with ⟨y, e', heq, he', hscope⟩ | ⟨g, j, _, _, _, _, heq, -⟩
  · obtain ⟨rfl, rfl⟩ := Location.slot.inj heq
    obtain rfl := Except.ok.inj (he.symm.trans he')
    show (e.slots.setIfInBounds d.slot (some v))[d'.slot]? = e.slots[d'.slot]?
    refine Array.getElem?_setIfInBounds_ne fun hslot => ?_
    obtain rfl := ht.eq_of_slot hd hd' (hscope.symm.trans hscope'.symm) hslot
    obtain rfl := Option.some.inj (hd.symm.trans hd')
    rw [hstorage] at hcell
    cases hcell
  · cases heq

theorem lasts_writeBinding_sparingCells (ht : tree.Proper) (env : ObjectId) (b : BindingId)
    (name : String) (v : Value) :
    h.Lasts (.sparingCells tree makes) (writeBinding tree env b name v h).2 :=
  lasts_writeBinding_of_slot (fun _ hd hstorage => writable_of_slot ht hd hstorage env) name v

/-! ## New environments -/

/-- A cell that a slot starts out with is new. -/
theorem initialSlot_fresh {b : BindingId} {c : ObjectId}
    (hrun : initialSlot tree b h = (.ok (some (.object c)), h')) :
    c.index = h.entries.size ∧ h'.entries.size = h.entries.size + 1 := by
  obtain ⟨d, h₁, hask, hrun⟩ := HeapM.bind_eq_ok hrun
  obtain ⟨-, rfl⟩ := Prod.mk.inj hask
  cases hstorage : d.storage with
  | slot =>
    rw [hstorage] at hrun
    have hraw := Except.ok.inj (Prod.mk.inj hrun).1
    split at hraw <;> cases hraw
  | cell =>
    rw [hstorage] at hrun
    obtain ⟨hraw, rfl⟩ := Prod.mk.inj hrun
    obtain rfl := Value.object.inj (Option.some.inj (Except.ok.inj hraw))
    exact ⟨rfl, by simp⟩

section InitialSlots

variable {bs : List BindingId} {slots : List (Option Value)} {i j : Nat} {c : ObjectId}

theorem initialSlots_fresh (hrun : initialSlots tree bs h = (.ok slots, h'))
    (hi : slots[i]? = some (some (.object c))) :
    h.entries.size ≤ c.index ∧ c.index < h'.entries.size := by
  induction bs generalizing h i slots with
  | nil =>
    obtain rfl := Except.ok.inj (Prod.mk.inj hrun).1
    cases hi
  | cons b rest ih =>
    obtain ⟨raw, h₁, hslot, hrun⟩ := HeapM.bind_eq_ok hrun
    obtain ⟨slots', h₂, hrest, hrun⟩ := HeapM.bind_eq_ok hrun
    obtain ⟨heq, rfl⟩ := Prod.mk.inj hrun
    obtain rfl := Except.ok.inj heq
    cases i with
    | zero =>
      obtain rfl := Option.some.inj hi
      obtain ⟨hindex, hsize⟩ := initialSlot_fresh hslot
      have hle := (lasts_initialSlots (R := .any) (h := h₁) tree rest).size_le
      rw [hrest] at hle
      dsimp only at hle
      omega
    | succ i =>
      have hle := HeapM.Keeps.initialSlot (T := .keepingRoles) tree b h
      rw [hslot] at hle
      obtain ⟨hge, hlt⟩ := ih hrest hi
      exact ⟨Nat.le_trans hle.size_le hge, hlt⟩

/-- No two slots start out with the same cell. -/
theorem initialSlots_injective (hrun : initialSlots tree bs h = (.ok slots, h'))
    (hi : slots[i]? = some (some (.object c))) (hj : slots[j]? = some (some (.object c))) :
    i = j := by
  induction bs generalizing h i j slots with
  | nil =>
    obtain rfl := Except.ok.inj (Prod.mk.inj hrun).1
    cases hi
  | cons b rest ih =>
    obtain ⟨raw, h₁, hslot, hrun⟩ := HeapM.bind_eq_ok hrun
    obtain ⟨slots', h₂, hrest, hrun⟩ := HeapM.bind_eq_ok hrun
    obtain ⟨heq, rfl⟩ := Prod.mk.inj hrun
    obtain rfl := Except.ok.inj heq
    -- the first cell is older than those behind it
    have hne : ∀ {k : Nat}, slots'[k]? = some (some (.object c)) →
        raw ≠ some (Value.object c) := by
      rintro k hk rfl
      obtain ⟨hindex, hsize⟩ := initialSlot_fresh hslot
      have hge := (initialSlots_fresh hrest hk).1
      omega
    cases i with
    | zero =>
      cases j with
      | zero => rfl
      | succ j => exact absurd (Option.some.inj hi) (hne hj)
    | succ i =>
      cases j with
      | zero => exact absurd (Option.some.inj hj) (hne hi)
      | succ j => rw [ih hrest hi hj]

end InitialSlots

/-- A new environment comes with owners for its cells. -/
theorem Owned.newEnvironment (ho : h.Owned image.tree owners) (ht : image.tree.Proper)
    (scope : ScopeId) (outer : Enclosure) (this : Option Value) :
    ∃ owners', owners.Le owners' ∧
      (Heap.newEnvironment image.tree scope outer this h).2.Owned image.tree owners' := by
  have hsame : ∀ {h'}, h.Lasts (.sparingCells image.tree fun _ => True) h' →
      ∃ owners', owners.Le owners' ∧ h'.Owned image.tree owners' := fun hl =>
    ⟨owners, fun _ _ hp => hp, ho.lasts hl⟩
  rw [Heap.newEnvironment]
  refine HeapM.ends_bind (P := fun h' => ∃ owners', owners.Le owners' ∧ h'.Owned image.tree owners')
    (hsame (.refl ..)) fun sc h₁ hask => ?_
  obtain ⟨hsc, rfl⟩ := Prod.mk.inj hask
  have hslots := lasts_initialSlots (R := .sparingCells image.tree fun _ => True) (h := h)
    image.tree sc.bindings.toList
  refine HeapM.ends_bind (P := fun h' => ∃ owners', owners.Le owners' ∧ h'.Owned image.tree owners')
    (hsame hslots) fun slots h₁ hrun => ?_
  rw [hrun] at hslots
  refine ⟨owners.extend h.entries.size ⟨h₁.entries.size⟩ slots,
    fun c p hp => (Owners.extend_of_lt (ho.lt c p hp)).trans hp, fun c p hp => ?_,
    fun x e he b d hd hscope hcell => ?_⟩
  · have hsize : h.entries.size ≤ h₁.entries.size := hslots.size_le
    rcases Owners.extend_eq_some hp with hold | ⟨i, -, hi⟩
    · have hlt := ho.lt c p hold
      simp only [HeapM.change, size_allocate]
      omega
    · have hlt := (initialSlots_fresh hrun hi).2
      simp only [HeapM.change, size_allocate]
      omega
  · by_cases hx : x = ⟨h₁.entries.size⟩
    · subst hx
      obtain rfl := Object.environment.inj
        (Except.ok.inj ((environment_eq_ok.1 he).symm.trans (object_allocate_self h₁ _)))
      obtain ⟨-, sc', hsc', hb⟩ := ht.placed b d hd
      have hsc := ScopeTree.scope_eq_ok.1 (Except.mapError_eq_ok.1 hsc)
      obtain rfl : sc = sc' := by
        rw [hscope, hsc] at hsc'
        exact Option.some.inj hsc'
      rw [← Array.getElem?_toList] at hb
      obtain ⟨raw, hraw, -⟩ := initialSlots_eq_ok hrun hb hd
      obtain ⟨b', d', hb', hd', hseals⟩ := initialSlots_seals hrun hraw
      obtain rfl := Option.some.inj (hb.symm.trans hb')
      obtain rfl := Option.some.inj (hd.symm.trans hd')
      rw [Binding.Seals, hcell] at hseals
      obtain ⟨c, rfl, -⟩ := hseals
      refine ⟨c, by rwa [List.getElem?_toArray], ?_⟩
      exact Owners.extend_of_slot (initialSlots_fresh hrun hraw).1 hraw
        fun j hj => initialSlots_injective hrun hj hraw
    · have hold : h₁.environment x = .ok e := by
        rw [environment_eq_ok, ← environment_eq_ok.1 he]
        exact (object_allocate_of_ne _ hx).symm
      obtain ⟨c, hc, howner⟩ := (ho.lasts hslots).environment x e hold b d hd hscope hcell
      exact ⟨c, hc, (Owners.extend_of_lt (ho.lt c _ howner)).trans howner⟩

end Heap

end ClosureCache
