/-
The roles of objects.

An object stands for a value of the program, or it serves the machine: as the cell of a
binding, as an environment of a scope, or as a part of a cache.  A number is not used
again and no step gives an object another role, so a number that stood for an object in
one role never stands for an object in another.
-/
import ClosureCache.Proofs.Heap.Reachability
import ClosureCache.Proofs.Cache.Change

namespace ClosureCache

/-- What an object is there for. -/
inductive Role where
  /-- It is a value of the program. -/
  | value
  | cell
  | environment (scope : ScopeId)
  /-- Caches are built from it. -/
  | part
deriving DecidableEq

def Object.role : Object → Role
  | cell _ => .cell
  | environment e => .environment e.scope
  | tuple _ => .part
  | strongMap _ => .part
  | weakMap _ => .part
  | _ => .value

theorem Object.role_eq_part {o : Object} : o.role = .part ↔ o.isPart = true := by
  cases o <;> simp [role, isPart]

theorem Object.role_pruneWeak (keep : MarkSet) (o : Object) :
    (Heap.pruneWeak keep o).role = o.role := by
  cases o <;> rfl

namespace Heap

variable {h h₁ h' : Heap} {x : ObjectId} {r : Role}

/-- A number of the heap whose object, as long as it is there, has the role. -/
structure HasRole (h : Heap) (x : ObjectId) (r : Role) : Prop where
  lt : x.index < h.entries.size
  role : ∀ o, h.object x = .ok o → o.role = r

theorem HasRole.of_object {o : Object} (ho : h.object x = .ok o) : h.HasRole x o.role :=
  ⟨lt_of_contains (contains_of_object ho), fun o' ho' => by
    rw [ho] at ho'
    rw [Except.ok.inj ho']⟩

/-- No number is used again, and no object has changed its role. -/
structure KeepsRoles (h h' : Heap) : Prop where
  size_le : h.entries.size ≤ h'.entries.size
  role : ∀ x o', x.index < h.entries.size → h'.object x = .ok o' →
    ∃ o, h.object x = .ok o ∧ o.role = o'.role

theorem HasRole.keepsRoles (hx : h.HasRole x r) (ha : h.KeepsRoles h') : h'.HasRole x r := by
  refine ⟨Nat.lt_of_lt_of_le hx.lt ha.size_le, fun o' ho' => ?_⟩
  obtain ⟨o, ho, hrole⟩ := ha.role x o' hx.lt ho'
  exact hrole ▸ hx.role o ho

theorem KeepsRoles.refl (h : Heap) : h.KeepsRoles h := ⟨Nat.le_refl _, fun _ o _ ho => ⟨o, ho, rfl⟩⟩

theorem KeepsRoles.trans (a : h.KeepsRoles h₁) (b : h₁.KeepsRoles h') : h.KeepsRoles h' := by
  refine ⟨Nat.le_trans a.size_le b.size_le, fun x o' hx ho' => ?_⟩
  obtain ⟨o₁, ho₁, hrole₁⟩ := b.role x o' (Nat.lt_of_lt_of_le hx a.size_le) ho'
  obtain ⟨o, ho, hrole⟩ := a.role x o₁ hx ho₁
  exact ⟨o, ho, hrole.trans hrole₁⟩

theorem KeepsRoles.of_object_eq (hsize : h'.entries.size = h.entries.size)
    (heq : ∀ x, h'.object x = h.object x) : h.KeepsRoles h' :=
  ⟨Nat.le_of_eq hsize.symm, fun x o' _ ho' => ⟨o', by rw [← heq x, ho'], rfl⟩⟩

theorem keepsRoles_allocate (h : Heap) (o : Object) : h.KeepsRoles (h.allocate o).2 := by
  refine ⟨by simp, fun x o' hx ho' => ⟨o', ?_, rfl⟩⟩
  rwa [object, entry?_allocate_of_lt hx] at ho'

theorem hasRole_allocate (h : Heap) (o : Object) :
    Heap.HasRole (h.allocate o).2 ⟨h.entries.size⟩ o.role := .of_object (object_allocate_self h o)

theorem keepsRoles_setObject {o o' : Object} (ho : h.object x = .ok o) (hrole : o'.role = o.role) :
    h.KeepsRoles (h.setObject x o') := by
  refine ⟨Nat.le_of_eq (size_setObject ..).symm, fun y o₁ _ ho₁ => ?_⟩
  by_cases hyx : y = x
  · subst hyx
    rw [object_setObject_self o' (contains_of_object ho)] at ho₁
    exact ⟨o, ho, by rw [← Except.ok.inj ho₁, hrole]⟩
  · rw [object_setObject_of_ne o' hyx] at ho₁
    exact ⟨o₁, ho₁, rfl⟩

theorem keepsRoles_root (h : Heap) (x : ObjectId) : h.KeepsRoles (root x h).2 :=
  .of_object_eq (size_root h x) (object_root h x)

/-- Collections change no role. -/
theorem Collected.keepsRoles {keep : MarkSet} (hc : Collected h h' keep) : h.KeepsRoles h' := by
  refine ⟨Nat.le_of_eq hc.size.symm, fun x o' _ ho' => ?_⟩
  obtain ⟨e', he', rfl⟩ := entry?_of_object ho'
  rw [hc.entry] at he'
  split at he'
  · obtain ⟨e, he, rfl⟩ := Option.map_eq_some_iff.1 he'
    exact ⟨e.object, object_of_some he, (Object.role_pruneWeak keep e.object).symm⟩
  · cases he'

end Heap

end ClosureCache
