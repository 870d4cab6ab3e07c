/-
Objects that are reached past others.

`Beside` is reachability by ways that avoid a set of objects.  If no member of the set is
rooted and no object that is reached beside the set leads into it, then every object that
is reachable is reached beside the set: what was reached only through the set is gone with
it.
-/
import ClosureCache.Proofs.Heap.Reachability
import Mathlib.Data.Set.Defs

namespace ClosureCache
namespace Heap

/-- The objects that a collection would have to keep if it could not pass through a set. -/
inductive Beside (h : Heap) (S : Set ObjectId) : ObjectId → Prop where
  | root {x : ObjectId} {e : HeapEntry} : h.entry? x = some e → 0 < e.roots → x ∉ S → Beside h S x
  | strong {x y : ObjectId} :
    Beside h S x → y ∈ h.strongRefs x → h.contains y = true → y ∉ S → Beside h S y
  | weak {map key y : ObjectId} :
    Beside h S map → (key, .object y) ∈ h.weakLinks map → Beside h S key →
      h.contains y = true → y ∉ S → Beside h S y

variable {h : Heap} {S : Set ObjectId} {x y : ObjectId}

theorem Beside.not_mem (hx : h.Beside S x) : x ∉ S := by
  cases hx <;> assumption

theorem Beside.contains (hx : h.Beside S x) : h.contains x = true := by
  cases hx with
  | root he _ _ => exact contains_of_some he
  | strong _ _ hc _ => exact hc
  | weak _ _ _ hc _ => exact hc

/-- An object refers to another, by itself or as a weak map does to the values of its
entries. -/
def Refers (h : Heap) (x y : ObjectId) : Prop :=
  y ∈ h.strongRefs x ∨ ∃ key, (key, .object y) ∈ h.weakLinks x

theorem Refers.contains_left (hx : h.Refers x y) : h.contains x = true := by
  cases he : h.entry? x with
  | some e => exact contains_of_some he
  | none =>
    rcases hx with hx | ⟨key, hx⟩
    · rw [strongRefs, he] at hx
      exact absurd hx List.not_mem_nil
    · rw [weakLinks, he] at hx
      exact absurd hx List.not_mem_nil

/-- The set is shut off: it has no root, and no object beside it refers to a member. -/
structure ShutOff (h : Heap) (S : Set ObjectId) : Prop where
  unrooted : ∀ x ∈ S, ∀ e, h.entry? x = some e → e.roots = 0
  referrer : ∀ x y, h.Beside S x → h.Refers x y → h.contains y = true → y ∉ S

theorem ShutOff.beside (hS : h.ShutOff S) (hx : h.Reachable x) : h.Beside S x := by
  induction hx with
  | root he hroots =>
    exact .root he hroots fun hx => Nat.ne_of_gt hroots (hS.unrooted _ hx _ he)
  | strong _ hy hc ih => exact .strong ih hy hc (hS.referrer _ _ ih (.inl hy) hc)
  | weak _ hmem _ hc ihmap ihkey =>
    exact .weak ihmap hmem ihkey hc (hS.referrer _ _ ihmap (.inr ⟨_, hmem⟩) hc)

/-- With fewer objects to avoid, more is reached. -/
theorem Beside.anti {S' : Set ObjectId} (hsub : ∀ x, x ∈ S → x ∈ S') (hx : h.Beside S' x) :
    h.Beside S x := by
  induction hx with
  | root he hroots hx => exact .root he hroots fun hin => hx (hsub _ hin)
  | strong _ hy hc hx ih => exact .strong ih hy hc fun hin => hx (hsub _ hin)
  | weak _ hmem _ hc hx ihmap ihkey => exact .weak ihmap hmem ihkey hc fun hin => hx (hsub _ hin)

def refs (h : Heap) (x : ObjectId) : List ObjectId :=
  h.strongRefs x ++ (h.weakLinks x).filterMap fun link => link.2.object?

theorem refers_iff : h.Refers x y ↔ y ∈ h.refs x := by
  rw [Refers, refs, List.mem_append, List.mem_filterMap]
  refine or_congr_right ⟨fun ⟨key, hmem⟩ => ⟨_, hmem, rfl⟩, fun ⟨⟨key, v⟩, hmem, hv⟩ => ⟨key, ?_⟩⟩
  rwa [← Value.object?_eq_some.1 hv]

/-- A list with the roots, and with each member all to which it refers, holds what is reached
beside other objects. -/
theorem Beside.mem_of_closed {avoided l : List ObjectId}
    (hroots : ∀ x ∈ h.rooted, x ∈ avoided ∨ x ∈ l)
    (hrefs : ∀ x ∈ l, ∀ y ∈ h.refs x, y ∈ avoided ∨ y ∈ l)
    (hx : h.Beside {x | x ∈ avoided} x) : x ∈ l := by
  induction hx with
  | root he hpos hx => exact (hroots _ (mem_rooted.2 ⟨_, he, hpos⟩)).resolve_left hx
  | strong _ hy _ hx ih => exact (hrefs _ ih _ (refers_iff.1 (.inl hy))).resolve_left hx
  | weak _ hmem _ _ hx ih _ =>
    exact (hrefs _ ih _ (refers_iff.1 (.inr ⟨_, hmem⟩))).resolve_left hx

/-- An object without a root to which only the set refers is not reached beside it. -/
theorem not_beside (hroots : ∀ e, h.entry? x = some e → e.roots = 0)
    (hrefers : ∀ y, h.Refers y x → y ∈ S) : ¬ h.Beside S x := by
  intro hx
  cases hx with
  | root he hpos _ => exact Nat.ne_of_gt hpos (hroots _ he)
  | strong hy hmem _ _ => exact hy.not_mem (hrefers _ (.inl hmem))
  | weak hmap hmem _ _ _ => exact hmap.not_mem (hrefers _ (.inr ⟨_, hmem⟩))

end Heap

end ClosureCache
