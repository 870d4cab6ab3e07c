/-
Relations between a heap and a later one.

A `StepRelation` holds over a chain of steps if it holds over each of them, and `HeapM.Keeps`
says of a step on the heap that it keeps to the relation, however it ends.  Apart from the
caches, evaluation adds objects and replaces objects that serve no cache; an `EvalRelation`
is a relation that allows this.  What such steps keep to is thus said once for all relations.
-/
import ClosureCache.Proofs.Heap.Roles
import ClosureCache.Proofs.Cache.SparedObjects

namespace ClosureCache

/-- A relation between a heap and a later one that holds over a chain of steps if it holds
over each of them. -/
structure Heap.StepRelation where
  Holds : Heap → Heap → Prop
  refl : ∀ h, Holds h h
  trans : ∀ {h h₁ h₂}, Holds h h₁ → Holds h₁ h₂ → Holds h h₂

/-- A relation that allows what evaluation does apart from reaching definitions: it adds
objects, and replaces objects that are no parts of tries by others in the same role. -/
structure Heap.EvalRelation extends Heap.StepRelation where
  /-- The objects that may be added, or come in the place of others. -/
  makes : Object → Prop
  plain : ∀ o, o.isPart = false → makes o
  allocate : ∀ h o, makes o → Holds h (h.allocate o).2
  setObject : ∀ h x o o', h.object x = .ok o → o.isPart = false → o'.role = o.role → makes o' →
    Holds h (h.setObject x o')

instance : Coe Heap.EvalRelation Heap.StepRelation := ⟨Heap.EvalRelation.toStepRelation⟩

def Heap.EvalRelation.Roots (T : EvalRelation) : Prop := ∀ h x, T.Holds h (Heap.root x h).2

namespace Heap.StepRelation

variable {ε ε' α β : Type} (P : StepRelation) {h : Heap}

/-- A step after another one, which may rely on how the first ended. -/
theorem bind {x : HeapM ε α} {f : α → HeapM ε β} (hx : P.Holds h (x h).2)
    (hf : ∀ a h', x h = (.ok a, h') → P.Holds h' (f a h').2) : P.Holds h ((x >>= f) h).2 :=
  HeapM.ends_bind hx fun a h' hr => by
    rw [hr] at hx
    exact P.trans hx (hf a h' hr)

theorem mapError {x : HeapM ε α} (hx : P.Holds h (x h).2) (f : ε → ε') :
    P.Holds h (HeapM.mapError f x h).2 :=
  HeapM.ends_mapError hx f

end Heap.StepRelation

/-- A step on the heap that keeps to a relation, whether it succeeds or fails. -/
def HeapM.Keeps {ε α : Type} (P : Heap.StepRelation) (x : HeapM ε α) : Prop :=
  ∀ h : Heap, P.Holds h (x h).2

namespace HeapM.Keeps

variable {ε ε' α β : Type} {P : Heap.StepRelation} {T : Heap.EvalRelation}

theorem of_eq {x : HeapM ε α} (hx : ∀ h, (x h).2 = h) : Keeps P x := fun h => by
  rw [hx]
  exact P.refl h

theorem bind {x : HeapM ε α} {f : α → HeapM ε β} (hx : Keeps P x) (hf : ∀ a, Keeps P (f a)) :
    Keeps P (x >>= f) := fun h => P.bind (hx h) fun a h' _ => hf a h'

theorem pure (a : α) : Keeps P (pure a : HeapM ε α) := of_eq fun _ => rfl

theorem throw (e : ε) : Keeps P (throw e : HeapM ε α) := of_eq fun _ => rfl

theorem ask (f : Heap → Except ε α) : Keeps P (HeapM.ask f) := of_eq fun _ => rfl

theorem allocate {o : Object} (ho : T.makes o) :
    Keeps T (HeapM.change fun h => h.allocate o : HeapM ε _) := fun h => T.allocate h o ho

theorem mapError {x : HeapM ε α} (hx : Keeps P x) (f : ε → ε') : Keeps P (HeapM.mapError f x) :=
  fun h => P.mapError (hx h) f

theorem root (hT : T.Roots) (x : ObjectId) : Keeps T (Heap.root x) := fun h => hT h x

end HeapM.Keeps

/-! ## Leaving the parts of tries alone -/

theorem Heap.Spares.trans_parts {h h₁ h₂ : Heap} (a : h.Spares h.IsPart h₁)
    (b : h₁.Spares h₁.IsPart h₂) : h.Spares h.IsPart h₂ :=
  a.trans (b.weaken fun x ⟨o, ho, hpart⟩ => ⟨o, by
    rw [a.object_eq ⟨o, ho, hpart⟩ (Heap.contains_of_object ho), ho], hpart⟩)

/-- Of the old objects none that is part of a trie is changed, whatever is added. -/
def Heap.EvalRelation.sparing : Heap.EvalRelation where
  Holds h h' := h.Spares h.IsPart h'
  makes _ := True
  refl h := .refl _ h
  trans a b := a.trans_parts b
  plain _ _ := trivial
  allocate h o _ := Heap.spares_allocate _ h o
  setObject h x o o' hx ho _ _ := by
    refine Heap.spares_setObject h ?_ o'
    rintro ⟨o₁, ho₁, hpart⟩
    rw [hx] at ho₁
    rw [← Except.ok.inj ho₁, ho] at hpart
    cases hpart

theorem Heap.EvalRelation.roots_sparing : sparing.Roots := fun h x =>
  (HeapOp.root x).spares h fun _ hx => by cases hx

def Heap.EvalRelation.keepingRoles : Heap.EvalRelation where
  Holds := Heap.KeepsRoles
  makes _ := True
  refl := Heap.KeepsRoles.refl
  trans := Heap.KeepsRoles.trans
  plain _ _ := trivial
  allocate h o _ := Heap.keepsRoles_allocate h o
  setObject _ _ _ _ hx _ hrole _ := Heap.keepsRoles_setObject hx hrole

theorem Heap.EvalRelation.roots_keepingRoles : keepingRoles.Roots := Heap.keepsRoles_root

end ClosureCache
