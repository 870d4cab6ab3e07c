/-
The cells that environments hold.

For each binding of its scope that is kept in a cell, an environment has a cell in a slot.
It is furnished if these cells are there, no two slots with the same.  Environments are made
furnished, with cells that are made along with them.  No write puts anything else into such
a slot, and no collection takes the cell of an environment that it leaves, so an environment
holds its cells for good; and a shared function that captures the binding has the cell in
its table.
-/
import ClosureCache.Proofs.Evaluation.Discrimination
import ClosureCache.Proofs.Evaluation.Provenance

namespace ClosureCache

/-! ## Holding -/

/-- An environment has an object in the slot of a binding that is kept in a cell. -/
def Environment.HoldsCell (tree : ScopeTree) (e : Environment) (b : BindingId) (c : ObjectId) :
    Prop :=
  ∃ d, tree.binding? b = some d ∧ d.scope = e.scope ∧ d.storage = .cell ∧
    e.slots[d.slot]? = some (some (.object c))

/-- An environment of the heap has a cell of the heap in the slot of a binding. -/
def Heap.HoldsCell (tree : ScopeTree) (h : Heap) (x : ObjectId) (b : BindingId) (c : ObjectId) :
    Prop :=
  ∃ e contents, h.environment x = .ok e ∧ e.HoldsCell tree b c ∧ h.cellContents c = .ok contents

/-- Some slot of an environment of the heap has a cell of the heap in it. -/
def Heap.CellAt (h : Heap) (x : ObjectId) (i : Nat) (c : ObjectId) : Prop :=
  h.slotAt x i = .ok (some (.object c)) ∧ ∃ contents, h.cellContents c = .ok contents

/-- Writes that leave the slots of bindings with cells alone, and whatever is made. -/
def Effects.keepingCells (tree : ScopeTree) : Effects :=
  { Effects.sparingCells tree fun _ => True with
    opens := fun _ => True
    opens_of_writes := fun _ _ _ _ _ _ => trivial }

/-- An environment has a cell of the heap for every binding that is kept in one, and no two
slots with the same. -/
structure Environment.Furnished (tree : ScopeTree) (h : Heap) (e : Environment) : Prop where
  cell : ∀ b d, tree.binding? b = some d → d.scope = e.scope → d.storage = .cell →
    ∃ c, e.HoldsCell tree b c ∧ h.contains c = true
  one : ∀ b b' c, e.HoldsCell tree b c → e.HoldsCell tree b' c → b = b'

def Heap.Furnished (tree : ScopeTree) (h : Heap) : Prop :=
  ∀ x e, h.environment x = .ok e → e.Furnished tree h

/-- What an environment refers to is there as long as the environment is. -/
def Heap.Sustains (h h' : Heap) : Prop :=
  ∀ x e y, h'.contains x = true → h.environment x = .ok e → y ∈ e.refs →
    h.contains y = true → h'.contains y = true

section Holding

variable {tree : ScopeTree} {e e' : Environment} {b : BindingId} {c : ObjectId}
  {makes : FunctionObject → Prop}

theorem Environment.HoldsCell.mem_refs (hc : e.HoldsCell tree b c) : c ∈ e.refs := by
  obtain ⟨d, -, -, -, hslot⟩ := hc
  have hmem : some (Value.object c) ∈ e.slots.toList :=
    Array.mem_toList_iff.2 (Array.mem_of_getElem? hslot)
  exact List.mem_append_left _ (List.mem_append_right _
    (List.mem_flatMap.2 ⟨_, hmem, List.mem_singleton.2 rfl⟩))

/-- A binding has one slot in an environment. -/
theorem Environment.HoldsCell.unique {c' : ObjectId} (hc : e.HoldsCell tree b c)
    (hc' : e.HoldsCell tree b c') : c = c' := by
  obtain ⟨d, hd, -, -, hslot⟩ := hc
  obtain ⟨d', hd', -, -, hslot'⟩ := hc'
  obtain rfl := Option.some.inj (hd.symm.trans hd')
  exact Value.object.inj (Option.some.inj (Option.some.inj (hslot.symm.trans hslot')))

theorem Environment.Resembles.holdsCell_iff (hsame : e.Resembles e')
    (hwrites : ∀ b d, tree.binding? b = some d → d.scope = e.scope → d.storage = .cell →
      e'.slots[d.slot]? = e.slots[d.slot]?) : e'.HoldsCell tree b c ↔ e.HoldsCell tree b c := by
  refine exists_congr fun d => and_congr_right fun hd => ?_
  rw [hsame.scope]
  exact and_congr_right fun hscope => and_congr_right fun hcell => by
    rw [hwrites b d hd hscope hcell]

namespace Heap

variable {h h₁ h' : Heap} {x : ObjectId}

theorem Sustains.of_mono (hmono : ∀ y, h.contains y = true → h'.contains y = true) :
    h.Sustains h' := fun _ _ y _ _ _ hy => hmono y hy

theorem Collected.sustains {keep : MarkSet} (hc : Collected h h' keep) : h.Sustains h' := by
  intro x e y hin he hy hold
  obtain ⟨entry, hentry, ho⟩ := entry?_of_object (environment_eq_ok.1 he)
  rw [hc.contains_iff_reachable] at hin ⊢
  exact .strong hin (by rwa [strongRefs_of_some hentry, ho]) hold

theorem Furnished.lasts (hf : h.Furnished tree) (hl : h.Lasts (.sparingCells tree makes) h')
    (hs : h.Sustains h') : h'.Furnished tree := by
  intro x e' he'
  have hin := contains_of_environment he'
  rcases hl.opened x e' he' with ⟨e, he⟩ | ⟨-, hopens⟩
  · obtain ⟨e₁, he₁, hsame, hwrites⟩ := hl.environment x e hin he
    obtain rfl := Except.ok.inj (he'.symm.trans he₁)
    have hiff : ∀ {b c}, e'.HoldsCell tree b c ↔ e.HoldsCell tree b c :=
      hsame.holdsCell_iff hwrites
    refine ⟨fun b d hd hscope hcell => ?_,
      fun b b' c hc hc' => (hf x e he).one b b' c (hiff.1 hc) (hiff.1 hc')⟩
    obtain ⟨c, hc, hold⟩ := (hf x e he).cell b d hd (hscope.trans hsame.scope) hcell
    exact ⟨c, hiff.2 hc, hs x e c hin he hc.mem_refs hold⟩
  · exact hopens.elim

/-- A furnished environment may be added. -/
theorem Furnished.allocate (hf : h.Furnished tree) (he : e.Furnished tree h) :
    Heap.Furnished tree (h.allocate (.environment e)).2 := by
  have hmono : ∀ y, h.contains y = true → contains (h.allocate (.environment e)).2 y = true :=
    (keepsIntact_allocate rfl).mono
  intro x e' he'
  have hfurnished : e'.Furnished tree h := by
    by_cases hx : x = ⟨h.entries.size⟩
    · subst hx
      rw [environment_eq_ok, object_allocate_self] at he'
      obtain rfl := Object.environment.inj (Except.ok.inj he')
      exact he
    · rw [environment_eq_ok, object_allocate_of_ne _ hx] at he'
      exact hf x e' (environment_eq_ok.2 he')
  refine ⟨fun b d hd hscope hcell => ?_, hfurnished.one⟩
  obtain ⟨c, hc, hin⟩ := hfurnished.cell b d hd hscope hcell
  exact ⟨c, hc, hmono c hin⟩

theorem Lasts.keepingCells (hl : h.Lasts (.sparingCells tree makes) h') :
    h.Lasts (.keepingCells tree) h' :=
  hl.imp (fun _ _ _ _ hw => hw) (fun _ _ => trivial) fun _ _ => trivial

end Heap

end Holding

/-- What environments refer to survives a collection along with them, also if the caches are
compacted after it. -/
theorem EvalM.collectGarbage_sustains {image : Image} {m : Machine} :
    m.heap.Sustains (EvalM.collectGarbage image m).2.heap := by
  rcases EvalM.collectGarbage_spec image m rfl with ⟨hheap, -⟩ | ⟨keep, h, hc, hend⟩
  · exact .of_mono fun y hy => by rwa [hheap]
  · rcases hend with ⟨hheap, -⟩ | hcompact
    · exact hheap ▸ hc.sustains
    · have hadds := m.registry.compactAll_adds h
      rw [hcompact] at hadds
      have hsame : ∀ {y : ObjectId}, m.heap.contains y = true →
          (EvalM.collectGarbage image m).2.heap.contains y = h.contains y :=
        fun hy => hadds.contains _ (hc.size ▸ Heap.lt_of_contains hy)
      intro x e y hin he hy hold
      rw [hsame hold]
      rw [hsame (Heap.contains_of_environment he)] at hin
      exact hc.sustains x e y hin he hy hold

section Sealed

variable {image : Image} {h h' : Heap} (ht : image.tree.Proper) (hs : h.Sealed image)
  {e : Environment} {x c : ObjectId} {b : BindingId} {d : Binding}

include ht hs

/-- What an environment of a sealed heap holds for the binding is a cell. -/
theorem Heap.Sealed.holdsCell (he : h.environment x = .ok e) (hc : e.HoldsCell image.tree b c)
    (hin : h.contains c = true) : h.HoldsCell image.tree x b c := by
  obtain ⟨d, hd, hscope, hcell, hslot⟩ := id hc
  have hseals := (hs.environment he).slot ht hd hscope hslot
  rw [Binding.Seals, hcell] at hseals
  obtain ⟨c', hc', hwas⟩ := hseals
  obtain rfl := Value.object.inj (Option.some.inj hc')
  obtain ⟨entry, hentry⟩ := contains_iff.1 hin
  have ho := object_of_some hentry
  have hrole := hwas.role _ ho
  cases hentry' : entry.object with
  | cell contents => exact ⟨e, contents, he, hc, cellContents_eq_ok.2 (hentry' ▸ ho)⟩
  | _ =>
    rw [hentry'] at hrole
    cases hrole

omit ht in
/-- No other slots have cells in them. -/
theorem Heap.CellAt.holdsCell {i : Nat} (hc : h.CellAt x i c) :
    ∃ b d, image.tree.binding? b = some d ∧ d.slot = i ∧ h.HoldsCell image.tree x b c := by
  obtain ⟨hslot, contents, hcontents⟩ := hc
  obtain ⟨e, he, hi⟩ := slotAt_eq_ok.1 hslot
  obtain ⟨b, d, hd, hscope, rfl, hseals⟩ := (hs.environment he).slots i _ hi
  refine ⟨b, d, hd, rfl, e, contents, he, ⟨d, hd, hscope, ?_, hi⟩, hcontents⟩
  rw [Binding.Seals] at hseals
  cases hstorage : d.storage with
  | cell => rfl
  | slot =>
    rw [hstorage] at hseals
    have hwas := (hseals _ (List.mem_singleton.2 rfl) c rfl).2
    cases hwas.role _ (cellContents_eq_ok.1 hcontents)

theorem Heap.Furnished.exists_holdsCell (hf : h.Furnished image.tree)
    (he : h.environment x = .ok e) (hd : image.tree.binding? b = some d)
    (hscope : d.scope = e.scope) (hcell : d.storage = .cell) :
    ∃ c, h.HoldsCell image.tree x b c ∧ e.slots[d.slot]? = some (some (.object c)) := by
  obtain ⟨c, hc, hin⟩ := (hf x e he).cell b d hd hscope hcell
  refine ⟨c, hs.holdsCell ht he hc hin, ?_⟩
  obtain ⟨d', hd', -, -, hslot⟩ := hc
  obtain rfl := Option.some.inj (hd.symm.trans hd')
  exact hslot

end Sealed

/-! ## New environments -/

namespace Heap

section NewEnvironments

variable {image : Image} {h h' : Heap}

/-- The cells that slots start out with are in the heap. -/
theorem initialSlots_contains {tree : ScopeTree} {bs : List BindingId}
    {slots : List (Option Value)} (hrun : initialSlots tree bs h = (.ok slots, h')) {i : Nat}
    {c : ObjectId} (hi : slots[i]? = some (some (.object c))) : h'.contains c = true := by
  induction bs generalizing h i slots with
  | nil =>
    obtain rfl := Except.ok.inj (Prod.mk.inj hrun).1
    cases hi
  | cons b rest ih =>
    obtain ⟨raw, h₁, hslot, hrun⟩ := HeapM.bind_eq_ok hrun
    obtain ⟨slots', h₂, hrest, hrun⟩ := HeapM.bind_eq_ok hrun
    obtain ⟨heq, rfl⟩ := Prod.mk.inj hrun
    obtain rfl := Except.ok.inj heq
    cases i with
    | succ i => exact ih hrest hi
    | zero =>
      obtain rfl := Option.some.inj hi
      have hmono := (HeapM.Keeps.initialSlots (T := .keepingIntact) tree rest h₁).mono
      rw [hrest] at hmono
      refine hmono c ?_
      obtain ⟨d, h₁, hask, hslot⟩ := HeapM.bind_eq_ok hslot
      obtain ⟨-, rfl⟩ := Prod.mk.inj hask
      cases hstorage : d.storage with
      | slot =>
        rw [hstorage] at hslot
        have hraw := Except.ok.inj (Prod.mk.inj hslot).1
        split at hraw <;> cases hraw
      | cell =>
        rw [hstorage] at hslot
        obtain ⟨hraw, rfl⟩ := Prod.mk.inj hslot
        obtain rfl := Value.object.inj (Option.some.inj (Except.ok.inj hraw))
        exact contains_of_object (object_allocate_self h _)

/-- What is made for the slots of a scope furnishes an environment. -/
theorem furnished_of_initialSlots (ht : image.tree.Proper) {scope : ScopeId} {sc : Scope}
    (hsc : image.tree.scope? scope = some sc) {slots : List (Option Value)}
    (hrun : initialSlots image.tree sc.bindings.toList h = (.ok slots, h')) (outer : Enclosure)
    (this : Option Value) :
    Environment.Furnished image.tree h' { scope, outer, slots := slots.toArray, this } := by
  constructor
  · intro b d hd hscope hcell
    obtain ⟨-, sc', hsc', hb⟩ := ht.placed b d hd
    obtain rfl : sc = sc' := by
      rw [hscope] at hsc'
      exact Option.some.inj (hsc.symm.trans hsc')
    rw [← Array.getElem?_toList] at hb
    obtain ⟨raw, hraw, -⟩ := initialSlots_eq_ok hrun hb hd
    obtain ⟨b', d', hb', hd', hseals⟩ := initialSlots_seals hrun hraw
    obtain rfl := Option.some.inj (hb.symm.trans hb')
    obtain rfl := Option.some.inj (hd.symm.trans hd')
    rw [Binding.Seals, hcell] at hseals
    obtain ⟨c, rfl, -⟩ := hseals
    exact ⟨c, ⟨d, hd, hscope, hcell, by rwa [List.getElem?_toArray]⟩,
      initialSlots_contains hrun hraw⟩
  · rintro b b' c ⟨d, hd, hscope, -, hslot⟩ ⟨d', hd', hscope', -, hslot'⟩
    rw [List.getElem?_toArray] at hslot hslot'
    exact ht.eq_of_slot hd hd' (hscope.trans hscope'.symm)
      (initialSlots_injective hrun hslot hslot')

/-- Making an environment either fails and makes none, or it makes cells for the slots and
then the environment, which is the last object of the heap. -/
theorem newEnvironment_furnishes (ht : image.tree.Proper) (scope : ScopeId) (outer : Enclosure)
    (this : Option Value) : ∃ h₁, h.Lasts (.sparingCells image.tree fun _ => False) h₁ ∧
      h.Sustains h₁ ∧
      ((∃ error, newEnvironment image.tree scope outer this h = (.error error, h₁)) ∨
        ∃ e : Environment, newEnvironment image.tree scope outer this h =
            (.ok ⟨h₁.entries.size⟩, (h₁.allocate (.environment e)).2) ∧
          e.Furnished image.tree h₁ ∧ ∀ b c, e.HoldsCell image.tree b c →
            h.entries.size ≤ c.index ∧ c.index < h₁.entries.size) := by
  rw [newEnvironment, HeapM.bind_apply, HeapM.ask_apply]
  cases hsc : (image.tree.scope scope).mapError EvalError.scope with
  | error error => exact ⟨h, .refl .., .of_mono fun _ hy => hy, .inl ⟨error, rfl⟩⟩
  | ok sc =>
    dsimp only
    rw [HeapM.bind_apply]
    have hslots := lasts_initialSlots (R := .sparingCells image.tree fun _ => False) (h := h)
      image.tree sc.bindings.toList
    have hmono :=
      (HeapM.Keeps.initialSlots (T := .keepingIntact) image.tree sc.bindings.toList h).mono
    cases hrun : initialSlots image.tree sc.bindings.toList h with
    | mk result h₁ =>
      rw [hrun] at hslots hmono
      refine ⟨h₁, hslots, .of_mono hmono, ?_⟩
      cases result with
      | error error => exact .inl ⟨error, rfl⟩
      | ok slots =>
        refine .inr ⟨_, rfl, furnished_of_initialSlots ht
          (ScopeTree.scope_eq_ok.1 (Except.mapError_eq_ok.1 hsc)) hrun outer this, ?_⟩
        rintro b c ⟨d, -, -, -, hslot⟩
        rw [List.getElem?_toArray] at hslot
        exact initialSlots_fresh hrun hslot

end NewEnvironments

end Heap

/-! ## Captures -/

/-- A capture of a binding that is kept in a cell is a cell that an environment has for the
binding in one of the heaps. -/
def CapturedSlot.FromCell (tree : ScopeTree) (heaps : List Heap) (b : BindingId)
    (slot : CapturedSlot) : Prop :=
  ∀ d, tree.binding? b = some d → d.storage = .cell →
    ∃ h ∈ heaps, ∃ x c, slot = .value (some (.object c)) ∧ h.HoldsCell tree x b c

/-- The heap has cells where they belong: environments are furnished, and functions capture
cells of environments of some heaps. -/
structure Heap.Celled (image : Image) (heaps : List Heap) (h : Heap) : Prop where
  sealed : h.Sealed image
  furnished : h.Furnished image.tree
  tables : ∀ g f bindings this, h.function g = .ok f → f.closure = .captured bindings this →
    ∀ entry ∈ bindings, entry.2.FromCell image.tree heaps entry.1

namespace Heap

section Captures

variable {image : Image} {heaps heaps' : List Heap} {h h' : Heap} {env : ObjectId}
  {b : BindingId} {d : Binding} {location : Location}

theorem Celled.mono (hc : h.Celled image heaps) (hsub : ∀ h ∈ heaps, h ∈ heaps') :
    h.Celled image heaps' := by
  refine ⟨hc.sealed, hc.furnished, fun g f bindings this hg hclosure entry hentry d hd hcell => ?_⟩
  obtain ⟨h₁, hmem, hholds⟩ := hc.tables g f bindings this hg hclosure entry hentry d hd hcell
  exact ⟨h₁, hsub h₁ hmem, hholds⟩

theorem HoldsCell.environment {tree : ScopeTree} {x c : ObjectId} (hc : h.HoldsCell tree x b c) :
    ∃ e, h.environment x = .ok e := by
  obtain ⟨e, -, he, -⟩ := hc
  exact ⟨e, he⟩

theorem HoldsCell.lt {tree : ScopeTree} {x c : ObjectId} (hc : h.HoldsCell tree x b c) :
    c.index < h.entries.size := by
  obtain ⟨_, _, -, -, hcontents⟩ := hc
  exact lt_of_contains (contains_of_object (cellContents_eq_ok.1 hcontents))

theorem HoldsCell.unique {tree : ScopeTree} {x c c' : ObjectId} (hc : h.HoldsCell tree x b c)
    (hc' : h.HoldsCell tree x b c') : c = c' := by
  obtain ⟨e, -, he, hc, -⟩ := hc
  obtain ⟨e', -, he', hc', -⟩ := hc'
  obtain rfl := Except.ok.inj (he.symm.trans he')
  exact hc.unique hc'

/-- What an environment has in the slot of a binding with a cell is a cell of the heap. -/
theorem Celled.holdsCell_iff (hc : h.Celled image heaps) (ht : image.tree.Proper) {x c : ObjectId}
    {e : Environment} (he : h.environment x = .ok e) :
    h.HoldsCell image.tree x b c ↔ e.HoldsCell image.tree b c := by
  constructor
  · rintro ⟨e', -, he', hholds, -⟩
    obtain rfl := Except.ok.inj (he.symm.trans he')
    exact hholds
  · intro hholds
    obtain ⟨d, hd, hscope, hcell, -⟩ := id hholds
    obtain ⟨c', hholds', hin⟩ := (hc.furnished x e he).cell b d hd hscope hcell
    obtain rfl := hholds.unique hholds'
    exact hc.sealed.holdsCell ht he hholds hin

/-- An environment holds the same cells as long as it is there. -/
theorem Lasts.holdsCell_iff (hl : h.Lasts (.keepingCells image.tree) h')
    (hc : h.Celled image heaps) (hc' : h'.Celled image heaps) (ht : image.tree.Proper)
    {x c : ObjectId} {e e' : Environment} (he : h.environment x = .ok e)
    (he' : h'.environment x = .ok e') :
    h'.HoldsCell image.tree x b c ↔ h.HoldsCell image.tree x b c := by
  obtain ⟨e₁, he₁, hsame, hwrites⟩ := hl.environment x e (contains_of_environment he') he
  obtain rfl := Except.ok.inj (he'.symm.trans he₁)
  rw [hc.holdsCell_iff ht he, hc'.holdsCell_iff ht he', hsame.holdsCell_iff hwrites]

section Finding

variable (ht : image.tree.Proper) (hc : h.Celled image heaps)
  (hd : image.tree.binding? b = some d) (hcell : d.storage = .cell)
  (hlocate : h.locate image.tree env b = .ok (some location))

include ht hc hd hcell hlocate

/-- Where a binding is found that is kept in a cell, there is the slot of an environment with
the cell, or a capture. -/
theorem Celled.found :
    (∃ x c, location = .slot x d.slot ∧ h.slotAt x d.slot = .ok (some (.object c)) ∧
      h.HoldsCell image.tree x b c) ∨
    ∃ g i slot, location = .captured g i ∧ h.capturedSlot g i = .ok slot ∧
      slot.FromCell image.tree heaps b := by
  obtain ⟨target, htarget, hwalk⟩ := locate_eq_some hlocate
  obtain rfl := Option.some.inj (hd.symm.trans htarget)
  rcases locateFrom_eq_some hwalk with
    ⟨x, e, rfl, he, hscope⟩ | ⟨g, i, f, bindings, this, slot, rfl, hg, hclosure, hi⟩
  · obtain ⟨c, hholds, hslot⟩ :=
      hc.furnished.exists_holdsCell ht hc.sealed he hd hscope.symm hcell
    exact .inl ⟨x, c, rfl, slotAt_eq_ok.2 ⟨e, he, hslot⟩, hholds⟩
  · have hentry := hc.tables g f bindings this hg hclosure _ (List.mem_of_getElem? hi)
    rw [(ht.placed b d hd).1] at hentry
    exact .inr ⟨g, i, slot, rfl, capturedSlot_eq_ok.2 ⟨f, bindings, this, hg, hclosure, _, hi⟩,
      hentry⟩

/-- What is read there is the cell that an environment has for the binding. -/
theorem Celled.contentsAt (hmem : h ∈ heaps) : ∃ h₁ ∈ heaps, ∃ x c,
    h.contentsAt location = .ok (some (.object c)) ∧ h₁.HoldsCell image.tree x b c := by
  rcases hc.found ht hd hcell hlocate with
    ⟨x, c, rfl, hslot, hholds⟩ | ⟨g, i, slot, rfl, hread, hfrom⟩
  · exact ⟨h, hmem, x, c, hslot, hholds⟩
  · obtain ⟨h₁, hmem₁, x, c, rfl, hholds⟩ := hfrom d hd hcell
    refine ⟨h₁, hmem₁, x, c, ?_, hholds⟩
    rw [Heap.contentsAt, hread]
    rfl

/-- What is read there later is the same cell. -/
theorem Lasts.contentsAt_eq (hl : h.Lasts (.keepingCells image.tree) h')
    (hc' : h'.Celled image heaps)
    (hlocate' : h'.locate image.tree env b = .ok (some location)) :
    h'.contentsAt location = h.contentsAt location := by
  rcases hc.found ht hd hcell hlocate with
    ⟨x, c, rfl, hslot, hholds⟩ | ⟨g, i, slot, rfl, hread, hfrom⟩
  · rcases hc'.found ht hd hcell hlocate' with ⟨x', c', heq, hslot', hholds'⟩ | ⟨_, _, _, heq, -⟩
    · obtain ⟨rfl, -⟩ := Location.slot.inj heq
      obtain ⟨e, he⟩ := hholds.environment
      obtain ⟨e', he'⟩ := hholds'.environment
      obtain rfl := hholds.unique ((hl.holdsCell_iff hc hc' ht he he').1 hholds')
      exact hslot'.trans hslot.symm
    · cases heq
  · rcases hc'.found ht hd hcell hlocate' with ⟨_, _, heq, -⟩ | ⟨g', i', slot', heq, hread', -⟩
    · cases heq
    · obtain ⟨rfl, rfl⟩ := Location.captured.inj heq
      obtain ⟨f, bindings, this, hg, hclosure, hi⟩ := capturedSlot_eq_ok.1 hread
      obtain ⟨f', _, _, hg', -⟩ := capturedSlot_eq_ok.1 hread'
      have hkept := hl.function g f (contains_of_function hg') hg
      rw [Heap.contentsAt, capturedSlot_eq_ok.2 ⟨f, bindings, this, hkept, hclosure, hi⟩]
      obtain ⟨_, _, _, _, rfl, _⟩ := hfrom d hd hcell
      rw [Heap.contentsAt, hread]
      rfl

end Finding

/-- A new capture of a binding with a cell is the cell that is found, or it is passed on. -/
theorem Celled.captureBinding (hc : h.Celled image heaps) (ht : image.tree.Proper)
    (hmem : h ∈ heaps) {slot : CapturedSlot}
    (hslot : h.captureBinding image.tree env b = .ok slot) :
    slot.FromCell image.tree heaps b := by
  obtain ⟨d, location, hd, hlocate, hcapture⟩ := captureBinding_eq_ok hslot
  intro d' hd' hcell
  obtain rfl := Option.some.inj (hd.symm.trans hd')
  rcases hc.found ht hd hcell hlocate with
    ⟨x, c, rfl, hraw, hholds⟩ | ⟨g, i, slot', rfl, hread, hfrom⟩
  · rw [captureSlot_of_final hraw (.inl hcell)] at hcapture
    obtain rfl := Except.ok.inj hcapture
    exact ⟨h, hmem, x, c, rfl, hholds⟩
  · rw [captureSlot, hread] at hcapture
    obtain rfl := Except.ok.inj hcapture
    exact hfrom d hd hcell

/-- So are all captures of a new shared function. -/
theorem Celled.captureClosure (hc : h.Celled image heaps) (ht : image.tree.Proper)
    (hmem : h ∈ heaps) {spec : CaptureSpec} {bindings : List (BindingId × CapturedSlot)}
    {this : Option Value}
    (hclosure : h.captureClosure image.tree env spec = .ok (.captured bindings this)) :
    ∀ entry ∈ bindings, entry.2.FromCell image.tree heaps entry.1 := by
  obtain ⟨⟨bindings', this'⟩, htable, hok⟩ := Except.bind_eq_ok.1 hclosure
  obtain ⟨rfl, rfl⟩ := Closure.captured.inj (Except.ok.inj hok)
  exact fun entry hentry =>
    hc.captureBinding ht hmem ((captureTable_spec htable).2.1 entry hentry).1

/-- A later heap has cells where they belong if its environments are furnished and new
functions capture cells of environments. -/
theorem Celled.lasts (hc : h.Celled image heaps) (hs : h'.Sealed image)
    (hf : h'.Furnished image.tree) {R : Effects} (hl : h.Lasts R h')
    (hmakes : ∀ f bindings this, R.makes f → f.closure = .captured bindings this →
      ∀ entry ∈ bindings, entry.2.FromCell image.tree heaps entry.1) :
    h'.Celled image heaps := by
  refine ⟨hs, hf, fun g f bindings this hg hclosure => ?_⟩
  rcases hl.made g f hg with hold | ⟨-, hnew⟩
  · exact hc.tables g f bindings this hold hclosure
  · exact hmakes f bindings this hnew hclosure

end Captures

end Heap

/-! ## Keys -/

section Keys

variable {image : Image} {heaps : List Heap} {h h' : Heap} {env : ObjectId} {c : Capture}
  {k k' : KeyComponent}

/-- A binding that is captured as a cell is kept in one. -/
theorem Heap.Sealed.storage_of_component (hs : h.Sealed image) (ht : image.tree.Proper)
    (hmode : c.mode = .cell) (hk : c.component (h.liveScope image.tree env) = .ok k) :
    ∃ b d location x, c.binding = some b ∧ image.tree.binding? b = some d ∧ d.storage = .cell ∧
      h.locate image.tree env b = .ok (some location) ∧
      h.contentsAt location = .ok (some (.object x)) ∧ k = .cellRef x := by
  obtain ⟨b, x, hb, hslot, hcell, rfl⟩ := (Capture.component_cell hmode).1 hk
  obtain ⟨location, hlocate, hcontents⟩ := stored?_eq_some.1 (Heap.liveScope_slot.1 hslot)
  obtain ⟨d, hd, -⟩ := locate_eq_some hlocate
  refine ⟨b, d, location, x, hb, hd, ?_, hlocate, hcontents, rfl⟩
  have hseals := hs.contentsAt ht hd hlocate hcontents
  rw [Binding.Seals] at hseals
  cases hstorage : d.storage with
  | cell => rfl
  | slot =>
    rw [hstorage] at hseals
    obtain ⟨contents, ho⟩ := Heap.isCell_liveScope.1 hcell
    have hvalue := (hseals _ (List.mem_singleton.2 rfl) x rfl).2.role _ ho
    cases hvalue

/-- A captured cell enters keys for good: as long as the environment is there, with the same
component, which is a cell that an environment has for the binding. -/
theorem Heap.Lasts.component_eq (ht : image.tree.Proper)
    (hl : h.Lasts (.keepingCells image.tree) h') (hc : h.Celled image heaps)
    (hc' : h'.Celled image heaps) (hmem : h ∈ heaps) (hmode : c.mode = .cell)
    (hk : c.component (h.liveScope image.tree env) = .ok k)
    (hk' : c.component (h'.liveScope image.tree env) = .ok k') :
    k = k' ∧ ∃ b x cell, ∃ h₁ ∈ heaps, c.binding = some b ∧ k = .cellRef cell ∧
      h₁.HoldsCell image.tree x b cell := by
  obtain ⟨b, d, location, y, hb, hd, hcell, hlocate, hcontents, rfl⟩ :=
    hc.sealed.storage_of_component ht hmode hk
  obtain ⟨b', d', location', y', hb', -, -, hlocate', hcontents', rfl⟩ :=
    hc'.sealed.storage_of_component ht hmode hk'
  obtain rfl := Option.some.inj (hb.symm.trans hb')
  have hin : h'.contains env = true := by
    obtain ⟨target, -, hwalk⟩ := Heap.locate_eq_some hlocate'
    exact Heap.contains_of_locateFrom hwalk
  have hsame := (hl.locate_eq hin hlocate).1
  obtain rfl := Option.some.inj (Except.ok.inj (hsame.symm.trans hlocate'))
  rw [hl.contentsAt_eq ht hc hd hcell hlocate hc' hlocate', hcontents] at hcontents'
  obtain rfl := Value.object.inj (Option.some.inj (Except.ok.inj hcontents'))
  obtain ⟨h₁, hmem₁, x, cell, hread, hholds⟩ := hc.contentsAt ht hd hcell hlocate hmem
  rw [hcontents] at hread
  obtain rfl := Value.object.inj (Option.some.inj (Except.ok.inj hread))
  exact ⟨rfl, b, x, y, h₁, hmem₁, hb, rfl, hholds⟩

end Keys

end ClosureCache
