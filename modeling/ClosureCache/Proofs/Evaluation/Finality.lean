/-
Bindings that get their value once.

A `let` or `const` without a cell that nothing assigns is final: its slot is empty until
its declaration runs, and an environment is made for every time that it runs.
`RespectsFinal` says of an action that it writes a final binding only while the slot is
empty.  After such actions a final binding that had a value has it still, and a capture by
reference reads the slot of the binding that it stands for.
-/
import ClosureCache.Proofs.Evaluation.Origin

namespace ClosureCache

/-- A binding that is written only by its own declaration. -/
structure Binding.Final (d : Binding) : Prop where
  storage : d.storage = .slot
  unassigned : d.mutable = false
  lexical : d.kind.isLexical = true

def ScopeTree.Final (tree : ScopeTree) (b : BindingId) : Prop :=
  ∃ d, tree.binding? b = some d ∧ d.Final

theorem ScopeTree.Eager.not_final {tree : ScopeTree} {b : BindingId} (hb : tree.Eager b) :
    ¬ tree.Final b := by
  rintro ⟨d, hd, hfinal⟩
  obtain ⟨d', hd', heager⟩ := hb
  obtain rfl := Option.some.inj (hd.symm.trans hd')
  rw [hfinal.lexical] at heager
  cases heager

/-- A scope has one binding in each of its slots. -/
theorem ScopeTree.Proper.eq_of_slot {tree : ScopeTree} (ht : tree.Proper) {b b' : BindingId}
    {d d' : Binding} (hd : tree.binding? b = some d) (hd' : tree.binding? b' = some d')
    (hscope : d.scope = d'.scope) (hslot : d.slot = d'.slot) : b = b' := by
  obtain ⟨-, sc, hsc, hb⟩ := ht.placed b d hd
  obtain ⟨-, sc', hsc', hb'⟩ := ht.placed b' d' hd'
  rw [hscope, hsc'] at hsc
  obtain rfl := Option.some.inj hsc
  rw [hslot, hb'] at hb
  exact (Option.some.inj hb).symm

/-! ## Environments -/

/-- Only a lexical binding without a cell can be without a value. -/
def Environment.Prefilled (tree : ScopeTree) (e : Environment) : Prop :=
  ∀ b d, tree.binding? b = some d → d.scope = e.scope → e.slots[d.slot]? = some none →
    d.storage = .slot ∧ d.kind.isLexical = true

theorem Environment.Initial.slot {tree : ScopeTree} (ht : tree.Proper) {s : ScopeId}
    {e : Environment} (he : e.Initial tree s) {b : BindingId} {d : Binding}
    (hd : tree.binding? b = some d) (hs : d.scope = s) : ∃ raw, e.slots[d.slot]? = some raw ∧
      (raw = none ↔ d.storage = .slot ∧ d.kind.isLexical = true) := by
  obtain ⟨-, sc, hsc, hb⟩ := ht.placed b d hd
  exact he.slots sc d.slot b d (hs ▸ hsc) hb hd

theorem Environment.Initial.prefilled {tree : ScopeTree} (ht : tree.Proper) {s : ScopeId}
    {e : Environment} (he : e.Initial tree s) : e.Prefilled tree := by
  intro b d hd hs hempty
  obtain ⟨raw, hraw, hiff⟩ := he.slot ht hd (hs.trans he.scope)
  rw [hempty] at hraw
  exact hiff.1 (Option.some.inj hraw).symm

theorem Environment.write_slots (e : Environment) (i j : Nat) (v : Value) :
    (e.write i v).slots[j]? = if i = j ∧ j < e.slots.size then some (some v) else e.slots[j]? := by
  rw [write]
  dsimp only
  rw [Array.getElem?_setIfInBounds]
  by_cases hij : i = j
  · subst hij
    by_cases hi : i < e.slots.size
    · simp [hi]
    · simp [hi]
  · simp [hij]

/-- No slot is emptied, and of the final bindings only those in `S` change, from having no
value to having one.  Environments are made with values for all but lexical bindings. -/
def Effects.fixing (tree : ScopeTree) (S : ObjectId → BindingId → Prop)
    (makes : FunctionObject → Prop) : Effects where
  writes x e e' := (∀ i, e'.slots[i]? = some none → e.slots[i]? = some none) ∧
    ∀ b d, tree.binding? b = some d → d.Final → d.scope = e.scope →
      e'.slots[d.slot]? = e.slots[d.slot]? ∨ S x b ∧ e.slots[d.slot]? = some none
  opens e := e.Prefilled tree
  makes := makes
  refl _ _ := ⟨fun _ h => h, fun _ _ _ _ _ => .inl rfl⟩
  trans x e e₁ e' hsame h₁ h' := by
    refine ⟨fun i hi => h₁.1 i (h'.1 i hi), fun b d hd hfinal hscope => ?_⟩
    rcases h₁.2 b d hd hfinal hscope with heq | hfill
    · rw [← heq]
      exact h'.2 b d hd hfinal (hscope.trans hsame.scope.symm)
    · exact .inr hfill
  opens_of_writes x e e' hsame he hw b d hd hscope hempty :=
    he b d hd (hscope.trans hsame.scope) (hw.1 _ hempty)

namespace Heap

variable {tree : ScopeTree} {h h' : Heap} {S S' : ObjectId → BindingId → Prop}
  {M M' : FunctionObject → Prop}

/-- Effects may be put more widely, as far as old environments are concerned. -/
theorem Lasts.imp {R R' : Effects} (hl : Lasts R h h')
    (hwrites : ∀ (x : ObjectId) e e', x.index < h.entries.size → R.writes x e e' → R'.writes x e e')
    (hopens : ∀ e, R.opens e → R'.opens e) (hmakes : ∀ f, R.makes f → R'.makes f) :
    Lasts R' h h' where
  size_le := hl.size_le
  gone := hl.gone
  environment x e hin he := by
    obtain ⟨e', he', hsame, hw⟩ := hl.environment x e hin he
    exact ⟨e', he', hsame, hwrites x e e' (lt_of_contains (contains_of_environment he)) hw⟩
  function := hl.function
  outer := hl.outer
  closure := hl.closure
  opened x e' he' := (hl.opened x e' he').imp id fun ⟨hnew, ho⟩ => ⟨hnew, hopens e' ho⟩
  made x f hf := (hl.made x f hf).imp id fun ⟨hnew, hm⟩ => ⟨hnew, hmakes f hm⟩

theorem Lasts.widen (hl : Lasts (.fixing tree S M) h h')
    (hS : ∀ (x : ObjectId) b, x.index < h.entries.size → S x b → S' x b)
    (hM : ∀ f, M f → M' f) : Lasts (.fixing tree S' M') h h' :=
  hl.imp (fun x _ _ hx hw => ⟨hw.1, fun b d hd hfinal hscope =>
    (hw.2 b d hd hfinal hscope).imp id fun ⟨hin, hempty⟩ => ⟨hS x b hx hin, hempty⟩⟩)
    (fun _ he => he) hM

/-- A final binding that has its value keeps it. -/
theorem Lasts.slotAt_final (hl : Lasts (.fixing tree S M) h h') {x : ObjectId} {b : BindingId}
    {d : Binding} (hd : tree.binding? b = some d) (hfinal : d.Final) {raw : Option Value}
    (hraw : h.slotAt x d.slot = .ok raw) (hvalue : raw ≠ none)
    (hscope : ∀ e, h.environment x = .ok e → e.scope = d.scope) (hin : h'.contains x = true) :
    h'.slotAt x d.slot = .ok raw := by
  obtain ⟨e, he, hslot⟩ := slotAt_eq_ok.1 hraw
  obtain ⟨e', he', -, hw⟩ := hl.environment x e hin he
  refine slotAt_eq_ok.2 ⟨e', he', ?_⟩
  rcases hw.2 b d hd hfinal (hscope e he).symm with heq | ⟨-, hempty⟩
  · rw [heq, hslot]
  · rw [hslot] at hempty
    exact absurd (Option.some.inj hempty) hvalue

def Prefilled (tree : ScopeTree) (h : Heap) : Prop :=
  ∀ x e, h.environment x = .ok e → e.Prefilled tree

theorem Prefilled.lasts (hp : h.Prefilled tree) (hl : Lasts (.fixing tree S M) h h') :
    h'.Prefilled tree := by
  intro x e' he'
  rcases hl.opened x e' he' with ⟨e, he⟩ | ⟨-, hopens⟩
  · obtain ⟨e'', he'', hsame, hw⟩ := hl.environment x e (contains_of_environment he') he
    obtain rfl := Except.ok.inj (he'.symm.trans he'')
    exact (Effects.fixing tree S M).opens_of_writes x e e' hsame (hp x e he) hw
  · exact hopens

/-! ## The scopes of environments -/

/-- If there is an environment of this number, it was made for the scope. -/
def OfScope (h : Heap) (s : ScopeId) (x : ObjectId) : Prop :=
  x.index < h.entries.size ∧ ∀ e, h.environment x = .ok e → e.scope = s

theorem ofScope_of_environment {x : ObjectId} {e : Environment} (he : h.environment x = .ok e) :
    h.OfScope e.scope x := by
  refine ⟨lt_of_contains (contains_of_environment he), fun e' he' => ?_⟩
  rw [Except.ok.inj (he.symm.trans he')]

theorem OfScope.lasts {R : Effects} {s : ScopeId} {x : ObjectId} (hx : h.OfScope s x)
    (hl : Lasts R h h') : h'.OfScope s x := by
  obtain ⟨hlt, hscope⟩ := hx
  refine ⟨Nat.lt_of_lt_of_le hlt hl.size_le, fun e' he' => ?_⟩
  rcases hl.opened x e' he' with ⟨e, he⟩ | ⟨hnew, -⟩
  · obtain ⟨e'', he'', hsame, -⟩ := hl.environment x e (contains_of_environment he') he
    obtain rfl := Except.ok.inj (he'.symm.trans he'')
    exact hsame.scope.trans (hscope e he)
  · exact absurd hlt (Nat.not_lt_of_le hnew)

/-! ## Empty slots -/

/-- If there is an environment of this number, it holds the final binding, still without a
value. -/
def Blank (tree : ScopeTree) (h : Heap) (x : ObjectId) (b : BindingId) : Prop :=
  x.index < h.entries.size ∧ ∀ e d, h.environment x = .ok e → tree.binding? b = some d → d.Final →
    d.scope = e.scope ∧ e.slots[d.slot]? = some none

theorem Blank.lasts {x : ObjectId} {b : BindingId} (hb : h.Blank tree x b)
    (hl : Lasts (.fixing tree S M) h h') (hS : ¬ S x b) : h'.Blank tree x b := by
  obtain ⟨hlt, hempty⟩ := hb
  refine ⟨Nat.lt_of_lt_of_le hlt hl.size_le, fun e' d he' hd hfinal => ?_⟩
  rcases hl.opened x e' he' with ⟨e, he⟩ | ⟨hnew, -⟩
  · obtain ⟨e'', he'', hsame, hw⟩ := hl.environment x e (contains_of_environment he') he
    obtain rfl := Except.ok.inj (he'.symm.trans he'')
    obtain ⟨hscope, hslot⟩ := hempty e d he hd hfinal
    refine ⟨hscope.trans hsame.scope.symm, ?_⟩
    rcases hw.2 b d hd hfinal hscope with heq | ⟨hin, -⟩
    · rw [heq, hslot]
    · exact absurd hin hS
  · exact absurd hlt (Nat.not_lt_of_le hnew)

/-- No final binding of a scope has a value in an environment. -/
def Vacant (tree : ScopeTree) (h : Heap) (x : ObjectId) (s : ScopeId) : Prop :=
  ∀ b d, tree.binding? b = some d → d.scope = s → h.Blank tree x b

theorem Vacant.lasts {x : ObjectId} {s : ScopeId} (hv : h.Vacant tree x s)
    (hl : Lasts (.fixing tree S M) h h') (hS : ∀ b, ¬ S x b) : h'.Vacant tree x s :=
  fun b d hd hs => (hv b d hd hs).lasts hl (hS b)

theorem vacant_of_initial (ht : tree.Proper) {x : ObjectId} {e : Environment} {s : ScopeId}
    (he : h.environment x = .ok e) (hinitial : e.Initial tree s) : h.Vacant tree x s := by
  intro b d hd hs
  refine ⟨lt_of_contains (contains_of_environment he), fun e' d' he' hd' hfinal => ?_⟩
  obtain rfl := Except.ok.inj (he.symm.trans he')
  obtain rfl := Option.some.inj (hd.symm.trans hd')
  refine ⟨hs.trans hinitial.scope.symm, ?_⟩
  obtain ⟨raw, hraw, hiff⟩ := hinitial.slot ht hd hs
  rw [hraw, hiff.2 ⟨hfinal.storage, hfinal.lexical⟩]

/-! ## Finding -/

theorem capturedLocation_eq_some {g : ObjectId} {b : BindingId} {location : Location}
    (hlocate : h.capturedLocation g b = .ok (some location)) :
    ∃ i f bindings this slot, location = .captured g i ∧ h.function g = .ok f ∧
      f.closure = .captured bindings this ∧ bindings[i]? = some (b, slot) := by
  rw [capturedLocation] at hlocate
  cases hg : h.function g with
  | error e =>
    rw [hg] at hlocate
    cases hlocate
  | ok f =>
    rw [hg] at hlocate
    dsimp only at hlocate
    cases hclosure : f.closure with
    | chain x =>
      rw [hclosure] at hlocate
      cases hlocate
    | captured bindings this =>
      rw [hclosure] at hlocate
      obtain ⟨i, hi, rfl⟩ := Option.map_eq_some_iff.1 (Except.ok.inj hlocate)
      obtain ⟨hlt, hkey, -⟩ := List.findIdx?_eq_some_iff_getElem.1 hi
      refine ⟨i, f, bindings, this, (bindings[i]).2, rfl, rfl, hclosure, ?_⟩
      rw [List.getElem?_eq_getElem hlt, ← beq_iff_eq.1 hkey]

/-- A slot that is found is the one of the binding, and captures that are found have an
entry for it. -/
theorem locateFrom_eq_some {target : Binding} {n : Nat} {env : ObjectId} {location : Location}
    (hlocate : h.locateFrom target n env = .ok (some location)) :
    (∃ x e, location = .slot x target.slot ∧ h.environment x = .ok e ∧ e.scope = target.scope) ∨
      ∃ g i f bindings this slot, location = .captured g i ∧ h.function g = .ok f ∧
        f.closure = .captured bindings this ∧ bindings[i]? = some (target.id, slot) := by
  induction n generalizing env with
  | zero => cases hlocate
  | succ n ih =>
    rw [locateFrom] at hlocate
    cases he : h.environment env with
    | error e =>
      rw [he] at hlocate
      cases hlocate
    | ok e =>
      rw [he] at hlocate
      dsimp only at hlocate
      split at hlocate
      · next hscope =>
        obtain rfl := Option.some.inj (Except.ok.inj hlocate)
        exact .inl ⟨env, e, rfl, he, hscope⟩
      · cases houter : e.outer with
        | outermost =>
          rw [houter] at hlocate
          cases hlocate
        | environment parent =>
          rw [houter] at hlocate
          exact ih hlocate
        | captures g =>
          rw [houter] at hlocate
          exact .inr ⟨g, capturedLocation_eq_some hlocate⟩

theorem locate_eq_some {env : ObjectId} {b : BindingId} {location : Location}
    (hlocate : h.locate tree env b = .ok (some location)) :
    ∃ target, tree.binding? b = some target ∧
      h.locateFrom target h.entries.size env = .ok (some location) := by
  rw [locate] at hlocate
  split at hlocate
  · cases hlocate
  · next target htarget => exact ⟨target, ScopeTree.binding_eq_ok.1 htarget, hlocate⟩

/-- From an environment of its own scope a binding is found there. -/
theorem locate_of_scope {env : ObjectId} {e : Environment} (he : h.environment env = .ok e)
    {b : BindingId} {d : Binding} (hd : tree.binding? b = some d) (hscope : d.scope = e.scope) :
    h.locate tree env b = .ok (some (.slot env d.slot)) := by
  rw [locate, ScopeTree.binding_eq_ok.2 hd]
  dsimp only
  obtain ⟨n, hn⟩ := Nat.exists_eq_add_of_lt (lt_of_contains (contains_of_environment he))
  rw [hn, locateFrom, he]
  dsimp only
  rw [if_pos hscope.symm]

/-! ## Writing -/

/-- A write that meets the slot of a final binding must fill it. -/
theorem writes_slot {x : ObjectId} {e : Environment} {i : Nat} {v : Value}
    (h : ∀ b d, tree.binding? b = some d → d.Final → d.scope = e.scope → d.slot = i →
      S x b ∧ e.slots[i]? = some none) : (Effects.fixing tree S M).writes x e (e.write i v) := by
  refine ⟨fun j hj => ?_, fun b d hd hfinal hscope => ?_⟩
  · rw [e.write_slots] at hj
    split at hj
    · cases hj
    · exact hj
  · rw [e.write_slots]
    split
    · next hi => exact .inr (hi.1 ▸ h b d hd hfinal hscope hi.1.symm)
    · exact .inl rfl

theorem writable_of_not_final (ht : tree.Proper) {b : BindingId} (hb : ¬ tree.Final b)
    (env : ObjectId) : h.Writable (.fixing tree S M) tree env b := by
  intro x i e v hlocate he
  obtain ⟨target, htarget, hlocate⟩ := locate_eq_some hlocate
  rcases locateFrom_eq_some hlocate with ⟨x', e', heq, he', hscope⟩ | ⟨g, i', _, _, _, _, heq, -⟩
  · obtain ⟨rfl, rfl⟩ := Location.slot.inj heq
    obtain rfl := Except.ok.inj (he.symm.trans he')
    refine writes_slot fun b' d hd hfinal hscope' hslot => ?_
    obtain rfl := ht.eq_of_slot hd htarget (hscope'.trans hscope) hslot
    exact absurd ⟨d, hd, hfinal⟩ hb
  · cases heq

theorem writable_of_blank (ht : tree.Proper) {b : BindingId} (hb : tree.Final b) {env : ObjectId}
    (hblank : h.Blank tree env b) (hS : S env b) : h.Writable (.fixing tree S M) tree env b := by
  obtain ⟨d, hd, hfinal⟩ := hb
  intro x i e v hlocate he
  have hwalk := hlocate
  obtain ⟨target, htarget, hwalk⟩ := locate_eq_some hwalk
  obtain ⟨e₀, he₀⟩ := environment_of_locateFrom hwalk
  obtain ⟨hscope, hempty⟩ := hblank.2 e₀ d he₀ hd hfinal
  rw [locate_of_scope he₀ hd hscope] at hlocate
  obtain ⟨rfl, rfl⟩ := Location.slot.inj (Option.some.inj (Except.ok.inj hlocate))
  obtain rfl := Except.ok.inj (he.symm.trans he₀)
  refine writes_slot fun b' d' hd' _ hscope' hslot => ?_
  obtain rfl := ht.eq_of_slot hd' hd (hscope'.trans hscope.symm) hslot
  exact ⟨hS, hempty⟩

end Heap

/-! ## Captures by reference -/

/-- A capture by reference is of a binding that nothing assigns, and reads the slot of the
binding, as long as there is an environment to read it from. -/
def CapturedSlot.Aligned (tree : ScopeTree) (h : Heap) (b : BindingId) : CapturedSlot → Prop
  | .value _ => True
  | .binding x i => ∃ d, tree.binding? b = some d ∧ d.slot = i ∧ d.storage = .slot ∧
    d.mutable = false ∧ (d.kind.isLexical = true ∨ d.kind.isProvisional = true) ∧
    x.index < h.entries.size ∧ ∀ e, h.environment x = .ok e → e.scope = d.scope

def Closure.Aligned (tree : ScopeTree) (h : Heap) : Closure → Prop
  | .chain _ => True
  | .captured bindings _ => ∀ entry ∈ bindings, entry.2.Aligned tree h entry.1

def Heap.Aligned (tree : ScopeTree) (h : Heap) : Prop :=
  ∀ x f, h.function x = .ok f → f.closure.Aligned tree h

section Aligned

open Heap

variable {tree : ScopeTree} {h h' : Heap} {R : Effects}

theorem CapturedSlot.Aligned.lasts {b : BindingId} {slot : CapturedSlot}
    (hs : slot.Aligned tree h b) (hl : Lasts R h h') : slot.Aligned tree h' b := by
  cases slot with
  | value raw => exact trivial
  | binding x i =>
    obtain ⟨d, hd, hslot, hstorage, hmutable, hkind, hlt, hscope⟩ := hs
    have hx : h.OfScope d.scope x := ⟨hlt, hscope⟩
    exact ⟨d, hd, hslot, hstorage, hmutable, hkind, hx.lasts hl⟩

theorem Closure.Aligned.lasts {c : Closure} (hc : c.Aligned tree h) (hl : Lasts R h h') :
    c.Aligned tree h' := by
  cases c with
  | chain env => exact trivial
  | captured bindings this => exact fun entry hentry => (hc entry hentry).lasts hl

/-- Functions that are made aligned keep the heap aligned. -/
theorem Heap.Aligned.lasts (ha : h.Aligned tree) (hl : Lasts R h h')
    (hmakes : ∀ f, R.makes f → f.closure.Aligned tree h) : h'.Aligned tree := by
  intro x f hf
  rcases hl.made x f hf with hf | ⟨-, hmade⟩
  · exact (ha x f hf).lasts hl
  · exact (hmakes f hmade).lasts hl

/-- A capture from the slot of a binding is aligned: a binding that is read by reference has
no value yet, or is a `var` or a function statement. -/
theorem Heap.Prefilled.captureSlot (hp : h.Prefilled tree) {c : Capture} {b : BindingId}
    {d : Binding}
    (hd : tree.binding? b = some d) (hc : c.Takes b d) {x : ObjectId} {e : Environment}
    (he : h.environment x = .ok e) (hscope : e.scope = d.scope) {slot : CapturedSlot}
    (hslot : h.captureSlot d (.slot x d.slot) = .ok slot) : slot.Aligned tree h b := by
  rw [Heap.captureSlot] at hslot
  cases hraw : h.slotAt x d.slot with
  | error _ =>
    rw [hraw] at hslot
    cases hslot
  | ok raw =>
    rw [hraw] at hslot
    dsimp only at hslot
    split at hslot
    · obtain rfl := Except.ok.inj hslot
      exact trivial
    · next hlate =>
      obtain rfl := Except.ok.inj hslot
      obtain ⟨hcell, hearly⟩ := not_or.1 hlate
      have hstorage : d.storage = .slot := by
        cases hs : d.storage with
        | slot => rfl
        | cell => exact absurd hs hcell
      have hmutable : d.mutable = false := by
        cases hc with
        | cell _ hcell' _ => exact absurd hcell' hcell
        | value _ _ _ hmutable => exact hmutable
      refine ⟨d, hd, rfl, hstorage, hmutable, ?_, lt_of_contains (contains_of_environment he),
        fun e' he' => ?_⟩
      · cases raw with
        | none =>
          obtain ⟨e', he', hempty⟩ := slotAt_eq_ok.1 hraw
          obtain rfl := Except.ok.inj (he.symm.trans he')
          exact .inl (hp x e he b d hd hscope.symm hempty).2
        | some v => exact .inr (by simpa using hearly)
      · obtain rfl := Except.ok.inj (he.symm.trans he')
        exact hscope

/-- Capturing in an aligned heap gives an aligned capture, made here or passed on. -/
theorem Heap.Aligned.captureBinding (ha : h.Aligned tree) (hp : h.Prefilled tree) {c : Capture}
    {b : BindingId} {d : Binding} (hd : tree.binding? b = some d) (hc : c.Takes b d)
    {env : ObjectId} {slot : CapturedSlot} (hslot : h.captureBinding tree env b = .ok slot)
    (hid : d.id = b) : slot.Aligned tree h b := by
  obtain ⟨d', location, hd', hlocate, hslot⟩ := captureBinding_eq_ok hslot
  obtain rfl := Option.some.inj (hd.symm.trans hd')
  obtain ⟨target, htarget, hwalk⟩ := locate_eq_some hlocate
  obtain rfl := Option.some.inj (hd.symm.trans htarget)
  rcases locateFrom_eq_some hwalk with
    ⟨x, e, rfl, he, hscope⟩ | ⟨g, i, f, bindings, this, slot', rfl, hf, hclosure, hentry⟩
  · exact hp.captureSlot hd hc he hscope hslot
  · have hread : h.capturedSlot g i = .ok slot' :=
      capturedSlot_eq_ok.2 ⟨f, bindings, this, hf, hclosure, d.id, hentry⟩
    rw [Heap.captureSlot, hread] at hslot
    obtain rfl := Except.ok.inj hslot
    have hall := ha g f hf
    rw [hclosure] at hall
    have haligned := hall _ (List.mem_of_getElem? hentry)
    rwa [hid] at haligned

/-- A closure that reaching a definition makes is aligned. -/
theorem Heap.Aligned.madeFrom {image : Image} (ha : h.Aligned image.tree)
    (hp : h.Prefilled image.tree) (ht : image.tree.Proper)
    (hspecs : ∀ site spec, image.analysis.get? site = some (.memoized spec) →
      spec.Regular image.tree) {env : ObjectId} {site : SiteId} {closure : Closure}
    (hmade : closure.MadeFrom image h env site) : closure.Aligned image.tree h := by
  rcases hmade with rfl | ⟨spec, hspec, hclosure⟩
  · exact trivial
  · obtain ⟨⟨bindings, this⟩, htable, hok⟩ := Except.bind_eq_ok.1 hclosure
    obtain rfl := Except.ok.inj hok
    intro entry hentry
    obtain ⟨hcapture, c, hc, hb⟩ := (captureTable_spec htable).2.1 entry hentry
    obtain ⟨d, hd, htakes⟩ := (hspecs site spec hspec).takes c hc entry.1 hb
    exact ha.captureBinding hp hd htakes hcapture (ht.placed _ d hd).1

end Aligned

/-! ## Steps -/

/-- What loading has made of any program, as far as it tells where programs write.  No
arguments binding was annotated. -/
structure Image.Settled (image : Image) : Prop where
  proper : image.tree.Proper
  specs : ∀ site spec, image.analysis.get? site = some (.memoized spec) → spec.Regular image.tree
  definitions : ∀ site node, image.functions.get? site = some node →
    ∃ own, node.Settled (fun _ => False) image.tree own
  distinct : (lexicalNames image.program.body).Nodup
  body : TidyStatements image.tree ScopeTree.global image.program.body
  «mutable» : ∀ b d, image.tree.binding? b = some d →
    d.mutable = (!d.kind.isImmutable && decide (0 < d.assignments))

/-- A machine whose final bindings can be relied on. -/
structure Machine.Steady (image : Image) (m : Machine) : Prop where
  prefilled : m.heap.Prefilled image.tree
  aligned : m.heap.Aligned image.tree

/-- An action writes a final binding only as its declaration does, to the slot that is still
empty. -/
def Action.RespectsFinal (tree : ScopeTree) (h : Heap) : Action → Prop
  | assign _ i _ => ∀ b, i.resolution = .binding b → ¬ tree.Final b
  | writeBinding env b _ _ => tree.Final b → h.Blank tree env b
  | allocate o => o.isReader = false
  | _ => True

/-- The final binding that an action writes, with the environment. -/
def Action.Fills (tree : ScopeTree) : Action → ObjectId → BindingId → Prop
  | writeBinding env b _ _, x, c => x = env ∧ c = b ∧ tree.Final b
  | _, _, _ => False

section Steps

variable {image : Image} {m : Machine} {a : Action}

theorem Action.newEnvironment_eq_ok {scope : ScopeId} {outer : Enclosure} {this : Option Value}
    {x : ObjectId} {m' : Machine}
    (hrun : (Action.newEnvironment scope outer this).perform image m = (.ok x, m')) :
    Heap.newEnvironment image.tree scope outer this m.heap = (.ok x, m'.heap) := by
  have happly : (Action.newEnvironment scope outer this).perform image m = _ :=
    (EvalM.bind_of_ok EvalM.read_apply).trans (EvalM.tryHeap_apply _)
  rw [happly] at hrun
  obtain ⟨hresult, rfl⟩ := Prod.mk.inj hrun
  exact Prod.ext (Except.mapError_eq_ok.1 hresult) rfl

theorem Action.RespectsFinal.within (hi : image.Settled) (hm : m.Steady image)
    (ha : a.RespectsFinal image.tree m.heap) :
    a.Within (.fixing image.tree (a.Fills image.tree) fun f => f.closure.Aligned image.tree m.heap)
      image m.heap := by
  cases a with
  | assign env i v => exact fun b hb => Heap.writable_of_not_final hi.proper (ha b hb) env
  | writeBinding env b name v =>
    by_cases hb : image.tree.Final b
    · exact Heap.writable_of_blank hi.proper hb (ha hb) ⟨rfl, rfl, hb⟩
    · exact Heap.writable_of_not_final hi.proper hb env
  | newEnvironment scope outer this => exact fun e he => he.prefilled hi.proper
  | allocate o =>
    refine ⟨fun e he => ?_, fun f hf => ?_⟩
    · rw [he] at ha
      cases ha
    · rw [hf] at ha
      cases ha
  | instantiate node env =>
    exact fun site closure hmade => hm.aligned.madeFrom hm.prefilled hi.proper hi.specs hmade
  | _ => trivial

theorem Action.Within.widen {S S' : ObjectId → BindingId → Prop} {M M' : FunctionObject → Prop}
    {h : Heap} (ha : a.Within (.fixing image.tree S M) image h) (hS : ∀ x b, S x b → S' x b)
    (hM : ∀ f, M f → M' f) : a.Within (.fixing image.tree S' M') image h := by
  have hwrites : ∀ {x e e'}, (Effects.fixing image.tree S M).writes x e e' →
      (Effects.fixing image.tree S' M').writes x e e' := fun {x _ _} hw =>
    ⟨hw.1, fun b d hd hfinal hscope => (hw.2 b d hd hfinal hscope).imp id fun ⟨hin, hempty⟩ =>
      ⟨hS x b hin, hempty⟩⟩
  cases a with
  | assign env i v => exact fun b hb x j e w hl he => hwrites (ha b hb x j e w hl he)
  | writeBinding env b name v => exact fun x j e w hl he => hwrites (ha x j e w hl he)
  | newEnvironment scope outer this => exact ha
  | allocate o => exact ⟨ha.1, fun f hf => hM f (ha.2 f hf)⟩
  | instantiate node env => exact fun site closure hmade => hM _ (ha site closure hmade)
  | _ => trivial

/-- A later machine: of the final bindings of what is still there only those in `S` got a
value in the meantime. -/
structure Machine.FillsOnly (image : Image) (S : ObjectId → BindingId → Prop) (m m' : Machine) :
    Prop where
  steady : m'.Steady image
  lasts : m.heap.Lasts (.fixing image.tree S fun _ => True) m'.heap

variable {S S' : ObjectId → BindingId → Prop} {m₁ m' : Machine}

theorem Machine.FillsOnly.refl (hm : m.Steady image) : m.FillsOnly image S m := ⟨hm, .refl ..⟩

theorem Machine.FillsOnly.trans (a : m.FillsOnly image S m₁) (b : m₁.FillsOnly image S m') :
    m.FillsOnly image S m' := ⟨b.steady, a.lasts.trans b.lasts⟩

theorem Machine.FillsOnly.widen (h : m.FillsOnly image S m')
    (hS : ∀ (x : ObjectId) b, x.index < m.heap.entries.size → S x b → S' x b) :
    m.FillsOnly image S' m' := ⟨h.steady, h.lasts.widen hS fun _ hf => hf⟩

/-- An action that respects final bindings fills no more than the slot that it is meant to
fill. -/
theorem Machine.Steady.action (hi : image.Settled) (hm : m.Steady image)
    (ha : a.RespectsFinal image.tree m.heap) :
    m.FillsOnly image (a.Fills image.tree) (a.perform image m).2 := by
  have hl := a.lasts (ha.within hi hm)
  refine ⟨⟨hm.prefilled.lasts hl, hm.aligned.lasts hl fun _ hf => hf⟩, ?_⟩
  exact hl.widen (fun _ _ _ hS => hS) fun _ _ => trivial

end Steps

end ClosureCache
