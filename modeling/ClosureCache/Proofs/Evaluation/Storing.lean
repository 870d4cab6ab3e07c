/-
What evaluation does to a typed heap by itself.

New objects, written bindings and written properties leave the heap typed and lose
nothing.  Writing a binding in sight succeeds, unless it is a capture without a cell.
-/
import ClosureCache.Proofs.Evaluation.Typing

namespace ClosureCache

/-- An object that is neither an environment nor a function fits if it refers to nothing
that is not there. -/
theorem Object.fits_of_live {image : Image} {h : Heap} {x : ObjectId} {o : Object}
    (hlive : ∀ y ∈ o.strongRefs, h.contains y = true) (henv : ∀ e, o ≠ .environment e)
    (hfun : ∀ f, o ≠ .function f) : o.Fits image h x :=
  ⟨hlive, fun e he => absurd he (henv e), fun f hf => absurd hf (hfun f)⟩

theorem mem_objectsOf {l : List Value} {y : ObjectId} :
    y ∈ objectsOf l ↔ ∃ v ∈ l, v.object? = some y := List.mem_filterMap

namespace Heap

variable {image : Image} {h h' : Heap}

/-! ## Single changes -/

theorem continues_allocate (h : Heap) (o : Object) :
    Continues h (h.allocate o).2 := by
  have hobject : ∀ x o', h.object x = .ok o' → Heap.object (h.allocate o).2 x = .ok o' := by
    intro x o' hx
    rw [object_allocate_of_contains o (contains_of_object hx), hx]
  refine ⟨⟨fun {x} _ hin => ?_, fun x e _ he => ⟨e, ?_, rfl, rfl, rfl⟩, fun x f _ hf => ?_,
    fun x c _ hc => ⟨c, ?_⟩⟩, fun x e he => ⟨e, ?_, rfl⟩⟩
  · obtain ⟨e, he⟩ := contains_iff.1 hin
    exact contains_of_object (hobject x _ (object_of_some he))
  · exact environment_eq_ok.2 (hobject _ _ (environment_eq_ok.1 he))
  · exact function_eq_ok.2 (hobject _ _ (function_eq_ok.1 hf))
  · exact cellContents_eq_ok.2 (hobject _ _ (cellContents_eq_ok.1 hc))
  · rw [entry?_allocate_of_lt (lt_of_some he), he]

/-- A new object that fits leaves the heap typed. -/
theorem Typed.allocate (ht : h.Typed image) {o : Object}
    (ho : o.isPart = false → o.Fits image (h.allocate o).2 ⟨h.entries.size⟩) :
    Heap.Typed image (h.allocate o).2 := by
  refine ht.step (continues_allocate h o).persists fun x o' hx hpart => ?_
  by_cases hxs : x = ⟨h.entries.size⟩
  · subst hxs
    rw [object_allocate_self] at hx
    obtain rfl := Except.ok.inj hx
    exact .inr (ho hpart)
  · rw [object, entry?_allocate, if_neg hxs] at hx
    exact .inl hx

/-- An object may take the place of another one if the walks outwards, the functions and
the cells stay. -/
theorem continues_setObject {x : ObjectId} {o o' : Object} (hx : h.object x = .ok o)
    (henv : ∀ e, o = .environment e → ∃ e', o' = .environment e' ∧ e'.scope = e.scope ∧
      e'.outer = e.outer ∧ e'.this = e.this)
    (hfun : ∀ f, o ≠ .function f) (hcell : ∀ c, o = .cell c → ∃ c', o' = .cell c') :
    Continues h (h.setObject x o') := by
  have hin := contains_of_object hx
  refine ⟨⟨fun _ hy => by rwa [contains_setObject], fun y e _ he => ?_, fun y f _ hf => ?_,
    fun y c _ hc => ?_⟩, fun y e he => ?_⟩
  · by_cases hyx : y = x
    · subst hyx
      rw [environment_eq_ok, hx] at he
      obtain ⟨e', rfl, hsame⟩ := henv e (Except.ok.inj he)
      exact ⟨e', environment_eq_ok.2 (object_setObject_self _ hin), hsame⟩
    · refine ⟨e, environment_eq_ok.2 ?_, rfl, rfl, rfl⟩
      rw [object_setObject_of_ne _ hyx, environment_eq_ok.1 he]
  · by_cases hyx : y = x
    · subst hyx
      rw [function_eq_ok, hx] at hf
      exact absurd (Except.ok.inj hf) (hfun f)
    · rw [function_eq_ok, object_setObject_of_ne _ hyx, function_eq_ok.1 hf]
  · by_cases hyx : y = x
    · subst hyx
      rw [cellContents_eq_ok, hx] at hc
      obtain ⟨c', rfl⟩ := hcell c (Except.ok.inj hc)
      exact ⟨c', cellContents_eq_ok.2 (object_setObject_self _ hin)⟩
    · exact ⟨c, by rw [cellContents_eq_ok, object_setObject_of_ne _ hyx, cellContents_eq_ok.1 hc]⟩
  · rw [entry?_setObject]
    split
    · next hyx => exact ⟨{ e with
        object := o' }, by rw [← hyx, he]; rfl, rfl⟩
    · exact ⟨e, he, rfl⟩

theorem Typed.setObject (ht : h.Typed image) {x : ObjectId} {o' : Object}
    (hin : h.contains x = true) (hp : Continues h (h.setObject x o'))
    (ho : o'.Fits image (h.setObject x o') x) : Heap.Typed image (h.setObject x o') := by
  refine ht.step hp.persists fun y o hy _ => ?_
  by_cases hyx : y = x
  · subst hyx
    rw [object_setObject_self _ hin] at hy
    obtain rfl := Except.ok.inj hy
    exact .inr ho
  · rw [object_setObject_of_ne _ hyx] at hy
    exact .inl hy

/-! ## Writing bindings -/

theorem setCellContents_spec (ht : h.Typed image) {c : ObjectId} {contents : Option Value}
    (hc : h.cellContents c = .ok contents) {v : Value} (hv : v.Live h) :
    ∃ h', setCellContents c v h = (.ok (), h') ∧ h'.Typed image ∧
      Continues h h' := by
  have hobject := cellContents_eq_ok.1 hc
  have hp : Continues h (h.setObject c (.cell (some v))) :=
    continues_setObject hobject (fun e he => (by cases he)) (fun f hf => (by cases hf))
      fun _ _ => ⟨_, rfl⟩
  refine ⟨_, by rw [setCellContents, hc], ?_, hp⟩
  refine ht.setObject (contains_of_object hobject) hp (Object.fits_of_live (fun y hy => ?_)
    (fun e he => (by cases he)) fun f hf => (by cases hf))
  refine hp.contains (hv y ?_)
  exact Value.objectOf_some.1 hy

theorem setEnvironmentSlot_spec (ht : h.Typed image) (hi : image.Sound) {b : BindingId}
    {d : Binding} (hb : image.tree.binding? b = some d) (hslot : d.storage = .slot)
    {x : ObjectId} {e : Environment} (he : h.environment x = .ok e) (hscope : e.scope = d.scope)
    {v : Value} (hv : v.Live h) :
    ∃ h', setEnvironmentSlot x d.slot (some v) h = (.ok (), h') ∧ h'.Typed image ∧
      Continues h h' := by
  have hobject := environment_eq_ok.1 he
  have hfits := ht.environment he
  obtain ⟨raw, -, hraw, -⟩ := ht.slotAt hi hb he hscope
  have hlt : d.slot < e.slots.size := by
    rcases Nat.lt_or_ge d.slot e.slots.size with hlt | hge
    · exact hlt
    · rw [Array.getElem?_eq_none hge] at hraw
      cases hraw
  generalize hnew : ({ e with
    slots := e.slots.setIfInBounds d.slot (some v) } : Environment) = e'
  have hkeep : e'.scope = e.scope ∧ e'.outer = e.outer ∧ e'.this = e.this ∧
      e'.slots = e.slots.setIfInBounds d.slot (some v) := by
    rw [← hnew]
    exact ⟨rfl, rfl, rfl, rfl⟩
  obtain ⟨hscope', houter', hthis', hslots'⟩ := hkeep
  have hp : Continues h (h.setObject x (.environment e')) := by
    refine continues_setObject hobject (fun e₁ he₁ => ?_) (fun f hf => (by cases hf))
      fun c hc => (by cases hc)
    obtain rfl := Object.environment.inj he₁
    exact ⟨e', rfl, hscope', houter', hthis'⟩
  have hentry : ∀ i raw, e'.slots[i]? = some raw → i = d.slot ∧ raw = some v ∨
      e.slots[i]? = some raw := by
    intro i raw hi
    rw [hslots', Array.getElem?_setIfInBounds] at hi
    split at hi
    · next hid =>
      exact .inl ⟨hid.symm, (Option.some.inj hi).symm⟩
    · exact .inr hi
  refine ⟨_, by rw [setEnvironmentSlot, he]; dsimp only; rw [if_pos hlt, hnew], ?_, hp⟩
  refine ht.setObject (contains_of_object hobject) hp ⟨fun y hy => ?_, fun e₁ he₁ => ?_,
    fun f hf => (by cases hf)⟩
  · refine hp.contains ?_
    rcases List.mem_append.1 hy with hy | hy
    · rcases List.mem_append.1 hy with hy | hy
      · exact hfits.live y (List.mem_append_left _ (List.mem_append_left _ (houter' ▸ hy)))
      · obtain ⟨raw, hmem, hy⟩ := List.mem_flatMap.1 hy
        obtain ⟨i, hi⟩ := Array.mem_iff_getElem?.1 (Array.mem_toList_iff.1 hmem)
        rcases hentry i raw hi with ⟨-, rfl⟩ | hi
        · exact hv y (Value.objectOf_some.1 hy)
        · exact hfits.live y (mem_refs_of_slot hi hy)
    · exact hfits.live y (List.mem_append_right _ (hthis' ▸ hy))
  · obtain rfl := Object.environment.inj he₁
    have hold := (hfits.environment e rfl).persists hp.persists fun _ _ => trivial
    obtain ⟨sc, hsc, hsize, hthis, hblock⟩ := hold.scope
    refine ⟨⟨sc, hscope' ▸ hsc, ?_, hthis' ▸ hthis, houter' ▸ hblock⟩, houter' ▸ hold.descends,
      fun b' d' raw' hb' hd' hraw' => ?_⟩
    · rw [hslots', Array.size_setIfInBounds, hsize]
    · rcases hentry d'.slot raw' hraw' with ⟨hsame, -⟩ | hraw'
      · -- two bindings of one scope with one slot are one
        obtain ⟨-, sc₁, hsc₁, hat₁⟩ := hi.proper.placed b d hb
        obtain ⟨-, sc₂, hsc₂, hat₂⟩ := hi.proper.placed b' d' hb'
        rw [hd', hscope', hscope, hsc₁] at hsc₂
        obtain rfl := Option.some.inj hsc₂
        rw [hsame, hat₁] at hat₂
        obtain rfl := Option.some.inj hat₂
        rw [hb] at hb'
        obtain rfl := Option.some.inj hb'
        intro hcell
        rw [hslot] at hcell
        cases hcell
      · exact hold.admits b' d' raw' hb' (hd'.trans hscope') hraw'

/-- Writing a binding in sight succeeds, unless it is a capture without a cell. -/
theorem writeBinding_spec (ht : h.Typed image) (hi : image.Sound) {env : ObjectId} {b : BindingId}
    {d : Binding} (hb : image.tree.binding? b = some d) {location : Location}
    (hlocate : h.locate image.tree env b = .ok (some location)) (hl : location.Fits image h d)
    (hw : d.storage = .slot → ∀ g i, location ≠ .captured g i) (name : String) {v : Value}
    (hv : v.Live h) :
    ∃ h', writeBinding image.tree env b name v h = (.ok (), h') ∧ h'.Typed image ∧
      Continues h h' := by
  have hbind : (image.tree.binding b).mapError EvalError.scope = .ok d := by
    rw [ScopeTree.binding_eq_ok.2 hb]
    rfl
  have hask : HeapM.ask (fun _ => (image.tree.binding b).mapError EvalError.scope) h =
      (.ok d, h) := by
    rw [HeapM.ask_apply, hbind]
  have hlook : HeapM.ask (fun h => h.locate image.tree env b) h = (.ok (some location), h) := by
    rw [HeapM.ask_apply, hlocate]
  rw [writeBinding, HeapM.bind_of_ok hask, HeapM.bind_of_ok hlook]
  dsimp only
  cases hstorage : d.storage with
  | cell =>
    obtain ⟨raw, hraw, -, hadmits⟩ := hl.contents ht hi hb
    obtain ⟨c, contents, rfl, hc⟩ := hadmits hstorage
    have hcontents : HeapM.ask (fun h => (h.contentsAt location).mapError EvalError.heap) h =
        (.ok (some (.object c)), h) := by
      rw [HeapM.ask_apply, hraw]
      rfl
    dsimp only
    rw [HeapM.bind_of_ok hcontents]
    obtain ⟨h', hrun, hend⟩ := setCellContents_spec ht hc hv
    exact ⟨h', HeapM.mapError_of_ok hrun, hend⟩
  | slot =>
    dsimp only
    cases hl with
    | slot he hscope =>
      obtain ⟨h', hrun, hend⟩ := setEnvironmentSlot_spec ht hi hb hstorage he hscope hv
      exact ⟨h', HeapM.mapError_of_ok hrun, hend⟩
    | captured => exact absurd rfl (hw hstorage _ _)

/-! ## New environments -/

/-- The first contents of the slots of bindings: a new cell for each binding with one. -/
theorem initialSlots_spec (ht : h.Typed image) (bs : List BindingId)
    (hbs : ∀ b ∈ bs, ∃ d, image.tree.binding? b = some d) :
    ∃ slots h', initialSlots image.tree bs h = (.ok slots, h') ∧ h'.Typed image ∧
      Continues h h' ∧ slots.length = bs.length ∧
      (∀ raw ∈ slots, ∀ y ∈ objectOf raw, h'.contains y = true) ∧
      ∀ (i : Nat) b d raw, bs[i]? = some b → image.tree.binding? b = some d → slots[i]? = some raw →
        d.Admits h' raw := by
  induction bs generalizing h with
  | nil =>
    exact ⟨[], h, rfl, ht, .refl _, rfl, fun _ hraw => absurd hraw List.not_mem_nil,
      fun i b d raw hb => by cases hb⟩
  | cons b rest ih =>
    obtain ⟨d, hd⟩ := hbs b List.mem_cons_self
    have hask : HeapM.ask (fun _ => (image.tree.binding b).mapError EvalError.scope) h =
        (.ok d, h) := by
      rw [HeapM.ask_apply, ScopeTree.binding_eq_ok.2 hd]
      rfl
    obtain ⟨raw, h₁, hrun, ht₁, hp₁, hlive, hadmits⟩ : ∃ raw h₁,
        initialSlot image.tree b h = (.ok raw, h₁) ∧ h₁.Typed image ∧
          Continues h h₁ ∧ (∀ y ∈ objectOf raw, h₁.contains y = true) ∧
          d.Admits h₁ raw := by
      rw [initialSlot, HeapM.bind_of_ok hask]
      have hcontents :
          ∀ y, y ∉ objectOf (if d.kind.isLexical then none else some Value.undefined) := by
        intro y hy
        split at hy
        · cases hy
        · cases Value.objectOf_some.1 hy
      generalize (if d.kind.isLexical then none else some Value.undefined) = contents at hcontents
      cases hstorage : d.storage with
      | slot =>
        refine ⟨contents, h, rfl, ht, .refl _, fun y hy => absurd hy (hcontents y), fun hcell => ?_⟩
        rw [hstorage] at hcell
        cases hcell
      | cell =>
        refine ⟨some (.object ⟨h.entries.size⟩), (h.allocate (.cell contents)).2, rfl, ?_,
          continues_allocate h _, fun y hy => ?_, fun _ => ⟨_, contents, rfl, ?_⟩⟩
        · exact ht.allocate fun _ => Object.fits_of_live (fun y hy => absurd hy (hcontents y))
            (fun e he => (by cases he)) fun f hf => (by cases hf)
        · obtain rfl := Option.some.inj (Value.objectOf_some.1 hy)
          exact contains_of_object (object_allocate_self h _)
        · exact cellContents_eq_ok.2 (object_allocate_self h _)
    obtain ⟨slots, h', hrest, ht', hp', hlength, hslots, hall⟩ :=
      ih ht₁ fun b' hb' => hbs b' (List.mem_cons_of_mem _ hb')
    refine ⟨raw :: slots, h', ?_, ht', hp₁.trans hp', congrArg (· + 1) hlength,
      fun raw' hraw' y hy => ?_, fun i b' d' raw' hb' hd' hraw' => ?_⟩
    · rw [initialSlots, HeapM.bind_of_ok hrun, HeapM.bind_of_ok hrest]
      rfl
    · rcases List.mem_cons.1 hraw' with rfl | hraw'
      · exact hp'.contains (hlive y hy)
      · exact hslots raw' hraw' y hy
    · cases i with
      | zero =>
        obtain rfl := Option.some.inj hb'
        obtain rfl := Option.some.inj hraw'
        rw [hd] at hd'
        obtain rfl := Option.some.inj hd'
        exact hadmits.persists hp'.persists fun _ _ => trivial
      | succ i => exact hall i b' d' raw' hb' hd' hraw'

/-- Making an environment for a scope succeeds where its surroundings fit the scope. -/
theorem newEnvironment_spec (ht : h.Typed image) (hi : image.Sound) {scope : ScopeId} {sc : Scope}
    (hsc : image.tree.scope? scope = some sc) {outer : Enclosure} {this : Option Value}
    (houter : ∀ y ∈ outer.refs, h.contains y = true)
    (hthis : ∀ y ∈ objectOf this, h.contains y = true)
    (hprovides : sc.providesThis = true → this.isSome = true)
    (hblock : sc.kind = .block → ∃ y e, outer = .environment y ∧ h.environment y = .ok e ∧
      sc.parent = some e.scope) :
    ∃ env e h', newEnvironment image.tree scope outer this h = (.ok env, h') ∧
      h'.Typed image ∧ Continues h h' ∧ h'.environment env = .ok e ∧
      e.scope = scope ∧ e.outer = outer ∧ e.this = this := by
  have hask : HeapM.ask (fun _ => (image.tree.scope scope).mapError EvalError.scope) h =
      (.ok sc, h) := by
    rw [HeapM.ask_apply, ScopeTree.scope, hsc]
    rfl
  obtain ⟨slots, h₁, hslots, ht₁, hp₁, hlength, hlive, hadmits⟩ :=
    initialSlots_spec ht sc.bindings.toList fun b hb => by
      obtain ⟨i, hget⟩ := Array.mem_iff_getElem?.1 (Array.mem_toList_iff.1 hb)
      obtain ⟨d, hd, -⟩ := hi.proper.listed scope sc i b hsc hget
      exact ⟨d, hd⟩
  generalize he : (⟨scope, outer, slots.toArray, this⟩ : Environment) = e
  have hp₂ := continues_allocate h₁ (.environment e)
  have hfields : e.scope = scope ∧ e.outer = outer ∧ e.this = this ∧ e.slots = slots.toArray := by
    rw [← he]
    exact ⟨rfl, rfl, rfl, rfl⟩
  obtain ⟨hscope', houter', hthis', hslots'⟩ := hfields
  have hpersist := hp₁.trans hp₂
  refine ⟨⟨h₁.entries.size⟩, e, (h₁.allocate (.environment e)).2, ?_, ?_, hpersist, ?_, hscope',
    houter', hthis'⟩
  · rw [newEnvironment, HeapM.bind_of_ok hask, HeapM.bind_of_ok hslots, he]
    rfl
  · refine ht₁.allocate fun _ => ⟨fun y hy => ?_, fun e₁ he₁ => ?_, fun f hf => (by cases hf)⟩
    · rcases List.mem_append.1 hy with hy | hy
      · rcases List.mem_append.1 hy with hy | hy
        · exact hpersist.contains (houter y (houter' ▸ hy))
        · obtain ⟨raw, hraw, hy⟩ := List.mem_flatMap.1 hy
          rw [hslots'] at hraw
          exact hp₂.contains (hlive raw hraw y hy)
      · exact hpersist.contains (hthis y (hthis' ▸ hy))
    · obtain rfl := Object.environment.inj he₁
      refine ⟨⟨sc, hscope' ▸ hsc, ?_, hthis' ▸ hprovides, fun hkind => ?_⟩, fun y hy => ?_,
        fun b d raw hb hd hraw => ?_⟩
      · rw [hslots', List.size_toArray, hlength, Array.length_toList]
      · obtain ⟨y, e', rfl, he', hparent⟩ := hblock hkind
        obtain ⟨e'', he'', hscope, -⟩ := hpersist.persists.environment y e' trivial he'
        exact ⟨y, e'', houter', he'', by rw [hparent, hscope]⟩
      · have hin := houter y (by rw [← houter', hy]; exact List.mem_singleton.2 rfl)
        exact lt_of_contains (hp₁.contains hin)
      · obtain ⟨-, sc', hsc', hat⟩ := hi.proper.placed b d hb
        rw [hd, hscope', hsc] at hsc'
        obtain rfl := Option.some.inj hsc'
        rw [hslots', List.getElem?_toArray] at hraw
        have := hadmits d.slot b d raw (by rw [Array.getElem?_toList, hat]) hb hraw
        exact this.persists hp₂.persists fun _ _ => trivial
  · exact environment_eq_ok.2 (object_allocate_self h₁ _)

/-! ## Properties -/

/-- A property of a live value is live. -/
theorem getProperty_spec (ht : h.Typed image) {target : Value} (htarget : target.Live h)
    (name : String) : (∃ v, h.getProperty target name = .ok v ∧ v.Live h) ∨
      ∃ detail, h.getProperty target name = .error (.notAnObject detail) := by
  cases target with
  | object id =>
    left
    obtain ⟨entry, he⟩ := contains_iff.1 (htarget id rfl)
    have ho := object_of_some he
    rw [getProperty, ho]
    refine ⟨_, rfl, fun y hy => ?_⟩
    cases hobject : entry.object with
    | ordinary properties =>
      rw [hobject] at hy ho
      rw [Object.property] at hy
      cases hget : properties.get? name with
      | none =>
        rw [hget] at hy
        cases hy
      | some v =>
        rw [hget] at hy
        refine (ht id _ ho rfl).live y (mem_objectsOf.2 ⟨v, ?_, hy⟩)
        exact List.mem_map.2 ⟨_, SortedMap.mem_toList_iff.2 hget, rfl⟩
    | array elements =>
      rw [hobject] at hy ho
      rw [Object.property] at hy
      split at hy
      · cases hy
      · cases hget : (Text.readWord? name).bind fun index => elements[index]? with
        | none =>
          rw [hget] at hy
          cases hy
        | some v =>
          rw [hget] at hy
          obtain ⟨index, -, hindex⟩ := Option.bind_eq_some_iff.1 hget
          refine (ht id _ ho rfl).live y (mem_objectsOf.2 ⟨v, ?_, hy⟩)
          exact Array.mem_toList_iff.2 (Array.mem_of_getElem? hindex)
    | _ =>
      rw [hobject] at hy
      cases hy
  | str s =>
    left
    refine ⟨_, rfl, fun y hy => ?_⟩
    split at hy <;> cases hy
  | undefined => exact .inr ⟨_, rfl⟩
  | null => exact .inr ⟨_, rfl⟩
  | bool b => exact .inl ⟨_, rfl, fun y hy => by cases hy⟩
  | number n => exact .inl ⟨_, rfl, fun y hy => by cases hy⟩

theorem mem_writeElement {elements : Array Value} {index : Nat} {v w : Value}
    (hw : w ∈ writeElement elements index v) : w ∈ elements ∨ w = .undefined ∨ w = v := by
  rw [writeElement] at hw
  obtain ⟨i, hi⟩ := Array.mem_iff_getElem?.1 hw
  rw [Array.getElem?_setIfInBounds] at hi
  split at hi
  · split at hi
    · exact .inr (.inr (Option.some.inj hi).symm)
    · cases hi
  · rcases Array.mem_append.1 (Array.mem_of_getElem? hi) with hmem | hmem
    · exact .inl hmem
    · exact .inr (.inl (Array.eq_of_mem_replicate hmem))

/-- Writing a property of a live value fails at most because the value has none. -/
theorem setProperty_spec (ht : h.Typed image) {target v : Value} (htarget : target.Live h)
    (hv : v.Live h) (name : String) :
    ∃ result h', setProperty target name v h = (result, h') ∧ h'.Typed image ∧
      Continues h h' ∧ ∀ e, result = .error (.error e) →
        (∃ detail, e = .notAnObject detail) ∨ ∃ detail, e = .wrongType detail := by
  rw [setProperty]
  cases htid : target.object? with
  | none =>
    exact ⟨_, h, rfl, ht, .refl _, fun e he => .inl ⟨_, by cases he; rfl⟩⟩
  | some id =>
    dsimp only
    obtain ⟨entry, he⟩ := contains_iff.1 (htarget id htid)
    have ho := object_of_some he
    rw [ho]
    -- only ordinary objects and arrays change, and they hold old values and the new one
    have hwrite : ∀ {o : Object}, entry.object.isPart = false →
        (∀ e, entry.object ≠ .environment e) → (∀ f, entry.object ≠ .function f) →
        (∀ c, entry.object ≠ .cell c) → (∀ e, o ≠ .environment e) → (∀ f, o ≠ .function f) →
        (∀ y ∈ o.strongRefs, y ∈ entry.object.strongRefs ∨ v.object? = some y) →
        Heap.Typed image (h.setObject id o) ∧ Continues h (h.setObject id o) := by
      intro o hpart henv hfun hcell henv' hfun' hrefs
      have hp : Continues h (h.setObject id o) :=
        continues_setObject ho (fun e he => absurd he (henv e)) hfun fun c hc => absurd hc (hcell c)
      refine ⟨ht.setObject (htarget id htid) hp (Object.fits_of_live (fun y hy => ?_) henv' hfun'),
        hp⟩
      refine hp.contains ?_
      rcases hrefs y hy with hy | hy
      · exact (ht id _ ho hpart).live y hy
      · exact hv y hy
    cases hobject : entry.object with
    | ordinary properties =>
      rw [hobject] at hwrite
      obtain ⟨ht', hp'⟩ := hwrite (o := .ordinary (properties.insert name v)) rfl
        (fun e he => (by cases he)) (fun f hf => (by cases hf)) (fun c hc => (by cases hc))
        (fun e he => (by cases he)) (fun f hf => (by cases hf)) fun y hy => by
          obtain ⟨w, hw, hwy⟩ := mem_objectsOf.1 hy
          obtain ⟨⟨key, w'⟩, hmem, rfl⟩ := List.mem_map.1 hw
          rcases SortedMap.get?_insert_cases (SortedMap.mem_toList_iff.1 hmem) with ⟨-, rfl⟩ | hget
          · exact .inr hwy
          · refine .inl (mem_objectsOf.2 ⟨w', ?_, hwy⟩)
            exact List.mem_map.2 ⟨_, SortedMap.mem_toList_iff.2 hget, rfl⟩
      exact ⟨_, _, rfl, ht', hp', fun e he => by cases he⟩
    | array elements =>
      dsimp only
      split
      · exact ⟨_, h, rfl, ht, .refl _, fun e he => .inr ⟨_, by cases he; rfl⟩⟩
      · next index _ =>
        split
        · rw [hobject] at hwrite
          obtain ⟨ht', hp'⟩ := hwrite (o := .array (writeElement elements index v)) rfl
            (fun e he => (by cases he)) (fun f hf => (by cases hf)) (fun c hc => (by cases hc))
            (fun e he => (by cases he)) (fun f hf => (by cases hf)) fun y hy => by
              obtain ⟨w, hw, hwy⟩ := mem_objectsOf.1 hy
              rcases mem_writeElement (Array.mem_toList_iff.1 hw) with hw | rfl | rfl
              · exact .inl (mem_objectsOf.2 ⟨w, Array.mem_toList_iff.2 hw, hwy⟩)
              · cases hwy
              · exact .inr hwy
          exact ⟨_, _, rfl, ht', hp', fun e he => by cases he⟩
        · exact ⟨_, h, rfl, ht, .refl _, fun e he => by cases he⟩
    | _ => exact ⟨_, h, rfl, ht, .refl _, fun e he => .inr ⟨_, by cases he; rfl⟩⟩

end Heap

end ClosureCache
