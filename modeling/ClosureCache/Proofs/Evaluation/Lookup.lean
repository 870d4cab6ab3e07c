/-
Finding bindings and `this` from an environment.

`WalkEnds` is the walk from an environment outwards: it ends in an environment of the scope
that is looked for, or at the captures of a shared function.  `Sees` says that what is
referred to is found where the walk ends, in the environment or among the captures.
Finding a binding or a `this` is that walk, and what is seen stays in sight while
environments keep their places and functions their captures.
-/
import ClosureCache.Proofs.Evaluation.Image

namespace ClosureCache

namespace Heap

variable {h : Heap} {x : ObjectId}

theorem environment_eq_ok {e : Environment} :
    h.environment x = .ok e ↔ h.object x = .ok (.environment e) := by
  rw [environment]
  cases h.object x with
  | error e' => exact ⟨fun h => (by cases h), fun h => (by cases h)⟩
  | ok o =>
    cases o with
    | environment e' =>
      exact ⟨fun h => by rw [Except.ok.inj h],
        fun h => by rw [Object.environment.inj (Except.ok.inj h)]⟩
    | _ => exact ⟨fun h => (by cases h), fun h => (by cases h)⟩

theorem function_eq_ok {f : FunctionObject} :
    h.function x = .ok f ↔ h.object x = .ok (.function f) := by
  rw [function]
  cases h.object x with
  | error e' => exact ⟨fun h => (by cases h), fun h => (by cases h)⟩
  | ok o =>
    cases o with
    | function f' =>
      exact ⟨fun h => by rw [Except.ok.inj h],
        fun h => by rw [Object.function.inj (Except.ok.inj h)]⟩
    | _ => exact ⟨fun h => (by cases h), fun h => (by cases h)⟩

theorem cellContents_eq_ok {c : Option Value} :
    h.cellContents x = .ok c ↔ h.object x = .ok (.cell c) := by
  rw [cellContents]
  cases h.object x with
  | error e' => exact ⟨fun h => (by cases h), fun h => (by cases h)⟩
  | ok o =>
    cases o with
    | cell c' =>
      exact ⟨fun h => by rw [Except.ok.inj h], fun h => by rw [Object.cell.inj (Except.ok.inj h)]⟩
    | _ => exact ⟨fun h => (by cases h), fun h => (by cases h)⟩

theorem contains_of_environment {e : Environment} (he : h.environment x = .ok e) :
    h.contains x = true := contains_of_object (environment_eq_ok.1 he)

/-! ## The walk outwards -/

/-- The walk from an environment outwards to the scope `a` ends in an environment of that
scope, or at the captures of a function. -/
inductive WalkEnds (h : Heap) (a : ScopeId) : ObjectId → Enclosure → Prop
  | here {env : ObjectId} {e : Environment} : h.environment env = .ok e → e.scope = a →
    WalkEnds h a env (.environment env)
  | captures {env g : ObjectId} {e : Environment} : h.environment env = .ok e → e.scope ≠ a →
    e.outer = .captures g → WalkEnds h a env (.captures g)
  | outward {env parent : ObjectId} {e : Environment} {stop : Enclosure} :
    h.environment env = .ok e → e.scope ≠ a → e.outer = .environment parent →
    WalkEnds h a parent stop → WalkEnds h a env stop

/-- Environments are made inside older ones. -/
def Descends (h : Heap) : Prop :=
  ∀ x e y, h.environment x = .ok e → e.outer = .environment y → y.index < x.index

theorem WalkEnds.contains {a : ScopeId} {env : ObjectId} {stop : Enclosure}
    (hl : h.WalkEnds a env stop) : h.contains env = true := by
  cases hl with
  | here he => exact contains_of_environment he
  | captures he => exact contains_of_environment he
  | outward he => exact contains_of_environment he

/-- A walk that ends in an environment ends in one of the scope that was looked for. -/
theorem WalkEnds.scope_eq {a : ScopeId} {env x : ObjectId}
    (hl : h.WalkEnds a env (.environment x)) :
    ∃ e, h.environment x = .ok e ∧ e.scope = a := by
  generalize hstop : Enclosure.environment x = stop at hl
  induction hl with
  | here he hscope =>
    obtain rfl := Enclosure.environment.inj hstop
    exact ⟨_, he, hscope⟩
  | captures => cases hstop
  | outward _ _ _ _ ih => exact ih hstop

/-- Where a binding is stored when the walk to its scope has ended. -/
def locationAt (h : Heap) (target : Binding) : Enclosure → Except EvalError (Option Location)
  | .environment x => .ok (some (.slot x target.slot))
  | .captures g => h.capturedLocation g target.id
  | .outermost => .ok none

/-- The `this` where the walk to the scope that supplies it has ended. -/
def thisAt (h : Heap) : Enclosure → Except HeapError (Option Value)
  | .environment x => (h.environment x).map Environment.this
  | .captures g =>
    match h.function g with
    | .error e => .error e
    | .ok f =>
      match f.closure with
      | .chain _ => .ok none
      | .captured _ this => .ok this
  | .outermost => .ok none

/-- Finding a binding is the walk to its scope. -/
theorem WalkEnds.locateFrom_eq (hd : h.Descends) {target : Binding} {env : ObjectId}
    {stop : Enclosure} (hl : h.WalkEnds target.scope env stop) (n : Nat) (hn : env.index < n) :
    h.locateFrom target n env = h.locationAt target stop := by
  induction hl generalizing n with
  | here he hscope =>
    cases n with
    | zero => omega
    | succ n =>
      rw [locateFrom, he]
      dsimp only
      rw [if_pos hscope]
      rfl
  | captures he hscope houter =>
    cases n with
    | zero => omega
    | succ n =>
      rw [locateFrom, he]
      dsimp only
      rw [if_neg hscope, houter]
      rfl
  | outward he hscope houter _ ih =>
    cases n with
    | zero => omega
    | succ n =>
      have hlt := hd _ _ _ he houter
      rw [locateFrom, he]
      dsimp only
      rw [if_neg hscope, houter]
      exact ih n (by omega)

/-- Finding a `this` is the walk to the scope that supplies it. -/
theorem WalkEnds.locateThisFrom_eq (hd : h.Descends) {p : ScopeId} {env : ObjectId}
    {stop : Enclosure} (hl : h.WalkEnds p env stop) (n : Nat) (hn : env.index < n) :
    h.locateThisFrom p n env = h.thisAt stop := by
  induction hl generalizing n with
  | here he hscope =>
    cases n with
    | zero => omega
    | succ n =>
      rw [locateThisFrom, he]
      dsimp only
      rw [if_pos hscope, thisAt, he]
      rfl
  | captures he hscope houter =>
    cases n with
    | zero => omega
    | succ n =>
      rw [locateThisFrom, he]
      dsimp only
      rw [if_neg hscope, houter]
      rfl
  | outward he hscope houter _ ih =>
    cases n with
    | zero => omega
    | succ n =>
      have hlt := hd _ _ _ he houter
      rw [locateThisFrom, he]
      dsimp only
      rw [if_neg hscope, houter]
      exact ih n (by omega)

end Heap

/-! ## What is seen -/

/-- The captures of a function object hold what is referred to: the binding, or the
`this` of the scope from which the analysis lets the definition capture it. -/
inductive FunctionObject.Holds (image : Image) (f : FunctionObject) : Reference → Prop
  | binding {b : BindingId} {bindings : List (BindingId × CapturedSlot)} {this : Option Value}
    {slot : CapturedSlot} : f.closure = .captured bindings this → (b, slot) ∈ bindings →
    Holds image f (.binding b)
  | this {bindings : List (BindingId × CapturedSlot)} {v : Value} {spec : CaptureSpec}
    {c : Capture} : f.closure = .captured bindings (some v) →
    image.analysis.get? f.site = some (.memoized spec) → c ∈ spec.captures →
    c.binding = none → Holds image f (.this c.source)

/-- What is referred to is found where the walk to it has ended. -/
inductive Heap.FoundAt (image : Image) (h : Heap) : Enclosure → Reference → Prop
  | binding {x : ObjectId} {b : BindingId} : FoundAt image h (.environment x) (.binding b)
  | this {x : ObjectId} {e : Environment} {p : ScopeId} : h.environment x = .ok e →
    e.this.isSome = true → FoundAt image h (.environment x) (.this p)
  | captures {g : ObjectId} {f : FunctionObject} {r : Reference} : h.function g = .ok f →
    f.Holds image r → FoundAt image h (.captures g) r

/-- What is referred to can be seen from an environment. -/
def Heap.Sees (image : Image) (h : Heap) (env : ObjectId) (r : Reference) : Prop :=
  ∀ a, r.home? image.tree = some a → ∃ stop, h.WalkEnds a env stop ∧ h.FoundAt image stop r

namespace Heap

variable {image : Image} {h h' : Heap}

/-- A binding is found where the walk to its scope has ended: in the slot that it has in an
environment of that scope, or among the captures of a shared function. -/
inductive Finds (image : Image) (h : Heap) (env : ObjectId) (b : BindingId) : Location → Prop
  | slot {d : Binding} {x : ObjectId} : image.tree.binding? b = some d →
    h.WalkEnds d.scope env (.environment x) → Finds image h env b (.slot x d.slot)
  | captured {d : Binding} {g : ObjectId} {f : FunctionObject} {i : Nat}
    {bindings : List (BindingId × CapturedSlot)} {this : Option Value} {slot : CapturedSlot} :
    image.tree.binding? b = some d → h.WalkEnds d.scope env (.captures g) → h.function g = .ok f →
    f.closure = .captured bindings this → bindings[i]? = some (b, slot) →
    Finds image h env b (.captured g i)

theorem WalkEnds.locate_eq (hd : h.Descends) {env : ObjectId} {b : BindingId} {d : Binding}
    (hb : image.tree.binding? b = some d) {stop : Enclosure} (hl : h.WalkEnds d.scope env stop) :
    h.locate image.tree env b = h.locationAt d stop := by
  rw [Heap.locate, ScopeTree.binding_eq_ok.2 hb]
  exact hl.locateFrom_eq hd h.entries.size (lt_of_contains hl.contains)

/-- A binding in sight is found. -/
theorem Sees.locate (hd : h.Descends) (ht : image.tree.Proper) {env : ObjectId} {b : BindingId}
    {d : Binding} (hb : image.tree.binding? b = some d) (hs : h.Sees image env (.binding b)) :
    ∃ location, h.locate image.tree env b = .ok (some location) ∧
      h.Finds image env b location := by
  obtain ⟨stop, hl, ho⟩ := hs d.scope (by rw [Reference.home?, hb]; rfl)
  rw [hl.locate_eq hd hb]
  cases ho with
  | binding => exact ⟨_, rfl, .slot hb hl⟩
  | captures hg hh =>
    rename_i g f
    cases hh with
    | binding hclosure hmem =>
      rename_i bindings this slot
      have hfind : (bindings.findIdx? fun entry => entry.1 == d.id).isSome = true := by
        rw [List.findIdx?_isSome, List.any_eq_true]
        exact ⟨_, hmem, by rw [(ht.placed b d hb).1, beq_self_eq_true]⟩
      obtain ⟨i, hi⟩ := Option.isSome_iff_exists.1 hfind
      obtain ⟨hlt, hkey, -⟩ := List.findIdx?_eq_some_iff_getElem.1 hi
      have hkey : (bindings[i]).1 = b := by
        rw [← (ht.placed b d hb).1]
        exact beq_iff_eq.1 hkey
      have hget : bindings[i]? = some (b, (bindings[i]).2) := by
        rw [List.getElem?_eq_getElem hlt, ← hkey]
      refine ⟨.captured g i, ?_, .captured hb hl hg hclosure hget⟩
      rw [locationAt, capturedLocation, hg]
      dsimp only
      rw [hclosure]
      dsimp only
      rw [hi]
      rfl

/-- The `this` of a scope stands where the walk to the scope has ended: in the environment
of an activation, or among the captures of a function whose definition captures the `this`
of this very scope. -/
inductive Supplies (image : Image) (h : Heap) (p : ScopeId) (v : Value) : Enclosure → Prop
  | environment {x : ObjectId} {e : Environment} : h.environment x = .ok e → e.scope = p →
    e.this = some v → Supplies image h p v (.environment x)
  | captures {g : ObjectId} {f : FunctionObject} {bindings : List (BindingId × CapturedSlot)}
    {spec : CaptureSpec} {c : Capture} : h.function g = .ok f →
    f.closure = .captured bindings (some v) →
    image.analysis.get? f.site = some (.memoized spec) → c ∈ spec.captures →
    c.binding = none → c.source = p → Supplies image h p v (.captures g)

/-- A `this` in sight is found where it is supplied. -/
theorem Sees.locateThis (hd : h.Descends) {env : ObjectId} {p : ScopeId}
    (hs : h.Sees image env (.this p)) : ∃ v stop, h.locateThis env p = .ok (some v) ∧
      h.WalkEnds p env stop ∧ Supplies image h p v stop := by
  obtain ⟨stop, hl, ho⟩ := hs p rfl
  rw [Heap.locateThis, hl.locateThisFrom_eq hd h.entries.size (lt_of_contains hl.contains)]
  cases ho with
  | this he hthis =>
    obtain ⟨v, hv⟩ := Option.isSome_iff_exists.1 hthis
    obtain ⟨e, he', hscope⟩ := hl.scope_eq
    rw [he] at he'
    obtain rfl := Except.ok.inj he'
    exact ⟨v, _, by rw [thisAt, he, ← hv]; rfl, hl, .environment he hscope hv⟩
  | captures hg hh =>
    cases hh with
    | @this bindings v spec c hclosure hspec hc hnone =>
      refine ⟨v, _, ?_, hl, .captures hg hclosure hspec hc hnone rfl⟩
      rw [thisAt, hg]
      dsimp only
      rw [hclosure]

/-! ## What stays in sight -/

/-- Of the objects in `keep` none is lost, and what can be seen through them can still be
seen. -/
structure Persists (keep : ObjectId → Prop) (h h' : Heap) : Prop where
  contains : ∀ {x}, keep x → h.contains x = true → h'.contains x = true
  environment : ∀ x e, keep x → h.environment x = .ok e →
    ∃ e', h'.environment x = .ok e' ∧ e'.scope = e.scope ∧ e'.outer = e.outer ∧ e'.this = e.this
  function : ∀ x f, keep x → h.function x = .ok f → h'.function x = .ok f
  cell : ∀ x c, keep x → h.cellContents x = .ok c → ∃ c', h'.cellContents x = .ok c'

/-- Nothing is lost, and no roots change. -/
structure Continues (h h' : Heap) : Prop where
  persists : Persists (fun _ => True) h h'
  roots : ∀ x e, h.entry? x = some e → ∃ e', h'.entry? x = some e' ∧ e'.roots = e.roots

/-- A set of objects with everything that they refer to. -/
def Closed (keep : ObjectId → Prop) (h : Heap) : Prop :=
  ∀ x o, keep x → h.object x = .ok o → o.isPart = false → ∀ y ∈ o.strongRefs, keep y

theorem closed_true (h : Heap) : Closed (fun _ => True) h := fun _ _ _ _ _ _ _ => trivial

section Persists

variable {keep : ObjectId → Prop}

theorem Persists.of_object_eq {h h' : Heap} (heq : ∀ x, keep x → h'.object x = h.object x) :
    Persists keep h h' := by
  refine ⟨fun {x} hx hin => ?_, fun x e hx he => ⟨e, ?_, rfl, rfl, rfl⟩, fun x f hx hf => ?_,
    fun x c hx hc => ⟨c, ?_⟩⟩
  · obtain ⟨e, he⟩ := contains_iff.1 hin
    exact contains_of_object (by rw [heq x hx, object_of_some he])
  · rw [environment_eq_ok, heq x hx, environment_eq_ok.1 he]
  · rw [function_eq_ok, heq x hx, function_eq_ok.1 hf]
  · rw [cellContents_eq_ok, heq x hx, cellContents_eq_ok.1 hc]

theorem Persists.trans {h₁ h₂ : Heap} (a : Persists (fun _ => True) h h₁)
    (b : Persists (fun _ => True) h₁ h₂) : Persists (fun _ => True) h h₂ where
  contains _ hx := b.contains trivial (a.contains trivial hx)
  environment x e _ he := by
    obtain ⟨e₁, he₁, hscope₁, houter₁, hthis₁⟩ := a.environment x e trivial he
    obtain ⟨e₂, he₂, hscope₂, houter₂, hthis₂⟩ := b.environment x e₁ trivial he₁
    exact ⟨e₂, he₂, hscope₂.trans hscope₁, houter₂.trans houter₁, hthis₂.trans hthis₁⟩
  function x f _ hf := b.function x f trivial (a.function x f trivial hf)
  cell x c _ hc := by
    obtain ⟨c₁, hc₁⟩ := a.cell x c trivial hc
    exact b.cell x c₁ trivial hc₁

theorem Continues.refl (h : Heap) : Continues h h :=
  ⟨.of_object_eq fun _ _ => rfl, fun _ e he => ⟨e, he, rfl⟩⟩

theorem Continues.trans {h₁ h₂ : Heap} (a : Continues h h₁) (b : Continues h₁ h₂) :
    Continues h h₂ := by
  refine ⟨a.persists.trans b.persists, fun x e he => ?_⟩
  obtain ⟨e₁, he₁, hr₁⟩ := a.roots x e he
  obtain ⟨e₂, he₂, hr₂⟩ := b.roots x e₁ he₁
  exact ⟨e₂, he₂, hr₂.trans hr₁⟩

theorem Continues.contains (hp : Continues h h') {x : ObjectId} (hin : h.contains x = true) :
    h'.contains x = true := hp.persists.contains trivial hin

theorem mem_refs_of_outer {e : Environment} {y : ObjectId} (hy : y ∈ e.outer.refs) :
    y ∈ (Object.environment e).strongRefs :=
  List.mem_append_left _ (List.mem_append_left _ hy)

theorem WalkEnds.persists (hp : Persists keep h h') (hc : Closed keep h) {a : ScopeId}
    {env : ObjectId} {stop : Enclosure} (hl : h.WalkEnds a env stop) (henv : keep env) :
    h'.WalkEnds a env stop ∧ ∀ y ∈ stop.refs, keep y := by
  induction hl with
  | here he hscope =>
    obtain ⟨e', he', hscope', -⟩ := hp.environment _ _ henv he
    refine ⟨.here he' (hscope'.trans hscope), fun y hy => ?_⟩
    obtain rfl := List.mem_singleton.1 hy
    exact henv
  | captures he hscope houter =>
    obtain ⟨e', he', hscope', houter', -⟩ := hp.environment _ _ henv he
    refine ⟨.captures he' (hscope' ▸ hscope) (houter'.trans houter), fun y hy => ?_⟩
    exact hc _ _ henv (environment_eq_ok.1 he) rfl y (mem_refs_of_outer (houter ▸ hy))
  | outward he hscope houter _ ih =>
    obtain ⟨e', he', hscope', houter', -⟩ := hp.environment _ _ henv he
    have hparent := hc _ _ henv (environment_eq_ok.1 he) rfl _
      (mem_refs_of_outer (by rw [houter]; exact List.mem_singleton.2 rfl))
    obtain ⟨hl, hrefs⟩ := ih hparent
    exact ⟨.outward he' (hscope' ▸ hscope) (houter'.trans houter) hl, hrefs⟩

theorem FoundAt.persists (hp : Persists keep h h') {stop : Enclosure} {r : Reference}
    (ho : h.FoundAt image stop r) (hstop : ∀ y ∈ stop.refs, keep y) : h'.FoundAt image stop r := by
  cases ho with
  | binding => exact .binding
  | this he hthis =>
    obtain ⟨e', he', -, -, hthis'⟩ := hp.environment _ _ (hstop _ (List.mem_singleton.2 rfl)) he
    exact .this he' (hthis' ▸ hthis)
  | captures hg hh =>
    exact .captures (hp.function _ _ (hstop _ (List.mem_singleton.2 rfl)) hg) hh

theorem Sees.persists (hp : Persists keep h h') (hc : Closed keep h) {env : ObjectId}
    {r : Reference} (hs : h.Sees image env r) (henv : keep env) : h'.Sees image env r := by
  intro a ha
  obtain ⟨stop, hl, ho⟩ := hs a ha
  obtain ⟨hl', hstop⟩ := hl.persists hp hc henv
  exact ⟨stop, hl', ho.persists hp hstop⟩

end Persists

end Heap

end ClosureCache
