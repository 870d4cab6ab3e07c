/-
A shared instance reads what the reach that is given it would capture.

What a reach captures for good is a cell, or a value of a binding that is not written any
more.  The instance may be older than the reach, and may read the binding from the slot of
an environment; but the key says that the binding held the same when the instance was
made, and a final binding keeps its value.
-/
import ClosureCache.Proofs.Evaluation.Sparing

namespace ClosureCache

def Heap.storedThis? (h : Heap) (function : ObjectId) : Option Value :=
  match h.function function with
  | .ok ⟨_, .captured _ this⟩ => this
  | _ => none

section Agreement

open Heap

variable {image : Image} {past : List Moment} {m : Machine} {a : Moment} {x : Reach}
  {env : ObjectId} {spec : CaptureSpec} {closure : Closure}

/-- A binding that has its value for good is read through the captures as the making reach
found it, as long as the instance is there. -/
theorem Moment.Makes.keeps {S : ObjectId → BindingId → Prop} {M : FunctionObject → Prop}
    (hm : a.Makes image env spec x closure) (ht : image.tree.Proper)
    (hsteady : a.before.Steady image)
    (hkept : ∀ y : ObjectId, a.before.heap.contains y = true → a.after.heap.contains y = true)
    {c : Capture} (hc : c ∈ spec.captures) {b : BindingId} (hb : c.binding = some b) {d : Binding}
    (hd : image.tree.binding? b = some d) {raw : Option Value}
    (hraw : a.before.heap.stored? image.tree env b = some raw)
    (hfinal : d.storage = .cell ∨ raw ≠ none ∧ d.kind.isProvisional = false) {h : Heap}
    (hbefore : a.before.heap.Lasts (.fixing image.tree S M) h)
    (hafter : a.after.heap.Lasts (.fixing image.tree S M) h)
    (hf : h.contains x.function = true) : h.storedFor? x.function b = some raw := by
  obtain ⟨location, slot, hlocate, hcontents, hcapture, hrefs, hread⟩ :=
    hm.storedFor?_eq hc hb hd hraw
  rw [hread h (hafter.function _ _ hf hm.made)]
  obtain ⟨target, htarget, hwalk⟩ := locate_eq_some hlocate
  obtain rfl := Option.some.inj (hd.symm.trans htarget)
  rcases locateFrom_eq_some hwalk with
    ⟨y, e, rfl, -⟩ | ⟨g, i, f, bindings, this, slot', rfl, hg, hclosure, hentry⟩
  · rw [captureSlot_of_final hcontents hfinal] at hcapture
    obtain rfl := Except.ok.inj hcapture
    rfl
  · -- the capture is passed on from another instance
    have hslot : a.before.heap.capturedSlot g i = .ok slot' :=
      capturedSlot_eq_ok.2 ⟨f, bindings, this, hg, hclosure, d.id, hentry⟩
    rw [captureSlot, hslot] at hcapture
    obtain rfl := Except.ok.inj hcapture
    rw [contentsAt, hslot] at hcontents
    cases slot' with
    | value contents =>
      obtain rfl := Except.ok.inj hcontents
      rfl
    | binding y j =>
      have haligned := hsteady.aligned g f hg
      rw [hclosure] at haligned
      obtain ⟨d', hd', rfl, hstorage, hmutable, hkind, -, hscope⟩ :=
        haligned _ (List.mem_of_getElem? hentry)
      rw [(ht.placed b d hd).1] at hd'
      obtain rfl := Option.some.inj (hd.symm.trans hd')
      obtain ⟨hsome, hprovisional⟩ := hfinal.resolve_left fun hcell => by
        rw [hstorage] at hcell
        cases hcell
      have hlexical := hkind.resolve_right fun hkind => by
        rw [hprovisional] at hkind
        cases hkind
      obtain ⟨e, he, -⟩ := slotAt_eq_ok.1 hcontents
      have hin : h.contains y = true := hafter.closure _ _ y hf hm.made
        (hrefs y (List.mem_singleton.2 rfl)) (hkept y (contains_of_environment he))
      show (h.slotAt y d.slot).toOption = some raw
      rw [hbefore.slotAt_final hd ⟨hstorage, hmutable, hlexical⟩ hcontents hsome hscope hin]
      rfl

/-- The `this` that a reach captures. -/
theorem Moment.Makes.this_eq (hm : a.Makes image env spec x closure)
    (hr : spec.Regular image.tree) {c : Capture} (hc : c ∈ spec.captures) (hb : c.binding = none) :
    ∃ bindings this, closure = .captured bindings this ∧
      a.before.heap.locateThis env c.source = .ok this := by
  obtain ⟨bindings, this, rfl, htable⟩ := hm.table
  exact ⟨bindings, this, rfl, (captureTable_spec htable).2.2.2 c hc hb
    fun c' hc' hb' => hr.this_unique c' hc' c hc hb' hb⟩

end Agreement

section Runs

variable {p : Program} {config : Config} {s₀ s : Session} {past : List Moment}

/-- What a reach of a shared definition gives, new or not, reads every captured binding as
the environment of the reach does if that is a cell, or a value that no hoisted
declaration writes; and its `this` is that of the provider. -/
theorem SparingRun.captures_agree (hload : Session.load p config = .ok s₀)
    (hp : ∀ f ∈ p.functions, f.arguments = none) (hrun : SparingRun s₀ s past)
    {node : FunctionNode} {env : ObjectId} {v : Value} {before after : Machine}
    (hmem : ⟨.instantiate node env, before, .ok v, after⟩ ∈ past) {site : SiteId}
    (hsite : node.site = some site) {spec : CaptureSpec}
    (hspec : s₀.image.analysis.get? site = some (.memoized spec)) :
    ∃ f, v = .object f ∧
      (∀ c ∈ spec.captures, ∀ b, c.binding = some b → ∃ d raw,
        s₀.image.tree.binding? b = some d ∧
        before.heap.stored? s₀.image.tree env b = some raw ∧
        after.heap.stored? s₀.image.tree env b = some raw ∧
        (d.storage = .cell ∨ raw ≠ none ∧ d.kind.isProvisional = false →
          after.heap.storedFor? f b = some raw)) ∧
      ∀ c ∈ spec.captures, c.binding = none → ∃ this,
        before.heap.locateThis env c.source = .ok (some this) ∧
        after.heap.storedThis? f = some this := by
  obtain ⟨resolved, hloaded⟩ := Session.loaded hload
  have hi := hloaded.settled hp
  have hregular := hloaded.regular hspec
  have himage := hrun.image_eq
  obtain ⟨-, hsteady, hc, -⟩ := hrun.steady hload hi
  rw [himage] at hsteady hc
  obtain ⟨earlier, later, rfl⟩ := List.append_of_mem hmem
  obtain ⟨key, f, rfl, hkey, halive, made, hmade, maker, closure, hmakes⟩ := hc.maker hsite hspec
  have hmem' : made ∈ earlier ++ ⟨.instantiate node env, before, .ok (.object f), after⟩ :: later :=
    List.append_cons .. ▸ List.mem_append_left _ hmade
  -- the instance lasts from the reach that made it to this one
  have hafter := hc.outlasts hmade List.mem_cons_self
  have hfunction := hafter.function f _ halive hmakes.made
  refine ⟨f, rfl, fun c hcapture b hb => ?_, fun c hcapture hb => ?_⟩
  · obtain ⟨d, hd, htakes⟩ := hregular.takes c hcapture b hb
    obtain ⟨k, hk, hk'⟩ := CaptureSpec.component_of_buildKey hmakes.key hkey hcapture
    obtain ⟨raw, hraw, hraw'⟩ := htakes.stored_eq hk hk'
    refine ⟨d, raw, hd, hraw', ?_, fun hfinal => ?_⟩
    · -- a reach changes nothing that a binding is read from
      have hreal : after = (EvalM.instantiate node env s₀.image before).2 :=
        (Moment.mk.inj (hc.real _ hmem)).2.2.2
      rw [hreal]
      exact (EvalM.instantiate_adds _ _ node env).stored?_eq hraw'
    · exact hmakes.keeps hi.proper (hsteady made hmem') (hc.kept made hmem') hcapture hb hd hraw
        hfinal ((hc.during made hmem').trans hafter) hafter halive
  · obtain ⟨k, hk, hk'⟩ := CaptureSpec.component_of_buildKey hmakes.key hkey hcapture
    obtain ⟨this, hthis, rfl⟩ := Capture.component_this (hregular.this c hcapture hb) hk
    obtain ⟨this', hthis', heq⟩ := Capture.component_this (hregular.this c hcapture hb) hk'
    obtain rfl := KeyComponent.ofValue_inj heq
    obtain ⟨bindings, stored, rfl, hstored⟩ := hmakes.this_eq hregular hcapture hb
    rw [hthis] at hstored
    obtain rfl := Except.ok.inj hstored
    refine ⟨this, hthis', ?_⟩
    rw [Heap.storedThis?, hfunction]

/-! ## Sharing an instance

The program of `arrowsOverArguments` calls `f` with 1 and 2, and a host that calls `f` with
1 once more is given the instance of the first call. -/

def arrowCapture : Capture := ⟨some ⟨1⟩, "x", .value, ⟨1⟩⟩

theorem arrow_analysis : arrowsSession.image.analysis.get? ⟨1⟩ =
    some (.memoized ⟨⟨1⟩, [arrowCapture]⟩) := by
  decide +kernel

/-- Whether a moment is a reach of the arrow for the argument `n` that is given an instance
that was there before. -/
def Moment.shares (n : Int64) : Moment → Bool
  | ⟨.instantiate node env, before, .ok (.object f), _⟩ =>
    decide (node.site = some ⟨1⟩) && before.heap.contains f &&
      decide (before.heap.stored? arrowsSession.image.tree env ⟨1⟩ = some (some (.number n)))
  | _ => false

theorem exists_shares {past : List Moment} {n : Int64} (h : past.any (Moment.shares n) = true) :
    ∃ node env before f after, ⟨.instantiate node env, before, .ok (.object f), after⟩ ∈ past ∧
      node.site = some ⟨1⟩ ∧ before.heap.contains f = true ∧
      before.heap.stored? arrowsSession.image.tree env ⟨1⟩ = some (some (.number n)) := by
  obtain ⟨a, ha, hshares⟩ := List.any_eq_true.1 h
  rw [Moment.shares.eq_def] at hshares
  split at hshares
  · next node env before f after =>
    simp only [Bool.and_eq_true, decide_eq_true_eq] at hshares
    obtain ⟨⟨hsite, hold⟩, hn⟩ := hshares
    exact ⟨node, env, before, f, after, ha, hsite, hold, hn⟩
  · cases hshares

theorem load_arrows : Session.load arrowsOverArguments .deterministic = .ok arrowsSession :=
  Except.eq_ok_get isSome_load_arrows

theorem arrows_run : ∃ s past, SparingRun arrowsSession s past ∧
    past.any (Moment.shares 1) = true := by
  have hran : SparingRun arrowsSession _ _ :=
    .step (.act (.run 9)) .start fun name v hv => by cases hv
  have hcalled := hran.step (.act (.callGlobal 9 "f" [.number 1])) fun name v hv => by cases hv
  exact ⟨_, _, hcalled, by decide +kernel⟩

/-- The call of the host is given the instance of the first call, which reads 1. -/
theorem captures_agree_arrows : ∃ s₀ s past node env before f after,
    Session.load arrowsOverArguments .deterministic = .ok s₀ ∧
      (∀ f ∈ arrowsOverArguments.functions, f.arguments = none) ∧
      SparingRun s₀ s past ∧
      ⟨.instantiate node env, before, .ok (.object f), after⟩ ∈ past ∧
      node.site = some ⟨1⟩ ∧
      s₀.image.analysis.get? ⟨1⟩ = some (.memoized ⟨⟨1⟩, [arrowCapture]⟩) ∧
      before.heap.contains f = true ∧
      before.heap.stored? s₀.image.tree env ⟨1⟩ = some (some (.number 1)) ∧
      after.heap.storedFor? f ⟨1⟩ = some (some (.number 1)) := by
  obtain ⟨s, past, hrun, hshares⟩ := arrows_run
  obtain ⟨node, env, before, f, after, hmem, hsite, hold, hn⟩ := exists_shares hshares
  have hp : ∀ f ∈ arrowsOverArguments.functions, f.arguments = none := fun f hf => by
    simp only [arrowsOverArguments, Program.functions, functionsInStatements, Statement.functions,
      FunctionNode.functions, Expression.functions, functionsInExpressions, List.append_nil,
      List.mem_cons, List.not_mem_nil, or_false] at hf
    rcases hf with rfl | rfl <;> rfl
  obtain ⟨f', hf, hreads, -⟩ := hrun.captures_agree load_arrows hp hmem hsite arrow_analysis
  obtain rfl := Value.object.inj hf
  obtain ⟨d, raw, hd, hraw, -, hreads⟩ := hreads arrowCapture List.mem_cons_self ⟨1⟩ rfl
  obtain rfl := Option.some.inj (hn.symm.trans hraw)
  have hx : arrowsSession.image.tree.binding? ⟨1⟩ =
      some ⟨⟨1⟩, "x", ⟨1⟩, .parameter, .slot, 0, 0, false⟩ := by decide +kernel
  obtain rfl := Option.some.inj (hd.symm.trans hx)
  exact ⟨_, s, past, node, env, before, f, after, load_arrows, hp, hrun, hmem, hsite,
    arrow_analysis, hold, hn, hreads (.inr ⟨Option.some_ne_none _, rfl⟩)⟩

end Runs

end ClosureCache
