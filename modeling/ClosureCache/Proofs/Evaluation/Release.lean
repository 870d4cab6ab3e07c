/-
What instances do not keep alive.

Once nothing but caches and instances of shared definitions refers to the environments of
an activation, a collection takes them away, with everything that was reached only through
them and through the cells of bindings that no instance captured.  This is so if every
binding was settled when an instance captured it; an instance that captured another one
reads it through the environment and keeps the whole environment.
-/
import ClosureCache.Proofs.Evaluation.Remains
import ClosureCache.Proofs.Evaluation.Requests

namespace ClosureCache

section Release

variable {image : Image} {past : List Moment} {m : Machine} {S : Set ObjectId}

namespace Provenance

variable (hp : Provenance image past m) (hpinned : m.heap.Pinned image)
  (hg : m.heap.WellLinked) (hS : m.heap.Deserted image past S)
  (hsettled : ∀ a ∈ past, ∀ x ∈ S, ∀ b i, a.Captures image b x i →
    a.before.heap.Settled image.tree b x i)

include hp hpinned hS in
/-- Neither the environments nor the cells are rooted. -/
theorem remains_unrooted {x : ObjectId} (hx : x ∈ m.heap.remains image past S) {e : HeapEntry}
    (he : m.heap.entry? x = some e) : e.roots = 0 := by
  by_contra hroots
  obtain ⟨o, ho, hrole⟩ := hS.role hx
  obtain rfl := Except.ok.inj ((Heap.object_of_some he).symm.trans ho)
  rcases hpinned x e he (Nat.pos_of_ne_zero hroots) with rfl | hvalue | hpart
  · rcases hx with hx | ⟨⟨contents, hc⟩, -⟩
    · exact hS.local hx
    · obtain ⟨scope, hwas⟩ := hp.confined.globalEnvironment
      cases hwas.role _ hc
  · rcases hrole with hrole | ⟨scope, hrole⟩ <;>
    · rw [hvalue] at hrole
      cases hrole
  · rcases hrole with hrole | ⟨scope, hrole⟩ <;>
    · rw [hpart] at hrole
      cases hrole

include hp hS hsettled in
/-- No instance refers to one of the environments: it would be to read a capture, and all
were settled. -/
theorem instance_spares_environment {x y : ObjectId} (hx : x ∈ S) (hy : m.heap.IsInstance y) :
    x ∉ m.heap.strongRefs y := by
  intro hrefers
  obtain ⟨f, bindings, this, hf, hclosure⟩ := hy
  obtain ⟨e, he⟩ := hS.environment x hx
  obtain ⟨entry, hentry, heq⟩ := Heap.entry?_of_object (Heap.function_eq_ok.1 hf)
  rw [Heap.strongRefs_of_some hentry, heq] at hrefers
  obtain ⟨b, i, hmem⟩ := hp.confined.sealed.instance_refs_environment hf hclosure hrefers he
  obtain ⟨owners, -, htraced⟩ := hp.traced
  obtain ⟨a, ha, hcaptures, hunsettled⟩ := htraced y f bindings this hf hclosure _ hmem
  exact hunsettled (hsettled a ha x hx b i hcaptures)

include hp in
/-- What refers to a spare cell, other than a part of a cache, is the environment that it
belongs to. -/
theorem mem_of_refers_spareCell {x y : ObjectId} (hx : m.heap.SpareCell image past S x)
    {o : Object} (ho : m.heap.object y = .ok o) (hpart : o.isPart = false)
    (hrefers : x ∈ o.strongRefs) : y ∈ S := by
  obtain ⟨⟨contents, hc⟩, z, hz, e, i, he, hi, hfree⟩ := hx
  have hs := hp.confined.sealed
  obtain ⟨owners, hown, htraced⟩ := hp.traced
  have howner := hs.owner_of_slot hown he hi hc fun hrole => by cases hrole
  rcases hs.refs_cell ho hpart hrefers hc rfl with
    ⟨e', j, he', hj⟩ | ⟨f, bindings, this, b, d, hf, hclosure, hentry, hd, hcell⟩
  · have howner' := hs.owner_of_slot hown he' hj hc fun hrole => by cases hrole
    obtain ⟨rfl, -⟩ := Prod.mk.inj (Option.some.inj (howner.symm.trans howner'))
    exact hz
  · obtain ⟨z', j, howner', a, ha, hcaptures⟩ :=
      htraced y f bindings this hf hclosure _ hentry x d rfl hd hcell
    obtain ⟨rfl, rfl⟩ := Prod.mk.inj (Option.some.inj (howner.symm.trans howner'))
    exact absurd hcaptures (hfree a ha b)

include hp hpinned hg hS hsettled in
theorem shutOff_remains : m.heap.ShutOff (m.heap.remains image past S) where
  unrooted x hx e he := hp.remains_unrooted hpinned hS hx he
  referrer y x hy hrefers hin hx := by
    obtain ⟨o, ho, hrole⟩ := hS.role hx
    have hplain : ¬ (o.role = .part ∨ o.role = .value) := by
      rcases hrole with hrole | ⟨scope, hrole⟩ <;> rw [hrole] <;> simp
    rcases hrefers with hstrong | ⟨key, hweak⟩
    · by_cases hpart : m.heap.IsPart y
      · exact hplain (hg.role_of_strong hpart hstrong ho)
      · rcases hx with hx | hx
        · exact hp.instance_spares_environment hS hsettled hx
            ((hS.referrer x hx y hy (.inl hstrong)).resolve_left hpart) hstrong
        · obtain ⟨e, he⟩ := Heap.contains_iff.1 hy.contains
          rw [Heap.strongRefs_of_some he] at hstrong
          have hplain : e.object.isPart = false := by
            rw [← Bool.not_eq_true]
            exact fun hkind => hpart ⟨_, Heap.object_of_some he, hkind⟩
          exact hy.not_mem (.inl (hp.mem_of_refers_spareCell hx (Heap.object_of_some he) hplain
            hstrong))
    · exact hplain (hg.role_of_weak hweak ho)

end Provenance

/-- In every run in which the host passes what it may know: if nothing but caches and
instances refers to the environments of an activation, and every binding that instances
captured there was settled at the time, the next collection takes away all objects that
are reached only through these environments and the cells of their bindings that no
instance captured. -/
theorem DiscreetRun.uncaptured_swept {p : Program} {config : Config} {s₀ s : Session}
    (hload : Session.load p config = .ok s₀) (hrun : DiscreetRun s₀ s past)
    (hS : s.machine.heap.Deserted s.image past S)
    (hsettled : ∀ a ∈ past, ∀ x ∈ S, ∀ b i, a.Captures s.image b x i →
      a.before.heap.Settled s.image.tree b x i) :
    (∃ stats, (s.perform EvalM.collectGarbage).1 = .ok stats) ∧
      ∀ x, s.machine.heap.contains x = true →
        ¬ s.machine.heap.Beside (s.machine.heap.remains s.image past S) x →
          (s.perform EvalM.collectGarbage).2.machine.heap.contains x = false := by
  have hp := hrun.provenance (confined_of_load hload).1 (provenance_of_load hload)
  have hi := hrun.intact hload
  obtain ⟨labels, ho⟩ := hp.confined.orderly
  refine ⟨EvalM.collectGarbage_eq_ok ho hi, fun x hx hbeside => ?_⟩
  have hshut := hp.shutOff_remains (hrun.pinned hload) (hrun.wellLinked hload) hS hsettled
  exact EvalM.collectGarbage_sweeps ho hi hx fun hreach => hbeside (hshut.beside hreach)

end Release

/-! ## Runs that keep an instance

The host calls the arrow `outer` of a program with an object, and keeps the instance that it
gets back. -/

def Expression.arrow (shared : Bool) (parameters : List String) (body : List Statement) :
    Expression :=
  .function ⟨none, .arrow, .plain, shared, parameters.map fun p => ⟨p, .unresolved⟩, none, body,
    ⟨0, 0, 0, 0, 0, 0⟩, none, none, none⟩

def Expression.named (name : String) : Expression := .identifier ⟨name, .unresolved⟩

def Program.ofOuter (parameters : List String) (body : List Statement) : Program where
  body := [.declaration .constDeclaration ⟨"outer", .unresolved⟩
    (some (.arrow false parameters body)) .slot]

/-- The arrow that `outer` gives captures `p` and the cell of `d`. -/
def spareCellProgram : Program :=
  .ofOuter ["p", "q"]
    [.declaration .letDeclaration ⟨"c", .unresolved⟩ (some (.named "q")) .cell,
      .declaration .letDeclaration ⟨"d", .unresolved⟩ (some (.literal (.number 2))) .cell,
      .returning (some (.arrow true [] [.expression (.named "d"), .returning (some (.named "p"))]))]

theorem isSome_load_spareCell :
    (Session.load spareCellProgram .deterministic).toOption.isSome = true := by
  decide +kernel

/-- `outer` is called with 1 and an object, which is then in the slot of `q` and in the cell
of `c`. -/
theorem spareCell_checks : ∃ s past,
    DiscreetRun ((Session.load spareCellProgram .deterministic).toOption.get isSome_load_spareCell)
      s past ∧
    s.machine.heap.isDeserted s.image [⟨6⟩] ([0, 1, 2, 5, 7, 8, 9, 10, 11, 12].map .mk) = true ∧
    past.all (Moment.settles s.image) = true ∧ s.machine.heap.contains ⟨3⟩ = true ∧
    s.machine.heap.IsInstance ⟨8⟩ ∧
    (s.perform EvalM.collectGarbage).2.machine.heap.contains ⟨8⟩ = true := by
  have hrun : ClientRun
      ((Session.load spareCellProgram .deterministic).toOption.get isSome_load_spareCell) _ _ _ :=
    .step (.act (.run 20)) .start (by decide +kernel)
  have hmade := hrun.step (.act (.newObject [])) (by decide +kernel)
  have hcalled := hmade.step (.act (.callGlobal 20 "outer" [.number 1, .object ⟨3⟩]))
    (by decide +kernel)
  have hkept := hcalled.step (.act (.retain (.object ⟨8⟩))) (by decide +kernel)
  obtain ⟨ht, hc⟩ := confined_of_load (Except.eq_ok_get isSome_load_spareCell)
  exact ⟨_, _, (hkept.discreet ht hc).1, by decide +kernel, by decide +kernel, by decide +kernel,
    by decide +kernel, by decide +kernel⟩

/-- The collection takes the object and leaves the instance. -/
theorem uncaptured_swept_spareCell : ∃ s₀ s past S, ∃ x f : ObjectId,
    Session.load spareCellProgram .deterministic = .ok s₀ ∧ DiscreetRun s₀ s past ∧
      s.machine.heap.Deserted s.image past S ∧
      (∀ a ∈ past, ∀ x ∈ S, ∀ b i, a.Captures s.image b x i →
        a.before.heap.Settled s.image.tree b x i) ∧
      s.machine.heap.contains x = true ∧
      ¬ s.machine.heap.Beside (s.machine.heap.remains s.image past S) x ∧
      (∃ stats, (s.perform EvalM.collectGarbage).1 = .ok stats) ∧
      (s.perform EvalM.collectGarbage).2.machine.heap.contains x = false ∧
      s.machine.heap.IsInstance f ∧
      (s.perform EvalM.collectGarbage).2.machine.heap.contains f = true := by
  have hload := Except.eq_ok_get isSome_load_spareCell
  obtain ⟨s, past, hrun, hdeserted, hsettles, hin, hinstance, hkept⟩ := spareCell_checks
  obtain ⟨hS, hbeside⟩ := Heap.deserted_of_check past hdeserted
  have hsettled : ∀ a ∈ past, ∀ x ∈ {x | x ∈ [(⟨6⟩ : ObjectId)]}, ∀ b i,
      a.Captures s.image b x i → a.before.heap.Settled s.image.tree b x i :=
    fun a ha _ _ _ _ => a.settled_of_settles (List.all_eq_true.1 hsettles a ha)
  obtain ⟨hend, hswept⟩ := hrun.uncaptured_swept hload hS hsettled
  have hgone := hbeside ⟨3⟩ (by decide)
  exact ⟨_, s, past, _, ⟨3⟩, ⟨8⟩, hload, hrun, hS, hsettled, hin, hgone, hend,
    hswept ⟨3⟩ hin hgone, hinstance, hkept⟩

/-! ## What keeps an environment -/

section OnlyInSlot

variable {image : Image} {past : List Moment} {h : Heap}

/-- An object that only a slot of an environment holds, which no instance captured there. -/
structure Heap.OnlyInSlot (image : Image) (past : List Moment) (h : Heap) (env : ObjectId)
    (i : Nat) (x : ObjectId) : Prop where
  slot : h.slotAt env i = .ok (some (.object x))
  unrooted : ∀ e, h.entry? x = some e → e.roots = 0
  referrer : ∀ y, h.Refers y x → y = env
  spare : ∀ a ∈ past, ∀ b, ¬ a.Captures image b env i

theorem Heap.OnlyInSlot.not_beside {S : Set ObjectId} {env x : ObjectId} {i : Nat}
    (hx : h.OnlyInSlot image past env i x) (henv : env ∈ S) : ¬ h.Beside S x :=
  Heap.not_beside hx.unrooted fun y hy => hx.referrer y hy ▸ henv

/-- Whether only the slot of an environment holds an object, and no instance captured it. -/
def Heap.isOnlyInSlot (h : Heap) (image : Image) (past : List Moment) (env : ObjectId) (i : Nat)
    (x : ObjectId) : Bool :=
  decide (h.slotAt env i = .ok (some (.object x))) && decide (x ∉ h.rooted) &&
    h.ids.all (fun y => decide (x ∈ h.refs y → y = env)) &&
    past.all fun a => a.capturesAll image fun _ y j => decide (¬ (y = env ∧ j = i))

theorem Heap.onlyInSlot_of_check {env x : ObjectId} {i : Nat}
    (hcheck : h.isOnlyInSlot image past env i x = true) : h.OnlyInSlot image past env i x := by
  simp only [Heap.isOnlyInSlot, Bool.and_eq_true, decide_eq_true_eq, List.all_eq_true] at hcheck
  obtain ⟨⟨⟨hslot, hroots⟩, hrefs⟩, hspare⟩ := hcheck
  refine ⟨hslot, fun e he => ?_, fun y hy => ?_, fun a ha b hcaptures => ?_⟩
  · by_contra hpos
    exact hroots (Heap.mem_rooted.2 ⟨e, he, Nat.pos_of_ne_zero hpos⟩)
  · exact hrefs y (Heap.mem_ids.2 (Heap.lt_of_contains hy.contains_left)) (Heap.refers_iff.1 hy)
  · have hother := Moment.check_of_captures (hspare a ha) hcaptures
    exact of_decide_eq_true hother ⟨rfl, rfl⟩

end OnlyInSlot

/-- The arrow that `outer` gives is made before `late` has its value. -/
def lateProgram : Program :=
  .ofOuter ["p"]
    [.declaration .constDeclaration ⟨"f", .unresolved⟩
        (some (.arrow true [] [.returning (some (.named "late"))])) .slot,
      .declaration .letDeclaration ⟨"late", .unresolved⟩ (some (.literal (.number 1))) .slot,
      .returning (some (.named "f"))]

theorem isSome_load_late : (Session.load lateProgram .deterministic).toOption.isSome = true := by
  decide +kernel

theorem late_checks : ∃ s past,
    DiscreetRun ((Session.load lateProgram .deterministic).toOption.get isSome_load_late) s past ∧
    s.machine.heap.isDeserted s.image [⟨4⟩] ([0, 1, 2, 5, 6, 7, 8].map .mk) = true ∧
    s.machine.heap.isOnlyInSlot s.image past ⟨4⟩ 0 ⟨3⟩ = true ∧
    (s.perform EvalM.collectGarbage).2.machine.heap.contains ⟨3⟩ = true := by
  have hrun : ClientRun
      ((Session.load lateProgram .deterministic).toOption.get isSome_load_late) _ _ _ :=
    .step (.act (.run 20)) .start (by decide +kernel)
  have hmade := hrun.step (.act (.newObject [])) (by decide +kernel)
  have hcalled := hmade.step (.act (.callGlobal 20 "outer" [.object ⟨3⟩])) (by decide +kernel)
  have hkept := hcalled.step (.act (.retain (.object ⟨6⟩))) (by decide +kernel)
  obtain ⟨ht, hc⟩ := confined_of_load (Except.eq_ok_get isSome_load_late)
  exact ⟨_, _, (hkept.discreet ht hc).1, by decide +kernel, by decide +kernel, by decide +kernel⟩

/-- The arrow that `outer` gives captures `p`. -/
def parameterProgram : Program :=
  .ofOuter ["p", "q"] [.returning (some (.arrow true [] [.returning (some (.named "p"))]))]

theorem isSome_load_parameter :
    (Session.load parameterProgram .deterministic).toOption.isSome = true := by
  decide +kernel

/-- The host passes the number 4, which the environment will have. -/
theorem parameter_checks : ∃ s past,
    FreeRun ((Session.load parameterProgram .deterministic).toOption.get isSome_load_parameter)
      s past ∧
    s.machine.heap.isDeserted s.image [⟨4⟩] ([0, 1, 2, 5, 6, 7, 8].map .mk) = true ∧
    past.all (Moment.settles s.image) = true ∧
    s.machine.heap.isOnlyInSlot s.image past ⟨4⟩ 1 ⟨3⟩ = true ∧
    (s.perform EvalM.collectGarbage).2.machine.heap.contains ⟨3⟩ = true := by
  have hrun : FreeRun
      ((Session.load parameterProgram .deterministic).toOption.get isSome_load_parameter) _ _ :=
    .step (.act (.run 20)) .start
  have hmade := hrun.step (.act (.newObject []))
  have hcalled := hmade.step (.act (.callGlobal 20 "outer" [.object ⟨4⟩, .object ⟨3⟩]))
  have hkept := hcalled.step (.act (.retain (.object ⟨6⟩)))
  exact ⟨_, _, hkept, by decide +kernel, by decide +kernel, by decide +kernel, by decide +kernel⟩

/-- An object that only an uncaptured slot holds stays if another capture is read through the
environment: the arrow of `lateProgram` is made before `late` is initialized.  It also stays,
with all captures settled, if the host passes the number that the environment will have: the
arrow of `parameterProgram` then holds its own environment. -/
theorem uncaptured_kept :
    (∃ s₀ s past, ∃ env x : ObjectId, Session.load lateProgram .deterministic = .ok s₀ ∧
      DiscreetRun s₀ s past ∧ s.machine.heap.Deserted s.image past {y | y ∈ [env]} ∧
      s.machine.heap.OnlyInSlot s.image past env 0 x ∧
      ¬ s.machine.heap.Beside (s.machine.heap.remains s.image past {y | y ∈ [env]}) x ∧
      (s.perform EvalM.collectGarbage).2.machine.heap.contains x = true) ∧
    ∃ s₀ s past, ∃ env x : ObjectId, Session.load parameterProgram .deterministic = .ok s₀ ∧
      FreeRun s₀ s past ∧ s.machine.heap.Deserted s.image past {y | y ∈ [env]} ∧
      (∀ a ∈ past, ∀ y ∈ {y | y ∈ [env]}, ∀ b i, a.Captures s.image b y i →
        a.before.heap.Settled s.image.tree b y i) ∧
      s.machine.heap.OnlyInSlot s.image past env 1 x ∧
      ¬ s.machine.heap.Beside (s.machine.heap.remains s.image past {y | y ∈ [env]}) x ∧
      (s.perform EvalM.collectGarbage).2.machine.heap.contains x = true := by
  have hmem : ∀ {image : Image} {past : List Moment} {h : Heap},
      (⟨4⟩ : ObjectId) ∈ h.remains image past {y | y ∈ [(⟨4⟩ : ObjectId)]} :=
    .inl (List.mem_singleton.2 rfl)
  constructor
  · obtain ⟨s, past, hrun, hdeserted, honly, hkept⟩ := late_checks
    have hx := Heap.onlyInSlot_of_check honly
    exact ⟨_, s, past, ⟨4⟩, ⟨3⟩, Except.eq_ok_get isSome_load_late, hrun,
      (Heap.deserted_of_check past hdeserted).1, hx, hx.not_beside hmem, hkept⟩
  · obtain ⟨s, past, hrun, hdeserted, hsettles, honly, hkept⟩ := parameter_checks
    have hx := Heap.onlyInSlot_of_check honly
    exact ⟨_, s, past, ⟨4⟩, ⟨3⟩, Except.eq_ok_get isSome_load_parameter, hrun,
      (Heap.deserted_of_check past hdeserted).1,
      fun a ha _ _ _ _ => a.settled_of_settles (List.all_eq_true.1 hsettles a ha), hx,
      hx.not_beside hmem, hkept⟩

end ClosureCache
