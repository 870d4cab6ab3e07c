/-
What a shared instance reads of bindings that get their values late.

A binding that is uninitialised at a reach, a `var` or a function statement is read by
the instance through the environment of the reach that made it, at every later moment.
A reach that is given an instance made earlier is not that reach: what its own
environment gives the binding afterwards the instance does not see.
-/
import ClosureCache.Proofs.Evaluation.Sparing

namespace ClosureCache

section Following

variable {p : Program} {config : Config} {s₀ s : Session}

/-- A capture by reference is read where the environment of the reach has it, at every
later time. -/
theorem Moment.Makes.follows {R : Effects} {image : Image} {a : Moment} {maker : ObjectId}
    {spec : CaptureSpec} {x : Reach} {closure : Closure}
    (hm : a.Makes image maker spec x closure) {c : Capture} (hc : c ∈ spec.captures)
    {b : BindingId} (hb : c.binding = some b) {d : Binding} (hd : image.tree.binding? b = some d)
    (hslot : d.storage = .slot) {raw : Option Value}
    (hraw : a.before.heap.stored? image.tree maker b = some raw)
    (hlate : d.kind.isProvisional = true ∨ raw = none) {h : Heap}
    (hbefore : a.before.heap.Lasts R h) (hafter : a.after.heap.Lasts R h)
    (hmaker : h.contains maker = true) (hf : h.contains x.function = true) :
    ∃ raw', h.stored? image.tree maker b = some raw' ∧
      h.storedFor? x.function b = some raw' := by
  obtain ⟨location, slot, hlocate, hcontents, hcapture, -, hread⟩ :=
    hm.storedFor?_eq hc hb hd hraw
  rw [hread h (hafter.function _ _ hf hm.made)]
  -- nothing that comes late is copied
  have hrefers : a.before.heap.RefersTo location slot := by
    rcases Heap.captureSlot_cases hcapture with hrefers | ⟨raw', -, hraw', hfinal⟩
    · exact hrefers
    · obtain rfl := Except.ok.inj (hcontents.symm.trans hraw')
      rcases hfinal with hcell | ⟨hsome, hkind⟩
      · rw [hslot] at hcell
        cases hcell
      · rcases hlate with hprovisional | rfl
        · rw [hprovisional] at hkind
          cases hkind
        · cases hsome
  obtain ⟨hlocate', hholder⟩ := hbefore.locate_eq hmaker hlocate
  obtain ⟨hrefers', raw', hraw'⟩ := hbefore.contents_of_refersTo hrefers hcontents hholder
  refine ⟨raw', Heap.stored?_eq_some.2 ⟨location, hlocate', ?_⟩, ?_⟩
  · rw [hrefers'.contentsAt_eq, hraw']
  · rw [hraw']
    rfl

/-- Whatever a reach gives was made by a reach with the same key, at that moment or
before, and from then on the instance reads a slot binding that comes late where the
environment of the making reach has it.  A new instance was made by the reach itself. -/
theorem FreeRun.follows_maker (hload : Session.load p config = .ok s₀)
    {earlier later : List Moment} {node : FunctionNode} {env f : ObjectId} {before after : Machine}
    (hrun : FreeRun s₀ s
      (earlier ++ ⟨.instantiate node env, before, .ok (.object f), after⟩ :: later))
    {site : SiteId} (hsite : node.site = some site) {spec : CaptureSpec}
    (hspec : s₀.image.analysis.get? site = some (.memoized spec)) :
    ∃ made ∈ earlier ++ [⟨.instantiate node env, before, .ok (.object f), after⟩],
      ∃ maker key closure, made.Makes s₀.image maker spec ⟨site, key, f⟩ closure ∧
        spec.buildKey (before.heap.liveScope s₀.image.tree env) = .ok key ∧
        (before.heap.entries.size ≤ f.index → maker = env) ∧
        ∀ c ∈ spec.captures, ∀ b d, c.binding = some b → s₀.image.tree.binding? b = some d →
          d.storage = .slot →
          (d.kind.isProvisional = true ∨ before.heap.stored? s₀.image.tree env b = some none) →
          ∀ m ∈ after :: s.machine :: later.flatMap fun x => [x.before, x.after],
            m.heap.contains maker = true → m.heap.contains f = true →
            ∃ raw, m.heap.stored? s₀.image.tree maker b = some raw ∧
              m.heap.storedFor? f b = some raw := by
  have himage := hrun.image_eq
  have hc := hrun.chronicle hload
  rw [himage] at hc
  obtain ⟨resolved, hloaded⟩ := Session.loaded hload
  have hregular := hloaded.regular hspec
  obtain ⟨key, f', hf, hkey, -, made, hmade, maker, closure, hmakes⟩ := hc.maker hsite hspec
  obtain rfl := Value.object.inj hf
  refine ⟨made, hmade, maker, key, closure, hmakes, hkey, fun hnew => ?_, ?_⟩
  · rcases List.mem_append.1 hmade with hmade | hmade
    · -- what was made before is older
      have hbefore := (List.pairwise_append.1 hc.between).2.2 made hmade _ List.mem_cons_self
      have hlt := Heap.lt_of_contains (Heap.contains_of_function hmakes.made)
      exact absurd (Nat.lt_of_lt_of_le hlt hbefore.size_le) (Nat.not_lt_of_le hnew)
    · obtain rfl := List.mem_singleton.1 hmade
      obtain ⟨node', hnode⟩ := hmakes.action
      exact (Action.instantiate.inj hnode).2.symm
  · intro c hcapture b d hb hd hslot hlate m hm hmaker hf
    obtain ⟨d', hd', htakes⟩ := hregular.takes c hcapture b hb
    obtain rfl := Option.some.inj (hd.symm.trans hd')
    -- what is uninitialised at the reach was so when the instance was made
    obtain ⟨k, hk, hk'⟩ := CaptureSpec.component_of_buildKey hmakes.key hkey hcapture
    obtain ⟨raw, hraw, hraw'⟩ := htakes.stored_eq hk hk'
    have hafter := hc.outlasts hmade hm
    have hduring := hc.during made (List.append_cons .. ▸ List.mem_append_left _ hmade)
    refine hmakes.follows hcapture hb hd hslot hraw ?_ (hduring.trans hafter) hafter hmaker hf
    refine hlate.imp id fun hnone => ?_
    rw [hraw'] at hnone
    exact Option.some.inj hnone

end Following

/-! ## An instance that is given twice

In `lateValue` a function `outer` makes a shared arrow over its `x` before it gives `x`
the value of its argument.  Two calls of `outer` reach the arrow with the same key, so the
second is given the instance that the first made. -/

/-- A function that reaches a shared arrow over an uninitialised binding. -/
def lateValue : Program where
  body :=
    let name (s : String) : Identifier := ⟨s, .unresolved⟩
    let span : SourceSpan := ⟨0, 0, 0, 0, 0, 0⟩
    let arrow : FunctionNode := ⟨none, .arrow, .plain, true, [], none,
      [.returning (some (.identifier (name "x")))], span, none, none, none⟩
    [.function ⟨some (name "outer"), .declaration, .plain, false, [name "v"], none,
      [.declaration .constDeclaration (name "f") (some (.function arrow)) .slot,
        .declaration .letDeclaration (name "x") (some (.identifier (name "v"))) .slot,
        .returning (some (.identifier (name "f")))], span, none, none, none⟩]

theorem isSome_load_lateValue :
    (Session.load lateValue .deterministic).toOption.isSome = true := by
  decide +kernel

def lateValueSession : Session :=
  (Session.load lateValue .deterministic).toOption.get isSome_load_lateValue

def lateValueCapture : Capture := ⟨some ⟨4⟩, "x", .value, ⟨1⟩⟩

theorem lateValue_analysis : lateValueSession.image.analysis.get? ⟨1⟩ =
    some (.memoized ⟨⟨1⟩, [lateValueCapture]⟩) := by
  decide +kernel

theorem lateValue_binding : ∃ d, lateValueSession.image.tree.binding? ⟨4⟩ = some d ∧
    d.storage = .slot :=
  ⟨⟨⟨4⟩, "x", ⟨1⟩, .letBinding, .slot, 3, 0, false⟩, by decide +kernel⟩

/-- A reach of the arrow that found `x` uninitialised.  In the end the environment of the
reach holds `own` for `x`, and the instance reads `seen`. -/
structure ReadsLate (final : Machine) (own seen : Int64) (node : FunctionNode) (env f : ObjectId)
    (before : Machine) : Prop where
  site : node.site = some ⟨1⟩
  late : before.heap.stored? lateValueSession.image.tree env ⟨4⟩ = some none
  env_alive : final.heap.contains env = true
  alive : final.heap.contains f = true
  own : final.heap.stored? lateValueSession.image.tree env ⟨4⟩ = some (some (.number own))
  seen : final.heap.storedFor? f ⟨4⟩ = some (some (.number seen))

instance (final : Machine) (own seen : Int64) (node : FunctionNode) (env f : ObjectId)
    (before : Machine) : Decidable (ReadsLate final own seen node env f before) :=
  decidable_of_iff
    (node.site = some ⟨1⟩ ∧
      before.heap.stored? lateValueSession.image.tree env ⟨4⟩ = some none ∧
      final.heap.contains env = true ∧ final.heap.contains f = true ∧
      final.heap.stored? lateValueSession.image.tree env ⟨4⟩ = some (some (.number own)) ∧
      final.heap.storedFor? f ⟨4⟩ = some (some (.number seen)))
    ⟨fun ⟨h₁, h₂, h₃, h₄, h₅, h₆⟩ => ⟨h₁, h₂, h₃, h₄, h₅, h₆⟩,
      fun h => ⟨h.site, h.late, h.env_alive, h.alive, h.own, h.seen⟩⟩

/-- Whether a moment is such a reach, and whether it made the instance. -/
def Moment.readsLate (final : Machine) (own seen : Int64) (new : Bool) : Moment → Bool
  | ⟨.instantiate node env, before, .ok (.object f), _⟩ =>
    decide (ReadsLate final own seen node env f before) &&
      decide (before.heap.entries.size ≤ f.index) == new
  | _ => false

theorem exists_readsLate {past : List Moment} {final : Machine} {own seen : Int64} {new : Bool}
    (h : past.any (Moment.readsLate final own seen new) = true) :
    ∃ earlier node env before f after later,
      past = earlier ++ ⟨.instantiate node env, before, .ok (.object f), after⟩ :: later ∧
        ReadsLate final own seen node env f before ∧
        decide (before.heap.entries.size ≤ f.index) = new := by
  obtain ⟨a, ha, hreads⟩ := List.any_eq_true.1 h
  obtain ⟨earlier, later, rfl⟩ := List.append_of_mem ha
  rw [Moment.readsLate.eq_def] at hreads
  split at hreads
  · next node env before f after =>
    obtain ⟨hlate, hnew⟩ := Bool.and_eq_true_iff.1 hreads
    exact ⟨earlier, node, env, before, f, after, later, rfl, of_decide_eq_true hlate,
      beq_iff_eq.1 hnew⟩
  · cases hreads

/-- Two calls of `outer`.  The first reach makes an instance, which sees the value that its
own environment gives `x`; the second is given the same instance, which does not. -/
theorem lateValue_run : ∃ s past, SparingRun lateValueSession s past ∧
    past.any (Moment.readsLate s.machine 1 1 true) = true ∧
    past.any (Moment.readsLate s.machine 2 1 false) = true := by
  have hran : SparingRun lateValueSession _ _ :=
    .step (.act (.run 30)) .start fun name v hv => by cases hv
  have hfirst := hran.step (.act (.callGlobal 30 "outer" [.number 1])) fun name v hv => by cases hv
  have hsecond := hfirst.step (.act (.callGlobal 30 "outer" [.number 2])) fun name v hv => by
    cases hv
  exact ⟨_, _, hsecond, by decide +kernel, by decide +kernel⟩

theorem load_lateValue : Session.load lateValue .deterministic = .ok lateValueSession :=
  Except.eq_ok_get isSome_load_lateValue

/-- The instance that the first call of `outer` makes sees the value that the call gives
`x`. -/
theorem follows_maker_lateValue : ∃ s₀ s earlier node env before f after later,
    Session.load lateValue .deterministic = .ok s₀ ∧
      FreeRun s₀ s
        (earlier ++ ⟨.instantiate node env, before, .ok (.object f), after⟩ :: later) ∧
      node.site = some ⟨1⟩ ∧
      s₀.image.analysis.get? ⟨1⟩ = some (.memoized ⟨⟨1⟩, [lateValueCapture]⟩) ∧
      before.heap.stored? s₀.image.tree env ⟨4⟩ = some none ∧
      s.machine.heap.stored? s₀.image.tree env ⟨4⟩ = some (some (.number 1)) ∧
      ∃ raw, s.machine.heap.stored? s₀.image.tree env ⟨4⟩ = some raw ∧
        s.machine.heap.storedFor? f ⟨4⟩ = some raw := by
  obtain ⟨s, past, hrun, hfirst, -⟩ := lateValue_run
  obtain ⟨earlier, node, env, before, f, after, later, rfl, hlate, hnew⟩ :=
    exists_readsLate hfirst
  obtain ⟨d, hd, hslot⟩ := lateValue_binding
  obtain ⟨-, -, maker, -, -, -, -, hown, hreads⟩ :=
    hrun.freeRun.follows_maker load_lateValue hlate.site lateValue_analysis
  obtain rfl := hown (of_decide_eq_true hnew)
  refine ⟨_, s, earlier, node, maker, before, f, after, later, load_lateValue, hrun.freeRun,
    hlate.site, lateValue_analysis, hlate.late, hlate.own, ?_⟩
  exact hreads _ List.mem_cons_self ⟨4⟩ d rfl hd hslot (.inr hlate.late) s.machine
    (List.mem_cons_of_mem _ List.mem_cons_self) hlate.env_alive hlate.alive

/-- The second call of `outer` reaches the arrow while `x` is uninitialised, and gives `x`
the value 2 afterwards.  The instance that the reach is given reads 1. -/
theorem misread_lateValue : ∃ s₀ s past, Session.load lateValue .deterministic = .ok s₀ ∧
    (∀ f ∈ lateValue.functions, f.arguments = none) ∧ SparingRun s₀ s past ∧
    ∃ node env before f after site spec c b d,
      ⟨.instantiate node env, before, .ok (.object f), after⟩ ∈ past ∧ node.site = some site ∧
      s₀.image.analysis.get? site = some (.memoized spec) ∧ c ∈ spec.captures ∧
      c.binding = some b ∧ s₀.image.tree.binding? b = some d ∧ d.storage = .slot ∧
      before.heap.stored? s₀.image.tree env b = some none ∧
      s.machine.heap.stored? s₀.image.tree env b = some (some (.number 2)) ∧
      s.machine.heap.storedFor? f b = some (some (.number 1)) := by
  obtain ⟨s, past, hrun, -, hsecond⟩ := lateValue_run
  obtain ⟨earlier, node, env, before, f, after, later, rfl, hlate, -⟩ :=
    exists_readsLate hsecond
  obtain ⟨d, hd, hslot⟩ := lateValue_binding
  refine ⟨_, s, _, load_lateValue, fun f hf => ?_, hrun, node, env, before, f, after, ⟨1⟩,
    _, lateValueCapture, ⟨4⟩, d, List.mem_append_right _ List.mem_cons_self, hlate.site,
    lateValue_analysis, List.mem_cons_self, rfl, hd, hslot, hlate.late, hlate.own, hlate.seen⟩
  simp only [lateValue, Program.functions, functionsInStatements, Statement.functions,
    FunctionNode.functions, Expression.functions, List.append_nil, List.mem_cons,
    List.not_mem_nil, or_false] at hf
  rcases hf with rfl | rfl <;> rfl

end ClosureCache
