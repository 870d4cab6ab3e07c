/-
Looking up what an instance captured by name.

Captures are looked up by name only, and the first entry of the table that has the name and
gives something is taken.  Every function that evaluation makes has the table that a spec of
its definition asks for (`Built`), and the captures of a spec have different names, so what
is found is what the instance reads of the one binding that is captured under the name.
-/
import ClosureCache.Proofs.Capture.Naming
import ClosureCache.Proofs.Evaluation.PrivateCells
import ClosureCache.Proofs.Program.Registration

namespace ClosureCache

/-! ## Functions and their tables -/

/-- The function finds its bindings where a reach of its definition found them. -/
def FunctionObject.Built (image : Image) (f : FunctionObject) : Prop :=
  ∃ (h : Heap) (env : ObjectId), f.closure.MadeFrom image h env f.site

/-- Any writes and new environments; functions only as reaches of their definitions make
them. -/
def Effects.building (image : Image) : Effects :=
  { Effects.any with
    makes := FunctionObject.Built image }

section Building

variable {image : Image} {α : Type} {out : Known → α → Prop} {c : Course α}

def Known.all : Known where
  objects _ := True
  environments _ := True

theorem Value.allAmong_all (l : List Value) : AllAmong .all l := fun _ _ _ _ => trivial

theorem Action.answerKnown_all (a : Action) (answer : a.Answer) : a.AnswerKnown .all answer := by
  cases a with
  | readIdentifier | readThis | getProperty | instantiate => exact fun _ _ => trivial
  | callee v =>
    refine ⟨trivial, ?_⟩
    cases answer.2.closure <;> exact trivial
  | _ => trivial

/-- A course that is discreet makes no function by itself, whatever it is given. -/
theorem Course.Discreet.inputsKnown_all (hc : c.Discreet out .all) (m : Machine) :
    ∀ a ∈ c.moments image m, a.action.InputsKnown .all := by
  induction c generalizing m with
  | done _ => exact fun a ha => absurd ha List.not_mem_nil
  | stop _ => exact fun a ha => absurd ha List.not_mem_nil
  | act action next ih =>
    intro a ha
    rcases mem_moments_act ha with rfl | ⟨answer, m', -, ha⟩
    · exact hc.1
    · exact ih answer (hc.2 answer .all (.refl _) (action.answerKnown_all answer)) m' a ha

theorem Action.InputsKnown.within_building {K : Known} {a : Action} (ha : a.InputsKnown K)
    (h : Heap) : a.Within (.building image) image h := by
  cases a with
  | assign env i v => exact fun _ _ _ _ _ _ _ _ => trivial
  | writeBinding env b name v => exact fun _ _ _ _ _ _ => trivial
  | newEnvironment scope outer this => exact fun _ _ => trivial
  | allocate o =>
    refine ⟨fun _ _ => trivial, fun f hf => ?_⟩
    subst hf
    exact ha.elim
  | instantiate node env => exact fun site closure hmade => ⟨h, env, hmade⟩
  | _ => trivial

theorem Course.Discreet.builds (hc : c.Discreet out .all) (m : Machine) :
    m.heap.Lasts (.building image) (c.run image m).2.heap :=
  Course.history_along (J := fun _ m' => m.heap.Lasts (.building image) m'.heap)
    (Q := fun a _ => a.InputsKnown .all)
    (fun _ a _ hl ha => hl.trans (a.lasts (ha.within_building _))) c [] m (hc.inputsKnown_all m)
    (.refl ..)

end Building

section Runs

variable {s₀ s : Session} {past : List Moment}

theorem HostAction.builds (s : Session) (a : HostAction) :
    s.machine.heap.Lasts (.building s.image) (a.perform s.image s.machine).2.heap := by
  cases hcourse : a.course? s with
  | some start =>
    obtain ⟨c, m⟩ := start
    have hdiscreet : c.Discreet Course.GivesValue .all := by
      rcases course_cases hcourse with
        ⟨steps, -, rfl, -⟩ | ⟨steps, function, this, arguments, rfl, -⟩
      · exact Course.discreet_program steps trivial _
      · exact (Course.evaluatesDiscreetly steps).call (fun _ _ => trivial) (fun _ _ => trivial)
          (Value.allAmong_all arguments)
    rw [perform_of_course hcourse, ← (machine_of_course hcourse).1]
    exact hdiscreet.builds m
  | none => exact a.lasts hcourse fun _ _ _ _ _ _ _ _ _ _ _ => trivial

/-- Whatever a host asks for, functions are only made as reaches make them. -/
theorem Request.builds (s : Session) (r : Request) :
    s.machine.heap.Lasts (.building s.image) (r.perform s.image s.machine).2.heap := by
  rcases r.act_or_sameState s with ⟨a, heq, -, -⟩ | ⟨hstate, -⟩
  · rw [heq]
    exact a.builds s
  · exact .of_object_eq (congrArg Array.size hstate.entries) hstate.object_eq

theorem FreeRun.builds (hrun : FreeRun s₀ s past) :
    s₀.machine.heap.Lasts (.building s₀.image) s.machine.heap := by
  induction hrun with
  | start => exact .refl ..
  | @step s _ r hrun ih =>
    have hstep : s.machine.heap.Lasts (.building s.image) (s.perform r.perform).2.machine.heap :=
      r.builds s
    rw [hrun.image_eq] at hstep
    exact ih.trans hstep

/-- In every state of every run each function was built so. -/
theorem FreeRun.built {p : Program} {config : Config} (hload : Session.load p config = .ok s₀)
    (hrun : FreeRun s₀ s past) {x : ObjectId} {f : FunctionObject}
    (hf : s.machine.heap.function x = .ok f) : f.Built s₀.image := by
  rcases hrun.builds.made x f hf with hold | ⟨-, hbuilt⟩
  · obtain ⟨-, hnone, -⟩ := Session.furnished_of_load hload
    exact absurd hold (hnone x f)
  · exact hbuilt

end Runs

/-! ## The search -/

/-- What only some members of a list are mapped to, all to the same, is found. -/
theorem List.findSome?_eq_of_forall {α β : Type} {l : List α} {f : α → Option β} {found : Option β}
    (hall : ∀ a ∈ l, f a = none ∨ f a = found) (hsome : ∃ a ∈ l, f a = found) :
    l.findSome? f = found := by
  cases hfind : l.findSome? f with
  | none =>
    obtain ⟨a, ha, rfl⟩ := hsome
    exact (List.findSome?_eq_none_iff.1 hfind a ha).symm
  | some v =>
    obtain ⟨a, ha, hv⟩ := List.exists_of_findSome?_eq_some hfind
    rcases hall a ha with hnone | hfound
    · rw [hnone] at hv
      cases hv
    · exact hv.symm.trans hfound

/-- The entry that the search comes to first does not matter, if all entries with the name are
alike. -/
theorem Session.capturedNamed_eq {s : Session} {bindings : List (BindingId × CapturedSlot)}
    {b : BindingId} {slot : CapturedSlot} {d : Binding} (hmem : (b, slot) ∈ bindings)
    (hd : s.image.tree.binding? b = some d)
    (hsame : ∀ entry ∈ bindings, ∀ d', s.image.tree.binding? entry.1 = some d' →
      d'.name = d.name → entry.2 = slot) :
    s.capturedNamed d.name bindings = (s.machine.heap.capturedContents slot).toOption.join := by
  refine List.findSome?_eq_of_forall (fun (b', slot') hentry => ?_) ⟨(b, slot), hmem, ?_⟩
  · dsimp only
    cases hd' : s.image.tree.binding? b' with
    | none => exact .inl rfl
    | some d' =>
      by_cases hname : d'.name = d.name
      · obtain rfl : slot' = slot := hsame _ hentry d' hd' hname
        exact .inr (if_pos hname)
      · exact .inl (if_neg hname)
  · dsimp only
    rw [hd]
    exact if_pos rfl

/-- Nothing is found under a name that no entry has. -/
theorem Session.capturedNamed_eq_none {s : Session} {bindings : List (BindingId × CapturedSlot)}
    {name : String} (hnone : ∀ entry ∈ bindings, ∀ d, s.image.tree.binding? entry.1 = some d →
      d.name ≠ name) : s.capturedNamed name bindings = none := by
  refine List.findSome?_eq_none_iff.2 fun (b, slot) hentry => ?_
  dsimp only
  cases hd : s.image.tree.binding? b with
  | none => rfl
  | some d => exact if_neg (hnone _ hentry d hd)

/-- Looking up by name what an instance captured gives, under the name of a capture, what the
instance reads of the captured binding, and under other names nothing.  The name `this` is left
out: under it the captured `this` is given. -/
structure Session.FindsCaptures (s : Session) (f : ObjectId) (spec : CaptureSpec) : Prop where
  captured : ∀ c ∈ spec.captures, ∀ b, c.binding = some b → c.name ≠ "this" →
    s.captured (.object f) c.name = (s.machine.heap.storedFor? f b).join
  missing : ∀ name, name ≠ "this" → (∀ c ∈ spec.captures, c.binding ≠ none → c.name ≠ name) →
    s.captured (.object f) name = none

/-- In the table of a spec, entries for bindings of one name are alike: there is only one such
binding, and it was taken from where the reach found it. -/
theorem CaptureSpec.WellNamed.entry_eq {t : ScopeTree} {spec : CaptureSpec}
    (hn : spec.WellNamed t) {h : Heap} {env : ObjectId} {this : Option Value}
    {bindings : List (BindingId × CapturedSlot)}
    (htable : h.captureTable t env spec.captures none = .ok (bindings, this))
    {entry entry' : BindingId × CapturedSlot} (hentry : entry ∈ bindings)
    (hentry' : entry' ∈ bindings) {d d' : Binding} (hd : t.binding? entry.1 = some d)
    (hd' : t.binding? entry'.1 = some d') (hname : d.name = d'.name) : entry.2 = entry'.2 := by
  obtain ⟨-, hentries, -⟩ := Heap.captureTable_spec htable
  obtain ⟨hslot, c, hc, hb⟩ := hentries entry hentry
  obtain ⟨hslot', c', hc', hb'⟩ := hentries entry' hentry'
  rw [hn.name_eq hc hb hd, hn.name_eq hc' hb' hd'] at hname
  rw [hn.binding_eq hc hc' hb hb' hname, hslot'] at hslot
  exact (Except.ok.inj hslot).symm

section Search

variable {s : Session} {f : ObjectId} {g : FunctionObject} {spec : CaptureSpec}

theorem Session.exists_function {site : SiteId} (hsite : s.functionSite (.object f) = some site) :
    ∃ g, s.machine.heap.function f = .ok g ∧ g.site = site := by
  cases hf : s.machine.heap.function f with
  | error e => simp [functionSite, Value.object?, hf, Except.toOption] at hsite
  | ok g => exact ⟨g, rfl, by simpa [functionSite, Value.object?, hf, Except.toOption] using hsite⟩

theorem Session.captured_of_chain (hf : s.machine.heap.function f = .ok g) {env : ObjectId}
    (hclosure : g.closure = .chain env) (name : String) : s.captured (.object f) name = none := by
  simp [captured, Value.object?, hf, hclosure, Except.toOption]

theorem Session.captured_of_captured (hf : s.machine.heap.function f = .ok g)
    {bindings : List (BindingId × CapturedSlot)} {this : Option Value}
    (hclosure : g.closure = .captured bindings this) {name : String} (hname : name ≠ "this") :
    s.captured (.object f) name = s.capturedNamed name bindings := by
  simp [captured, Value.object?, hf, hclosure, Except.toOption, hname]

theorem Heap.storedFor?_of_chain {h : Heap} (hf : h.function f = .ok g) {env : ObjectId}
    (hclosure : g.closure = .chain env) (b : BindingId) : h.storedFor? f b = none := by
  simp [storedFor?, capturedLocation, hf, hclosure, storedAt?]

/-- What a reach of its definition has built is searched as its spec says. -/
theorem FunctionObject.Built.findsCaptures (hbuilt : g.Built s.image)
    (hf : s.machine.heap.function f = .ok g)
    (hspec : s.image.analysis.get? g.site = some (.memoized spec))
    (hnamed : spec.WellNamed s.image.tree) : s.FindsCaptures f spec := by
  obtain ⟨h, env, hchain | ⟨spec', hspec', hmade⟩⟩ := hbuilt
  · refine ⟨fun c _ b _ _ => ?_, fun name _ _ => Session.captured_of_chain hf hchain name⟩
    rw [Session.captured_of_chain hf hchain, Heap.storedFor?_of_chain hf hchain]
    rfl
  obtain rfl := SiteAnalysis.memoized.inj (Option.some.inj (hspec.symm.trans hspec'))
  obtain ⟨⟨bindings, this⟩, htable, hclosure⟩ := Except.bind_eq_ok.1 hmade
  replace hclosure := (Except.ok.inj hclosure).symm
  obtain ⟨hfound, hentries, -⟩ := Heap.captureTable_spec htable
  refine ⟨fun c hc b hb hname => ?_, fun name hname hnone => ?_⟩
  · obtain ⟨slot, hmem⟩ := hfound c hc b hb
    obtain ⟨d, hd, hcname⟩ := hnamed.declared c hc b hb
    rw [Session.captured_of_captured hf hclosure hname, Heap.storedFor?_eq hf hclosure hmem
      fun entry hentry heq => hnamed.entry_eq htable hentry hmem (heq ▸ hd) hd rfl, ← hcname]
    exact Session.capturedNamed_eq hmem hd fun entry hentry d' hd' =>
      hnamed.entry_eq htable hentry hmem hd' hd
  · rw [Session.captured_of_captured hf hclosure hname]
    refine Session.capturedNamed_eq_none fun entry hentry d hd heq => ?_
    obtain ⟨-, c, hc, hb⟩ := hentries entry hentry
    have hcaptured : c.binding ≠ none := by
      rw [hb]
      exact Option.some_ne_none _
    exact hnone c hc hcaptured ((hnamed.name_eq hc hb hd).symm.trans heq)

end Search

/-! ## Captures by name -/

/-- In a program that resolves, take a definition that analysis shares.  Each binding that its
spec captures, from however deep inside the definition, is what its name denotes in the scope of
the definition, so no two of them have the same name.  And in every state of every run of the
program, whatever the host does, looking up by name what an instance of the definition captured
gives what the instance reads of the binding that is captured under the name. -/
theorem Program.captures_unambiguous {p : Program} {r : ResolvedProgram}
    (hresolve : p.resolve = .ok r) {node : FunctionNode} (hnode : node ∈ r.program.functions)
    {spec : CaptureSpec} (hspec : analyzeSite r.tree node = .ok (.memoized spec)) :
    (∃ own, node.scope = some own ∧ ∀ c ∈ spec.captures, ∀ b, c.binding = some b →
      r.tree.resolve own c.name = some b) ∧
    spec.WellNamed r.tree ∧
    ∀ {config : Config} {s₀ s : Session} {past : List Moment},
      Session.load p config = .ok s₀ → FreeRun s₀ s past →
      ∀ f : ObjectId, s.functionSite (.object f) = node.site → s.FindsCaptures f spec := by
  obtain ⟨own, hsettled⟩ := (Program.settled_of_resolve (P := fun _ => True) hresolve
    fun _ _ _ _ => trivial).functions node hnode
  have hnamed := Program.wellNamed_of_analyzeSite hresolve hnode hspec
  refine ⟨⟨own, hsettled.scope, fun c hc b hb =>
    (Program.resolve_capture hresolve hnode hsettled.scope hspec hc hb).2⟩, hnamed,
    fun {config s₀ s past} hload hrun f hf => ?_⟩
  obtain ⟨resolved, hloaded⟩ := Session.loaded hload
  obtain rfl := Except.ok.inj (hresolve.symm.trans hloaded.resolve)
  obtain ⟨site, a, hsite, ha, hget⟩ := ResolvedProgram.analyze_spec
    (Program.numbered_of_resolve hresolve).distinctSites hloaded.analyze node hnode
  obtain rfl := Except.ok.inj (ha.symm.trans hspec)
  obtain ⟨g, hg, rfl⟩ := Session.exists_function (hf.trans hsite)
  have himage := hrun.image_eq
  rw [← himage] at hget
  have hbuilt : g.Built s.image := himage ▸ hrun.built hload hg
  exact hbuilt.findsCaptures hg hget (by rwa [himage, hloaded.tree])

/-- A function that makes a shared arrow over its own `a` and `b`.  Inside of the arrow a block
declares another `a`, and another arrow has a parameter `b`. -/
def shadowing : Program where
  body :=
    let name (s : String) : Identifier := ⟨s, .unresolved⟩
    let use (s : String) : Expression := .identifier (name s)
    let span : SourceSpan := ⟨0, 0, 0, 0, 0, 0⟩
    let constant (s : String) (value : Expression) : Statement :=
      .declaration .constDeclaration (name s) (some value) .slot
    let arrow (memoized : Bool) (params : List Identifier) (body : List Statement) : Expression :=
      .function ⟨none, .arrow, .plain, memoized, params, none, body, span, none, none, none⟩
    let shared := arrow true []
      [.block ⟨[constant "a" (.literal (.number 1)), .expression (use "a")], none⟩,
        .expression (arrow false [name "b"] [.returning (some (use "b"))]),
        .expression (arrow false [] [.returning (some (use "a"))]),
        .returning (some (use "b"))]
    [.function ⟨some (name "outer"), .declaration, .plain, false, [name "v"], none,
      [constant "a" (use "v"), constant "b" (.literal (.number 2)), .returning (some shared)],
      span, none, none, none⟩]

theorem isSome_resolve_shadowing : shadowing.resolve.toOption.isSome = true := by
  decide +kernel

def shadowingResolved : ResolvedProgram := shadowing.resolve.toOption.get isSome_resolve_shadowing

def shadowingArrow : FunctionNode := shadowingResolved.program.functions.get ⟨1, by decide +kernel⟩

theorem isSome_load_shadowing :
    (Session.load shadowing .deterministic).toOption.isSome = true := by
  decide +kernel

def shadowingSession : Session :=
  (Session.load shadowing .deterministic).toOption.get isSome_load_shadowing

def shadowingCapture : Capture := ⟨some ⟨3⟩, "a", .value, ⟨1⟩⟩

theorem analyzeSite_shadowing : analyzeSite shadowingResolved.tree shadowingArrow =
    .ok (.memoized ⟨⟨1⟩, [shadowingCapture, ⟨some ⟨4⟩, "b", .value, ⟨1⟩⟩]⟩) := by
  decide +kernel

/-- A call of the function with 5 gives an instance, which reads 5 of the `a` that it
captured. -/
theorem shadowing_run : ∃ s past, FreeRun shadowingSession s past ∧
    s.functionSite (.object ⟨6⟩) = shadowingArrow.site ∧
    s.machine.heap.storedFor? ⟨6⟩ ⟨3⟩ = some (some (.number 5)) := by
  have hran : FreeRun shadowingSession _ _ := .step (.act (.run 30)) .start
  have hcalled := hran.step (.act (.callGlobal 30 "outer" [.number 5]))
  exact ⟨_, _, hcalled, by decide +kernel, by decide +kernel⟩

/-- The arrow captures the `a` and the `b` of the function and none of those inside of it, and
what is found under `a` is the argument of the call. -/
theorem captures_unambiguous_shadowing : ∃ spec s₀ s past f,
    shadowing.resolve = .ok shadowingResolved ∧
    shadowingArrow ∈ shadowingResolved.program.functions ∧
    analyzeSite shadowingResolved.tree shadowingArrow = .ok (.memoized spec) ∧
    spec.names = ["a", "b"] ∧ spec.WellNamed shadowingResolved.tree ∧
    Session.load shadowing .deterministic = .ok s₀ ∧ FreeRun s₀ s past ∧
    s.functionSite (.object f) = shadowingArrow.site ∧
    s.captured (.object f) "a" = some (.number 5) := by
  obtain ⟨s, past, hrun, hsite, hstored⟩ := shadowing_run
  have hresolve : shadowing.resolve = .ok shadowingResolved :=
    Except.eq_ok_get isSome_resolve_shadowing
  have hload : Session.load shadowing .deterministic = .ok shadowingSession :=
    Except.eq_ok_get isSome_load_shadowing
  have hnode : shadowingArrow ∈ shadowingResolved.program.functions := List.getElem_mem _
  obtain ⟨-, hnamed, hfinds⟩ :=
    Program.captures_unambiguous hresolve hnode analyzeSite_shadowing
  refine ⟨_, shadowingSession, s, past, ⟨6⟩, hresolve, hnode, analyzeSite_shadowing, rfl, hnamed,
    hload, hrun, hsite, ?_⟩
  have hfound := (hfinds hload hrun ⟨6⟩ hsite).captured shadowingCapture List.mem_cons_self ⟨3⟩ rfl
    (by decide)
  rw [hstored] at hfound
  exact hfound

end ClosureCache
