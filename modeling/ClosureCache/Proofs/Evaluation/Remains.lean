/-
What an activation leaves.

An activation leaves its environments and the cells of their bindings.  `Deserted` says
that nothing but caches and instances of shared definitions still refers to the
environments, and `remains` adds to them the cells that no instance captured.  In a state
that is given all this can be computed.
-/
import ClosureCache.Proofs.Evaluation.Provenance
import ClosureCache.Proofs.Evaluation.References
import ClosureCache.Proofs.Heap.Separation

namespace ClosureCache

section Remains

variable (image : Image) (past : List Moment) (h : Heap) (S : Set ObjectId)

/-- The cell of a binding in one of the environments, which no instance captured there. -/
def Heap.SpareCell (c : ObjectId) : Prop :=
  (∃ contents, h.object c = .ok (.cell contents)) ∧ ∃ x ∈ S, ∃ (e : Environment) (i : Nat),
    h.environment x = .ok e ∧ e.slots[i]? = some (some (.object c)) ∧
      ∀ a ∈ past, ∀ b, ¬ a.Captures image b x i

/-- The environments and the cells of their bindings that no instance captured. -/
def Heap.remains : Set ObjectId := {x | x ∈ S ∨ h.SpareCell image past S x}

/-- Environments of activations to which, as far as anything is reached without them,
nothing refers but the parts of caches and the instances of shared definitions. -/
structure Heap.Deserted : Prop where
  environment : ∀ x ∈ S, ∃ e, h.environment x = .ok e
  «local» : image.globalEnvironment ∉ S
  referrer : ∀ x ∈ S, ∀ y, h.Beside (h.remains image past S) y → h.Refers y x →
    h.IsPart y ∨ h.IsInstance y

end Remains

/-- Every member of the remains is an environment or a cell. -/
theorem Heap.Deserted.role {image : Image} {past : List Moment} {h : Heap} {S : Set ObjectId}
    (hS : h.Deserted image past S) {x : ObjectId}
    (hx : x ∈ h.remains image past S) : ∃ o, h.object x = .ok o ∧
      (o.role = .cell ∨ ∃ scope, o.role = .environment scope) := by
  rcases hx with hx | ⟨⟨contents, hc⟩, -⟩
  · obtain ⟨e, he⟩ := hS.environment x hx
    exact ⟨_, environment_eq_ok.1 he, .inr ⟨e.scope, rfl⟩⟩
  · exact ⟨_, hc, .inl rfl⟩

/-! ## Checking a state

In a state that is given, the conditions can be computed. -/

section Checks

variable {image : Image} {h : Heap}

instance (x : ObjectId) : Decidable (h.IsPart x) :=
  match ho : h.object x with
  | .ok o => decidable_of_iff (o.isPart = true)
    ⟨fun hpart => ⟨o, ho, hpart⟩, fun ⟨o', ho', hpart⟩ => by
      rwa [Except.ok.inj (ho.symm.trans ho')]⟩
  | .error _ => .isFalse fun ⟨_, ho', _⟩ => by
    rw [ho] at ho'
    cases ho'

instance (x : ObjectId) : Decidable (h.IsInstance x) :=
  match hf : h.function x with
  | .ok ⟨site, .captured bindings this⟩ => .isTrue ⟨_, bindings, this, hf, rfl⟩
  | .ok ⟨site, .chain _⟩ => .isFalse fun ⟨f, _, _, hf', hclosure⟩ => by
    obtain rfl := Except.ok.inj (hf.symm.trans hf')
    cases hclosure
  | .error _ => .isFalse fun ⟨_, _, _, hf', _⟩ => by
    rw [hf] at hf'
    cases hf'

/-- Whether a list holds the roots other than some environments, and with each member all to
which it refers other than the environments, to which only such members refer as may. -/
def Heap.isDeserted (h : Heap) (image : Image) (envs l : List ObjectId) : Bool :=
  envs.all (fun x => (h.environment x).toOption.isSome) &&
    decide (image.globalEnvironment ∉ envs) && h.rooted.all (fun x => decide (x ∈ envs ∨ x ∈ l)) &&
    l.all fun x => (h.refs x).all fun y =>
      decide (y ∈ envs ∧ (h.IsPart x ∨ h.IsInstance x) ∨ y ∉ envs ∧ y ∈ l)

theorem Heap.deserted_of_check (past : List Moment) {envs l : List ObjectId}
    (hcheck : h.isDeserted image envs l = true) :
    h.Deserted image past {x | x ∈ envs} ∧
      ∀ x, x ∉ l → ¬ h.Beside (h.remains image past {x | x ∈ envs}) x := by
  simp only [isDeserted, Bool.and_eq_true, decide_eq_true_eq, List.all_eq_true] at hcheck
  obtain ⟨⟨⟨henvs, hlocal⟩, hroots⟩, hrefs⟩ := hcheck
  have hbeside : ∀ x, h.Beside (h.remains image past {x | x ∈ envs}) x → x ∈ l := fun x hx =>
    (hx.anti fun z hz => Or.inl hz).mem_of_closed hroots fun x hx y hy =>
      (hrefs x hx y hy).imp And.left And.right
  refine ⟨⟨fun x hx => ⟨_, Except.eq_ok_get (henvs x hx)⟩, hlocal, fun y hy x hx hrefers => ?_⟩,
    fun x hx hin => hx (hbeside x hin)⟩
  rcases hrefs x (hbeside x hx) y (refers_iff.1 hrefers) with ⟨-, hhold⟩ | ⟨hout, -⟩
  · exact hhold
  · exact absurd hy hout

instance {tree : ScopeTree} {b : BindingId} {x : ObjectId} {i : Nat} :
    Decidable (h.Settled tree b x i) :=
  match hd : tree.binding? b, hraw : h.slotAt x i with
  | some d, .ok raw =>
    if hsettled : d.storage = .cell ∨ raw ≠ none ∧ d.kind.isProvisional = false then
      .isTrue ⟨d, raw, hd, hraw, hsettled⟩
    else .isFalse fun ⟨d', raw', hd', hraw', h'⟩ => by
      obtain rfl := Option.some.inj (hd.symm.trans hd')
      obtain rfl := Except.ok.inj (hraw.symm.trans hraw')
      exact hsettled h'
  | none, _ => .isFalse fun ⟨_, _, hd', _⟩ => by
    rw [hd] at hd'
    cases hd'
  | some _, .error _ => .isFalse fun ⟨_, _, _, hraw', _⟩ => by
    rw [hraw] at hraw'
    cases hraw'

/-- Whether a check passes for all slots with bindings that the new instances of a moment may
have captured. -/
def Moment.capturesAll (image : Image) (check : BindingId → ObjectId → Nat → Bool) (a : Moment) :
    Bool :=
  match a.action with
  | .instantiate _ env => a.after.heap.ids.all fun f =>
    match a.after.heap.function f with
    | .ok g =>
      match image.analysis.get? g.site with
      | some (.memoized spec) => spec.captures.all fun c => c.binding.all fun b =>
        match a.before.heap.locate image.tree env b with
        | .ok (some (.slot x i)) => check b x i
        | _ => true
      | _ => true
    | .error _ => true
  | _ => true

theorem Moment.check_of_captures {check : BindingId → ObjectId → Nat → Bool} {a : Moment}
    (ha : a.capturesAll image check = true) {b : BindingId} {x : ObjectId} {i : Nat}
    (hcaptures : a.Captures image b x i) : check b x i = true := by
  obtain ⟨env, spec, f, ⟨⟨node, haction⟩, -, site, closure, hspec, -, hf⟩, ⟨c, hc, hb⟩, hlocate⟩ :=
    hcaptures
  have hin := Heap.mem_ids.2 (Heap.lt_of_contains (Heap.contains_of_function hf))
  rw [capturesAll, haction] at ha
  replace ha := List.all_eq_true.1 ha f hin
  rw [hf] at ha
  dsimp only at ha
  rw [hspec] at ha
  replace ha := List.all_eq_true.1 ha c hc
  rwa [hb, Option.all_some, hlocate] at ha

def Moment.settles (image : Image) (a : Moment) : Bool :=
  a.capturesAll image fun b x i => decide (a.before.heap.Settled image.tree b x i)

theorem Moment.settled_of_settles {a : Moment} (ha : a.settles image = true) {b : BindingId}
    {x : ObjectId} {i : Nat} (hcaptures : a.Captures image b x i) :
    a.before.heap.Settled image.tree b x i :=
  of_decide_eq_true (check_of_captures ha hcaptures)

end Checks

end ClosureCache
