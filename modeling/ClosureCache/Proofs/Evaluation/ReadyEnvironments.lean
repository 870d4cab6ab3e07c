/-
Environments that stand ready for code.

An environment is ready for code that is bound in its scope when the definitions in the
code are known and everything that the code refers to further out is in sight.  What is
ready stays so, the activation of a function is ready for its body, and the environment
of a block for the block.
-/
import ClosureCache.Proofs.Evaluation.Safety

namespace ClosureCache

open Heap

/-- An environment stands ready for code with the given definitions and references. -/
structure Heap.Ready (image : Image) (h : Heap) (env : ObjectId) (bound : ScopeId → Prop)
    (functions : List FunctionNode) (references : List Reference) : Prop where
  environment : ∃ e, h.environment env = .ok e ∧ bound e.scope ∧
    h.SeesAll image env e.scope references
  known : ∀ f ∈ functions, image.Knows f

def Expression.Ready (image : Image) (h : Heap) (env : ObjectId) (e : Expression) : Prop :=
  h.Ready image env (fun s => e.Bound image.tree s) e.functions e.references

def Statement.Ready (image : Image) (h : Heap) (env : ObjectId) (s : Statement) : Prop :=
  h.Ready image env (fun a => s.Bound image.tree a) s.functions s.references

/-- An environment stands ready for a block that is to be run in an environment of its
own. -/
def Block.Ready (image : Image) (h : Heap) (env : ObjectId) (b : Block) : Prop :=
  h.Ready image env (fun s => b.Bound image.tree s) b.functions b.references

def ReadyStatements (image : Image) (h : Heap) (env : ObjectId) (l : List Statement) : Prop :=
  h.Ready image env (fun s => BoundStatements image.tree s l) (functionsInStatements l)
    (referencesInStatements l)

section Ready

variable {image : Image} {h h' : Heap} {env : ObjectId} {bound bound' : ScopeId → Prop}
  {functions functions' : List FunctionNode} {references references' : List Reference}

theorem Heap.Ready.imp (hr : h.Ready image env bound functions references)
    (hbound : ∀ s, bound s → bound' s) (hfunctions : ∀ f ∈ functions', f ∈ functions)
    (hreferences : ∀ r ∈ references', r ∈ references) :
    h.Ready image env bound' functions' references' := by
  obtain ⟨e, he, hb, hs⟩ := hr.environment
  exact ⟨⟨e, he, hbound _ hb, fun r hmem => hs r (hreferences r hmem)⟩,
    fun f hf => hr.known f (hfunctions f hf)⟩

theorem Heap.Ready.left (hr : h.Ready image env (fun s => bound s ∧ bound' s)
    (functions ++ functions') (references ++ references')) :
    h.Ready image env bound functions references :=
  hr.imp (fun _ hb => hb.1) (fun _ hf => List.mem_append_left _ hf)
    fun _ hmem => List.mem_append_left _ hmem

theorem Heap.Ready.right (hr : h.Ready image env (fun s => bound s ∧ bound' s)
    (functions ++ functions') (references ++ references')) :
    h.Ready image env bound' functions' references' :=
  hr.imp (fun _ hb => hb.2) (fun _ hf => List.mem_append_right _ hf)
    fun _ hmem => List.mem_append_right _ hmem

theorem Heap.Ready.continues (hr : h.Ready image env bound functions references)
    (hc : Continues h h') : h'.Ready image env bound functions references := by
  obtain ⟨e, he, hb, hs⟩ := hr.environment
  obtain ⟨e', he', hscope, -⟩ := hc.persists.environment env e trivial he
  refine ⟨⟨e', he', hscope ▸ hb, ?_⟩, hr.known⟩
  rw [hscope]
  exact hs.persists hc.persists (closed_true h) trivial

end Ready

section Typed

variable {image : Image} {h : Heap} {env : ObjectId}

/-- A reference that stands in a scope is to a binding, or to the `this` of a scope that
supplies one. -/
theorem Reference.Within.foundAt {s a : ScopeId} {r : Reference} (hr : r.Within image.tree s)
    (ha : r.home? image.tree = some a) {x : ObjectId} {e : Environment}
    (he : h.environment x = .ok e) (hthis : ∀ sc, image.tree.scope? a = some sc →
      sc.providesThis = true → e.this.isSome = true) : h.FoundAt image (.environment x) r := by
  obtain ⟨b, sc, -, -, hv⟩ := hr
  cases r with
  | binding => exact .binding
  | this p =>
    obtain rfl := Option.some.inj ha
    obtain ⟨sc', hsc', hprovides⟩ := ScopeTree.Nearest.passes hv
    exact .this he (hthis sc' hsc' hprovides)
  | dynamic => cases ha

/-- From an environment everything is seen that belongs to its own scope. -/
theorem Heap.Typed.sees_own (ht : h.Typed image) {e : Environment}
    (he : h.environment env = .ok e) {r : Reference} (hr : r.Within image.tree e.scope)
    (hhome : r.home? image.tree = some e.scope) : h.Sees image env r := by
  intro a ha
  rw [hhome] at ha
  obtain rfl := Option.some.inj ha
  obtain ⟨sc, hsc, -, hthis, -⟩ := ((ht.environment he).environment e rfl).scope
  refine ⟨_, .here he rfl, hr.foundAt hhome he fun sc' hsc' hprovides => ?_⟩
  rw [hsc] at hsc'
  obtain rfl := Option.some.inj hsc'
  exact hthis hprovides

/-- What is seen from the environment around another one is seen from within. -/
theorem Heap.Sees.inside {inner : ObjectId} {e : Environment} {r : Reference}
    (hs : h.Sees image env r) (he : h.environment inner = .ok e)
    (houter : e.outer = .environment env) (hhome : r.home? image.tree ≠ some e.scope) :
    h.Sees image inner r := by
  intro a ha
  obtain ⟨stop, hl, ho⟩ := hs a ha
  refine ⟨stop, .outward he ?_ houter hl, ho⟩
  rintro rfl
  exact hhome ha

/-- What the captures of a function hold is seen from its activations. -/
theorem FunctionObject.Holds.sees {inner g : ObjectId} {f : FunctionObject} {e : Environment}
    {r : Reference} (hh : f.Holds image r) (hg : h.function g = .ok f)
    (he : h.environment inner = .ok e) (houter : e.outer = .captures g)
    (hhome : r.home? image.tree ≠ some e.scope) : h.Sees image inner r := by
  intro a ha
  refine ⟨.captures g, .captures he ?_ houter, .captures hg hh⟩
  rintro rfl
  exact hhome ha

/-- An environment is ready for code in its scope when from it everything is seen that
the code refers to outside of the scope. -/
theorem Heap.Typed.readyStatements (ht : h.Typed image) (hi : image.Sound) {e : Environment}
    (he : h.environment env = .ok e) {l : List Statement}
    (hbound : BoundStatements image.tree e.scope l)
    (hknown : ∀ f ∈ functionsInStatements l, image.Knows f)
    (hs : ∀ r ∈ referencesInStatements l, ∀ a, r.home? image.tree = some a → a ≠ e.scope →
      a ∈ image.tree.outward e.scope → h.Sees image env r) :
    ReadyStatements image h env l := by
  obtain ⟨sc, hsc, -⟩ := ((ht.environment he).environment e rfl).scope
  refine ⟨⟨e, he, hbound, fun r hr a ha hin => ?_⟩, hknown⟩
  by_cases hown : a = e.scope
  · exact ht.sees_own he (within_statements hi.proper hsc l hbound r hr) (hown ▸ ha)
  · exact hs r hr a ha hown hin

/-- The global environment is ready for the program. -/
theorem Heap.Typed.readyProgram (ht : h.Typed image) (hi : image.Sound) {e : Environment}
    (he : h.environment env = .ok e) (hscope : e.scope = ScopeTree.global) :
    ReadyStatements image h env image.program.body := by
  refine ht.readyStatements hi he (hscope ▸ hi.body) hi.known fun r _ a _ hne hin => ?_
  -- nothing lies around the global scope
  obtain ⟨sc, hsc⟩ := hi.opened
  rw [hscope] at hin hne
  have hle := hi.proper.index_le_of_mem hsc hin
  refine absurd ?_ hne
  cases a
  exact congrArg _ (Nat.le_zero.1 hle)

/-- An activation of a function is ready for the body of its definition. -/
theorem FunctionObject.Fits.readyBody {f : FunctionObject} (hf : f.Fits image h)
    (ht : h.Typed image) (hi : image.Sound) {node : FunctionNode}
    (hnode : image.functions.get? f.site = some node) {g : ObjectId} (hg : h.function g = .ok f)
    {own : ScopeId} (hown : node.scope = some own) {e : Environment}
    (he : h.environment env = .ok e) (hscope : e.scope = own)
    (houter : e.outer = match f.closure with
      | .chain around => .environment around
      | .captured .. => .captures g) : ReadyStatements image h env node.body := by
  obtain ⟨-, -, hknown⟩ := hi.bound _ node hnode
  subst hscope
  cases hf with
  | @chain node' own' around e' hdef hclosure he' hs =>
    obtain rfl := Option.some.inj (hnode.symm.trans hdef.found)
    obtain rfl := Option.some.inj (hown.symm.trans hdef.placed.scope)
    obtain ⟨sc, hsc, -, hparent, -⟩ := hdef.placed.opened
    rw [hclosure] at houter
    refine ht.readyStatements hi he hdef.body hknown fun r hr a ha hne hin => ?_
    rcases (hi.proper.mem_outward hsc).1 hin with rfl | ⟨p, hp, hin⟩
    · exact absurd rfl hne
    · rw [hparent] at hp
      obtain rfl := Option.some.inj hp
      rw [← FunctionNode.references_eq] at hr
      refine (hs r hr a ha hin).inside he houter fun hhome => hne ?_
      exact Option.some.inj (ha.symm.trans hhome)
  | @captured node' s own' bindings this hdef hclosure _ hholds =>
    obtain rfl := Option.some.inj (hnode.symm.trans hdef.found)
    obtain rfl := Option.some.inj (hown.symm.trans hdef.placed.scope)
    obtain ⟨sc, hsc, -⟩ := hdef.placed.opened
    rw [hclosure] at houter
    refine ht.readyStatements hi he hdef.body hknown fun r hr a ha hne hin => ?_
    rw [← FunctionNode.references_eq] at hr
    have hout : e.scope ∉ image.tree.outward a := fun hback => by
      have hfalse := hi.proper.not_isWithin hsc hin hne
      rw [ScopeTree.isWithin_iff.2 hback] at hfalse
      cases hfalse
    refine (hholds r hr a ha hout).sees hg he houter fun hhome => hne ?_
    exact Option.some.inj (ha.symm.trans hhome)

/-- An environment of a block is ready for it when the one around it is. -/
theorem Heap.Typed.readyBlock (ht : h.Typed image) (hi : image.Sound) {body : List Statement}
    {own : ScopeId} (hr : Block.Ready image h env ⟨body, some own⟩) {inner : ObjectId}
    (hinner : ∃ e, h.environment inner = .ok e ∧ e.scope = own ∧ e.outer = .environment env ∧
      e.this = none) : ReadyStatements image h inner body := by
  obtain ⟨e, he, ⟨own', sc, hown, hsc, -, hparent, hbody⟩, hs⟩ := hr.environment
  obtain ⟨e', he', rfl, houter, -⟩ := hinner
  obtain rfl := Option.some.inj hown
  refine ht.readyStatements hi he' hbody hr.known fun r hr a ha hne hin => ?_
  rcases (hi.proper.mem_outward hsc).1 hin with rfl | ⟨p, hp, hin⟩
  · exact absurd rfl hne
  · rw [hparent] at hp
    obtain rfl := Option.some.inj hp
    refine (hs r hr a ha hin).inside he' houter fun hhome => hne ?_
    exact Option.some.inj (ha.symm.trans hhome)

/-- The home of a `var` declaration has an environment around every environment in which
the declaration stands. -/
theorem Heap.Typed.walkEnds_of_nearest (ht : h.Typed image) {s a : ScopeId}
    (hn : image.tree.Nearest Scope.isVarScope s a) {e : Environment}
    (he : h.environment env = .ok e) (hscope : e.scope = s) :
    ∃ x, h.WalkEnds a env (.environment x) := by
  induction hn generalizing env e with
  | here => exact ⟨env, .here he hscope⟩
  | @outward s p a sc hsc htest hp hn ih =>
    obtain ⟨sc', hsc', -, -, hblock⟩ := ((ht.environment he).environment e rfl).scope
    rw [hscope, hsc] at hsc'
    obtain rfl := Option.some.inj hsc'
    -- only a block takes no `var`, and a block has an environment around it
    have hkind : sc.kind = .block := by
      rw [Scope.isVarScope.eq_def] at htest
      revert htest
      cases sc.kind <;> intro htest <;> first | rfl | cases htest
    obtain ⟨y, e', houter, hy, hparent⟩ := hblock hkind
    rw [hp] at hparent
    obtain ⟨x, hl⟩ := ih hy (Option.some.inj hparent).symm
    refine ⟨x, .outward he ?_ houter hl⟩
    rintro rfl
    obtain ⟨sc', hsc', hpass⟩ := hn.passes
    rw [hscope, hsc] at hsc'
    rw [← Option.some.inj hsc', htest] at hpass
    cases hpass

/-- A declared name has its slot in an environment further out. -/
theorem Heap.Typed.walkEnds_home (ht : h.Typed image) {kind : DeclarationKind} {e : Environment}
    (he : h.environment env = .ok e) {a : ScopeId} (hhome : kind.Home image.tree e.scope a) :
    ∃ x, h.WalkEnds a env (.environment x) := by
  cases kind with
  | var => exact ht.walkEnds_of_nearest hhome he rfl
  | _ => exact ⟨env, .here he (Eq.symm hhome)⟩

end Typed

end ClosureCache
