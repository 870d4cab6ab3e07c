/-
Scope trees built in place.

Every operation on an arena does to the tree in it what the function on trees does, and
one that fails changes nothing.  What carries the proof is `Sound`: the scopes nest, and
the index of a scope holds the bindings of that scope by name.  A declaration consults the
index alone, so the index and the list of a scope never part, and a scope finds by name
what it lists.
-/
import ClosureCache.Scope.Arena
import ClosureCache.Proofs.Scope.Extension
import ClosureCache.Proofs.SortedMap

namespace ClosureCache

/-! ## Well-formed trees -/

namespace ScopeTree

variable {t : ScopeTree} {s : ScopeId} {name : String} {b : BindingId}

def Lists (t : ScopeTree) (s : ScopeId) (name : String) (b : BindingId) : Prop :=
  ∃ sc d, t.scope? s = some sc ∧ b ∈ sc.bindings ∧ t.binding? b = some d ∧ d.name = name

/-- The scopes of a tree nest, and each finds by name the bindings that it lists. -/
structure WellFormed (t : ScopeTree) : Prop extends Proper t where
  root : ∃ sc, t.scope? global = some sc ∧ sc.parent = none
  nested : ∀ s sc, t.scope? s = some sc → s ≠ global → ∃ p outer, sc.parent = some p ∧
    p.index < s.index ∧ t.scope? p = some outer ∧ sc.depth = outer.depth + 1
  distinct : ∀ s name b c, t.Lists s name b → t.Lists s name c → b = c
  lookup : ∀ s name b, t.lookupLocal s name = some b ↔ t.Lists s name b

/-- A scope lists the bindings that it declares. -/
theorem Proper.lists_iff (ht : t.Proper) :
    t.Lists s name b ↔ ∃ d, t.binding? b = some d ∧ d.scope = s ∧ d.name = name := by
  constructor
  · rintro ⟨sc, d, hs, hmem, hd, hname⟩
    obtain ⟨i, hi⟩ := Array.mem_iff_getElem?.1 hmem
    obtain ⟨d', hd', hscope, -⟩ := ht.listed s sc i b hs hi
    obtain rfl := Option.some.inj (hd.symm.trans hd')
    exact ⟨d, hd, hscope, hname⟩
  · rintro ⟨d, hd, rfl, hname⟩
    obtain ⟨-, sc, hs, hi⟩ := ht.placed b d hd
    exact ⟨sc, d, hs, Array.mem_iff_getElem?.2 ⟨d.slot, hi⟩, hd, hname⟩

end ScopeTree

/-! ## Running steps -/

namespace ArenaM

variable {α β : Type} {x : ArenaM α} {f : α → ArenaM β} {a a' : ScopeArena} {r : α}
  {e : ScopeError}

/-- A step after another one runs where the first one left the arena. -/
theorem bind_of_ok (hx : x a = (.ok r, a')) : (x >>= f) a = f r a' := by
  show ExceptT.bindCont f (x a).1 (x a).2 = f r a'
  rw [hx]
  rfl

theorem bind_of_error (hx : x a = (.error e, a')) : (x >>= f) a = (.error e, a') := by
  show ExceptT.bindCont f (x a).1 (x a).2 = (.error e, a')
  rw [hx]
  rfl

theorem map_of_ok {g : α → β} (hx : x a = (.ok r, a')) : (g <$> x) a = (.ok (g r), a') := by
  rw [map_eq_pure_bind, bind_of_ok hx]
  rfl

theorem map_of_error {g : α → β} (hx : x a = (.error e, a')) :
    (g <$> x) a = (.error e, a') := by
  rw [map_eq_pure_bind, bind_of_error hx]

end ArenaM

namespace ScopeArena

variable {a a' : ScopeArena} {s p : ScopeId} {b : BindingId} {sc : IndexedScope} {d : Binding}
  {name : String}

theorem scope_of_some (hs : a.scope? s = some sc) : scope s a = (.ok sc, a) := by
  refine (ArenaM.bind_of_ok (r := a) rfl).trans ?_
  rw [hs]
  rfl

theorem scope_of_none (hs : a.scope? s = none) :
    scope s a = (.error (.unknownScope s), a) := by
  refine (ArenaM.bind_of_ok (r := a) rfl).trans ?_
  rw [hs]
  rfl

theorem binding_of_some (hb : a.binding? b = some d) : binding b a = (.ok d, a) := by
  refine (ArenaM.bind_of_ok (r := a) rfl).trans ?_
  rw [hb]
  rfl

theorem binding_of_none (hb : a.binding? b = none) :
    binding b a = (.error (.unknownBinding b), a) := by
  refine (ArenaM.bind_of_ok (r := a) rfl).trans ?_
  rw [hb]
  rfl

/-! ## The tree in an arena -/

@[simp] theorem tree_initial : initial.tree = ScopeTree.initial := by
  simp [tree, initial, ScopeTree.initial]

theorem scope?_tree (a : ScopeArena) (s : ScopeId) :
    a.tree.scope? s = (a.scope? s).map IndexedScope.toScope :=
  Array.getElem?_map

theorem scope?_tree_of_some (hs : a.scope? s = some sc) : a.tree.scope? s = some sc.toScope := by
  rw [scope?_tree, hs, Option.map_some]

@[simp] theorem binding?_tree (a : ScopeArena) (b : BindingId) :
    a.tree.binding? b = a.binding? b := rfl

theorem scope?_modifyScope (a : ScopeArena) (s : ScopeId) (f : IndexedScope → IndexedScope)
    (c : ScopeId) :
    (a.modifyScope s f).scope? c = if c = s then (a.scope? c).map f else a.scope? c := by
  rw [scope?, modifyScope, Array.getElem?_modify, scope?]
  by_cases hc : s.index = c.index
  · rw [if_pos hc, if_pos (by cases c; cases s; exact congrArg _ hc.symm)]
  · rw [if_neg hc, if_neg fun e => hc (by rw [e])]

theorem tree_modifyScope {f : IndexedScope → IndexedScope} {g : Scope → Scope}
    (hf : ∀ sc, (f sc).toScope = g sc.toScope) (a : ScopeArena) (s : ScopeId) :
    (a.modifyScope s f).tree = a.tree.modifyScope s g := by
  rw [tree, modifyScope, ScopeTree.modifyScope, tree]
  congr 1
  apply Array.ext_getElem?
  intro i
  simp only [Array.getElem?_map, Array.getElem?_modify]
  split
  · cases a.scopes[i]? with
    | none => rfl
    | some sc => exact congrArg some (hf sc)
  · rfl

theorem tree_modifyScope_self {f : IndexedScope → IndexedScope}
    (hf : ∀ sc, (f sc).toScope = sc.toScope) (a : ScopeArena) (s : ScopeId) :
    (a.modifyScope s f).tree = a.tree := by
  rw [tree_modifyScope (g := id) hf, ScopeTree.modifyScope]
  congr 1
  apply Array.ext_getElem?
  intro i
  rw [Array.getElem?_modify, Option.map_id]
  split <;> rfl

theorem scope?_push (a : ScopeArena) (sc : IndexedScope) (c : ScopeId) :
    ({ a with scopes := a.scopes.push sc } : ScopeArena).scope? c =
      if c = ⟨a.scopes.size⟩ then some sc else a.scope? c := by
  rw [scope?, Array.getElem?_push, scope?]
  by_cases hc : c.index = a.scopes.size
  · rw [if_pos hc, if_pos (by cases c; exact congrArg _ hc)]
  · rw [if_neg hc, if_neg fun e => hc (by rw [e])]

theorem binding?_push (a : ScopeArena) (d : Binding) (c : BindingId) :
    ({ a with bindings := a.bindings.push d } : ScopeArena).binding? c =
      if c = ⟨a.bindings.size⟩ then some d else a.binding? c := by
  rw [binding?, Array.getElem?_push, binding?]
  by_cases hc : c.index = a.bindings.size
  · rw [if_pos hc, if_pos (by cases c; exact congrArg _ hc)]
  · rw [if_neg hc, if_neg fun e => hc (by rw [e])]

theorem lt_of_scope? (hs : a.scope? s = some sc) : s.index < a.scopes.size := by
  rcases Nat.lt_or_ge s.index a.scopes.size with hlt | hge
  · exact hlt
  · rw [scope?, Array.getElem?_eq_none hge] at hs
    cases hs

/-! ## Sound arenas -/

/-- The scopes nest, and every index holds the bindings of its scope by name. -/
structure Sound (a : ScopeArena) : Prop where
  proper : a.tree.Proper
  root : ∃ sc, a.scope? ScopeTree.global = some sc
  outermost : ∀ s sc, a.scope? s = some sc → sc.parent = none → s = ScopeTree.global
  depth : ∀ s sc p outer, a.scope? s = some sc → sc.parent = some p → a.scope? p = some outer →
    sc.depth = outer.depth + 1
  indexed : ∀ s sc name b, a.scope? s = some sc →
    (sc.names.get? name = some b ↔ ∃ d, a.binding? b = some d ∧ d.scope = s ∧ d.name = name)

/-- A scope of the tree is a scope of the arena. -/
theorem exists_of_scope?_tree {outer : Scope} (hs : a.tree.scope? s = some outer) :
    ∃ sc, a.scope? s = some sc ∧ sc.toScope = outer := by
  rw [scope?_tree] at hs
  exact Option.map_eq_some_iff.1 hs

/-- The index gives what a search of the list gives. -/
theorem Sound.lookupLocal_eq (ha : a.Sound) (s : ScopeId) (name : String) :
    a.lookupLocal s name = a.tree.lookupLocal s name := by
  rw [lookupLocal]
  cases hs : a.scope? s with
  | none =>
    rw [ScopeTree.lookupLocal, scope?_tree, hs]
    rfl
  | some sc =>
    have hfound : ∀ b, a.tree.lookupLocal s name = some b → sc.names.get? name = some b := by
      intro b hb
      obtain ⟨d, hd, hscope⟩ := ha.proper.lookupLocal_spec hb
      exact (ha.indexed s sc name b hs).2 ⟨d, hd, hscope, ScopeTree.name_of_lookupLocal hb hd⟩
    rw [Option.bind_some]
    cases hlookup : a.tree.lookupLocal s name with
    | some b => exact hfound b hlookup
    | none =>
      cases hget : sc.names.get? name with
      | none => rfl
      | some b =>
        -- what the index holds is listed, so the search cannot miss it
        obtain ⟨d, hd, hscope, hname⟩ := (ha.indexed s sc name b hs).1 hget
        obtain ⟨-, sc', hs', hi⟩ := ha.proper.placed b d hd
        rw [hscope, scope?_tree, hs, Option.map_some] at hs'
        obtain rfl := Option.some.inj hs'
        rw [ScopeTree.lookupLocal, scope?_tree, hs, Option.map_some] at hlookup
        have hmiss := Array.find?_eq_none.1 hlookup b (Array.mem_of_getElem? hi)
        rw [binding?_tree, hd, Option.any_some, hname, beq_self_eq_true] at hmiss
        exact absurd rfl hmiss

/-- The tree in a sound arena is well formed. -/
theorem Sound.wellFormed (ha : a.Sound) : a.tree.WellFormed := by
  have hlookup : ∀ s name b, a.tree.lookupLocal s name = some b ↔ a.tree.Lists s name b := by
    intro s name b
    rw [ha.proper.lists_iff]
    constructor
    · intro hb
      obtain ⟨d, hd, hscope⟩ := ha.proper.lookupLocal_spec hb
      exact ⟨d, hd, hscope, ScopeTree.name_of_lookupLocal hb hd⟩
    · rintro ⟨d, hd, hscope, hname⟩
      obtain ⟨-, outer, hs, -⟩ := ha.proper.placed b d hd
      rw [hscope] at hs
      obtain ⟨sc, hs, -⟩ := exists_of_scope?_tree hs
      rw [← ha.lookupLocal_eq, lookupLocal, hs]
      exact (ha.indexed s sc name b hs).2 ⟨d, hd, hscope, hname⟩
  refine ⟨ha.proper, ?_, fun s outer hs hne => ?_, fun s name b c hb hc => ?_, hlookup⟩
  · obtain ⟨sc, hs⟩ := ha.root
    have hs' := scope?_tree_of_some hs
    refine ⟨sc.toScope, hs', ?_⟩
    cases hp : sc.parent with
    | none => rfl
    | some p => exact absurd (ha.proper.parent_lt _ _ p hs' hp) (Nat.not_lt_zero _)
  · obtain ⟨sc, hsc, rfl⟩ := exists_of_scope?_tree hs
    cases hp : sc.parent with
    | none => exact absurd (ha.outermost s sc hsc hp) hne
    | some p =>
      obtain ⟨outer, houter⟩ := ha.proper.exists_parent hs hp
      obtain ⟨around, haround, rfl⟩ := exists_of_scope?_tree houter
      exact ⟨p, _, rfl, ha.proper.parent_lt s _ p hs hp, houter,
        ha.depth s sc p around hsc hp haround⟩
  · rw [← hlookup] at hb hc
    exact Option.some.inj (hb.symm.trans hc)

theorem sound_initial : initial.Sound := by
  have hscope : ∀ s sc, initial.scope? s = some sc → s = ScopeTree.global ∧
      sc.parent = none ∧ sc.names = ∅ := by
    intro s sc hs
    obtain ⟨n⟩ := s
    cases n with
    | zero =>
      obtain rfl := Option.some.inj hs
      exact ⟨rfl, rfl, rfl⟩
    | succ n => cases hs
  refine ⟨tree_initial ▸ ScopeTree.proper_initial, ⟨_, rfl⟩, fun s sc hs _ => (hscope s sc hs).1,
    fun s sc p outer hs hp _ => ?_, fun s sc name b hs => ?_⟩
  · rw [(hscope s sc hs).2.1] at hp
    cases hp
  · rw [(hscope s sc hs).2.2]
    constructor
    · intro hb
      cases hb
    · rintro ⟨d, hd, -⟩
      cases hd

/-- A change in place that leaves the indexes and their names alone. -/
theorem Sound.congr (ha : a.Sound) (hproper : a'.tree.Proper)
    (hscope : ∀ s, ∃ f : IndexedScope → IndexedScope, a'.scope? s = (a.scope? s).map f ∧
      ∀ sc, (f sc).parent = sc.parent ∧ (f sc).depth = sc.depth ∧ (f sc).names = sc.names)
    (hbinding : ∀ b, ∃ g : Binding → Binding, a'.binding? b = (a.binding? b).map g ∧
      ∀ d, (g d).scope = d.scope ∧ (g d).name = d.name) : a'.Sound := by
  have hold : ∀ s sc', a'.scope? s = some sc' → ∃ sc, a.scope? s = some sc ∧
      sc'.parent = sc.parent ∧ sc'.depth = sc.depth ∧ sc'.names = sc.names := by
    intro s sc' hs
    obtain ⟨f, hf, hkeep⟩ := hscope s
    rw [hf] at hs
    obtain ⟨sc, hsc, rfl⟩ := Option.map_eq_some_iff.1 hs
    exact ⟨sc, hsc, hkeep sc⟩
  refine ⟨hproper, ?_, fun s sc' hs hp => ?_, fun s sc' p outer' hs hp houter => ?_,
    fun s sc' name b hs => ?_⟩
  · obtain ⟨sc, hs⟩ := ha.root
    obtain ⟨f, hf, -⟩ := hscope ScopeTree.global
    exact ⟨f sc, by rw [hf, hs, Option.map_some]⟩
  · obtain ⟨sc, hs, hparent, -⟩ := hold s sc' hs
    exact ha.outermost s sc hs (hparent ▸ hp)
  · obtain ⟨sc, hs, hparent, hdepth, -⟩ := hold s sc' hs
    obtain ⟨outer, houter, -, hdepth', -⟩ := hold p outer' houter
    rw [hdepth, hdepth', ha.depth s sc p outer hs (hparent ▸ hp) houter]
  · obtain ⟨sc, hs, -, -, hnames⟩ := hold s sc' hs
    obtain ⟨g, hg, hkeep⟩ := hbinding b
    rw [hnames, ha.indexed s sc name b hs, hg]
    cases a.binding? b with
    | none => simp
    | some d => simp [hkeep d]

/-! ## Operations -/

/-- An operation does on a sound arena what it does on the tree: it succeeds and leaves a
sound arena with the tree that it makes, or is refused and changes nothing. -/
inductive Operation.Follows (o : Operation) (a : ScopeArena) : Prop
  | done {r : Answer} {a' : ScopeArena} : o.run a = (.ok r, a') →
    o.apply a.tree = .ok (r, a'.tree) → a'.Sound → Follows o a
  | refused {e : ScopeError} : o.run a = (.error e, a) → o.apply a.tree = .error e → Follows o a

/-- A scope with no names is opened in a scope of the arena. -/
theorem Sound.pushScope (ha : a.Sound) {p : ScopeId} {outer opened : IndexedScope}
    (houter : a.scope? p = some outer) (hparent : opened.parent = some p)
    (hdepth : opened.depth = outer.depth + 1) (hnames : opened.names = ∅)
    (hproper : ({ a with scopes := a.scopes.push opened } : ScopeArena).tree.Proper) :
    ({ a with scopes := a.scopes.push opened } : ScopeArena).Sound := by
  have hold : ∀ s sc, a.scope? s = some sc →
      ({ a with scopes := a.scopes.push opened } : ScopeArena).scope? s = some sc := by
    intro s sc hs
    rw [scope?_push, if_neg, hs]
    rintro rfl
    exact Nat.lt_irrefl _ (lt_of_scope? hs)
  refine ⟨hproper, ?_, fun s sc hs hp => ?_, fun s sc q around hs hq haround => ?_,
    fun s sc name b hs => ?_⟩
  · obtain ⟨sc, hs⟩ := ha.root
    exact ⟨sc, hold _ _ hs⟩
  · rw [scope?_push] at hs
    split at hs
    · rw [← Option.some.inj hs, hparent] at hp
      cases hp
    · exact ha.outermost s sc hs hp
  · rw [scope?_push] at hs
    split at hs
    · obtain rfl := Option.some.inj hs
      rw [hparent] at hq
      obtain rfl := Option.some.inj hq
      obtain rfl := Option.some.inj ((hold _ _ houter).symm.trans haround)
      exact hdepth
    · obtain ⟨around', haround'⟩ := ha.proper.exists_parent (scope?_tree_of_some hs) hq
      obtain ⟨outer', houter', -⟩ := exists_of_scope?_tree haround'
      obtain rfl := Option.some.inj ((hold _ _ houter').symm.trans haround)
      exact ha.depth s sc q _ hs hq houter'
  · rw [scope?_push] at hs
    split at hs
    · next hnew =>
      rw [← Option.some.inj hs, hnames]
      constructor
      · intro hb
        cases hb
      · rintro ⟨d, hd, hscope, -⟩
        -- no binding is declared in a scope that was not there
        obtain ⟨-, sc', hs', -⟩ := ha.proper.placed b d hd
        have hlt := ScopeTree.lt_of_scope? hs'
        rw [hscope, hnew, tree, Array.size_map] at hlt
        exact absurd hlt (Nat.lt_irrefl _)
    · exact ha.indexed s sc name b hs

theorem Sound.addScope (ha : a.Sound) (p : ScopeId) (kind : ScopeKind) (arrow : Bool)
    (owner : Option SiteId) : (Operation.addScope p kind arrow owner).Follows a := by
  cases houter : a.scope? p with
  | none =>
    refine .refused (ArenaM.map_of_error (ArenaM.bind_of_error (scope_of_none houter))) ?_
    rw [Operation.apply, ScopeTree.addScope, scope?_tree, houter]
    rfl
  | some outer =>
    generalize hopened : (⟨Scope.fresh ⟨a.scopes.size⟩ kind (some p) (outer.depth + 1) arrow owner,
      ∅⟩ : IndexedScope) = opened
    have hrun : ScopeArena.addScope p kind arrow owner a =
        (.ok ⟨a.scopes.size⟩, { a with scopes := a.scopes.push opened }) := by
      rw [← hopened]
      exact ArenaM.bind_of_ok (scope_of_some houter)
    have htree : a.tree.addScope p kind arrow owner =
        .ok (⟨a.scopes.size⟩, ({ a with scopes := a.scopes.push opened } : ScopeArena).tree) := by
      rw [ScopeTree.addScope, scope?_tree, houter, ← hopened]
      simp [tree]
    have hfields : opened.parent = some p ∧ opened.depth = outer.depth + 1 ∧
        opened.names = ∅ := by
      rw [← hopened]
      exact ⟨rfl, rfl, rfl⟩
    exact .done (ArenaM.map_of_ok hrun) (by rw [Operation.apply, htree]; rfl)
      (ha.pushScope houter hfields.1 hfields.2.1 hfields.2.2 (ha.proper.addScope htree))

theorem Sound.recordSite (ha : a.Sound) (s : ScopeId) (site : SiteId) :
    (Operation.recordSite s site).Follows a := by
  cases hs : a.scope? s with
  | none =>
    refine .refused (ArenaM.map_of_error (ArenaM.bind_of_error (scope_of_none hs))) ?_
    rw [Operation.apply, ScopeTree.recordSite, scope?_tree, hs]
    rfl
  | some sc =>
    generalize hf : (fun scope : IndexedScope => { scope with
      sites := scope.sites.push site }) = f
    have hkeep : ∀ sc, (f sc).parent = sc.parent ∧ (f sc).depth = sc.depth ∧
        (f sc).names = sc.names := by
      intro sc
      rw [← hf]
      exact ⟨rfl, rfl, rfl⟩
    have hrun : ScopeArena.recordSite s site a = (.ok (), a.modifyScope s f) := by
      rw [← hf]
      exact ArenaM.bind_of_ok (scope_of_some hs)
    have htree : a.tree.recordSite s site = .ok (a.modifyScope s f).tree := by
      rw [ScopeTree.recordSite, scope?_tree, hs, tree_modifyScope (g := fun scope => { scope with
        sites := scope.sites.push site }) fun sc => by rw [← hf]]
      rfl
    refine .done (ArenaM.map_of_ok hrun) (by rw [Operation.apply, htree]; rfl)
      (ha.congr (ScopeTree.recordSite_spec ha.proper htree).1 (fun c => ?_) fun b => ?_)
    · refine ⟨if c = s then f else id, ?_, fun sc => ?_⟩
      · rw [scope?_modifyScope]
        split
        · rfl
        · rw [Option.map_id]
          rfl
      · split
        · exact hkeep sc
        · exact ⟨rfl, rfl, rfl⟩
    · exact ⟨id, by rw [Option.map_id]; rfl, fun _ => ⟨rfl, rfl⟩⟩

/-- A change of bindings that leaves their scopes and names alone. -/
theorem Sound.mapBindings (ha : a.Sound) {bindings : Array Binding}
    (hproper : ({ a with bindings } : ScopeArena).tree.Proper)
    (hbinding : ∀ b, ∃ g : Binding → Binding,
      ({ a with bindings } : ScopeArena).binding? b = (a.binding? b).map g ∧
        ∀ d, (g d).scope = d.scope ∧ (g d).name = d.name) :
    ({ a with bindings } : ScopeArena).Sound :=
  ha.congr hproper (fun _ => ⟨id, by rw [Option.map_id]; rfl, fun _ => ⟨rfl, rfl, rfl⟩⟩) hbinding

theorem Sound.modifyBinding (ha : a.Sound) {g : Binding → Binding}
    (hproper : (a.modifyBinding b g).tree.Proper)
    (hg : ∀ d, (g d).scope = d.scope ∧ (g d).name = d.name) : (a.modifyBinding b g).Sound := by
  refine ha.mapBindings hproper fun c => ⟨if c = b then g else id, ?_, fun d => ?_⟩
  · refine (ScopeTree.binding?_modifyBinding a.tree b g c).trans ?_
    split
    · rfl
    · rw [Option.map_id]
      rfl
  · split
    · exact hg d
    · exact ⟨rfl, rfl⟩

theorem Sound.recordAssignment (ha : a.Sound) (b : BindingId) :
    (Operation.recordAssignment b).Follows a := by
  cases hb : a.binding? b with
  | none =>
    refine .refused (ArenaM.map_of_error (ArenaM.bind_of_error (binding_of_none hb))) ?_
    rw [Operation.apply, ScopeTree.recordAssignment, binding?_tree, hb]
    rfl
  | some d =>
    have htree : a.tree.recordAssignment b = .ok (a.modifyBinding b fun binding => { binding with
        assignments := binding.assignments + 1 }).tree := by
      rw [ScopeTree.recordAssignment, binding?_tree, hb]
      rfl
    exact .done (ArenaM.map_of_ok (ArenaM.bind_of_ok (binding_of_some hb)))
      (by rw [Operation.apply, htree]; rfl)
      (ha.modifyBinding (ScopeTree.recordAssignment_spec ha.proper htree).1 fun _ => ⟨rfl, rfl⟩)

theorem Sound.finalizeMutability (ha : a.Sound) : Operation.finalizeMutability.Follows a := by
  refine .done (ArenaM.map_of_ok (r := ()) rfl) rfl (ha.mapBindings
    ((ScopeTree.recasts_finalizeMutability a.tree).proper ha.proper) fun b => ?_)
  exact ⟨ScopeTree.settle, Array.getElem?_map, fun _ => ⟨rfl, rfl⟩⟩

/-- The arena with a binding added to its scope, in the list and in the index. -/
def extended (a : ScopeArena) (d : Binding) : ScopeArena :=
  { (a.modifyScope d.scope fun scope => scope.list d.id).modifyScope d.scope
      fun scope => scope.enter d.name d.id with
    bindings := a.bindings.push d }

theorem tree_extended (a : ScopeArena) (d : Binding) :
    (a.extended d).tree =
      { (a.tree.modifyScope d.scope fun scope => { scope with
          bindings := scope.bindings.push d.id }) with
        bindings := a.bindings.push d } := by
  have hindex := tree_modifyScope_self (f := fun scope => scope.enter d.name d.id) (fun _ => rfl)
    (a.modifyScope d.scope fun scope => scope.list d.id) d.scope
  have hlist := tree_modifyScope (f := fun scope => scope.list d.id)
    (g := fun scope => { scope with
      bindings := scope.bindings.push d.id }) (fun _ => rfl) a d.scope
  rw [← hlist, ← hindex]
  rfl

theorem scope?_extended (a : ScopeArena) (d : Binding) (c : ScopeId) :
    (a.extended d).scope? c = if c = d.scope then
      (a.scope? c).map fun scope => (scope.list d.id).enter d.name d.id else a.scope? c := by
  refine (scope?_modifyScope _ _ _ c).trans ?_
  rw [scope?_modifyScope]
  split
  · rw [Option.map_map]
    rfl
  · rfl

/-- What a scope of an extended arena was before. -/
theorem scope?_of_extended {c : ScopeId} (hc : (a.extended d).scope? c = some sc) :
    ∃ old, a.scope? c = some old ∧ sc.parent = old.parent ∧ sc.depth = old.depth ∧
      sc.names = if c = d.scope then old.names.insert d.name d.id else old.names := by
  rw [scope?_extended] at hc
  split at hc
  · next he =>
    obtain ⟨old, hold, rfl⟩ := Option.map_eq_some_iff.1 hc
    exact ⟨old, hold, rfl, rfl, by rw [if_pos he]; rfl⟩
  · next he => exact ⟨sc, hc, rfl, rfl, by rw [if_neg he]⟩

theorem binding?_extended (a : ScopeArena) (d : Binding) (b : BindingId) :
    (a.extended d).binding? b = if b = ⟨a.bindings.size⟩ then some d else a.binding? b :=
  binding?_push a d b

/-- Of all names only that of the new binding stands for something else. -/
theorem binding?_extended_iff {c : ScopeId} {n : String} (hne : ¬(c = d.scope ∧ n = d.name)) :
    (∃ e, (a.extended d).binding? b = some e ∧ e.scope = c ∧ e.name = n) ↔
      ∃ e, a.binding? b = some e ∧ e.scope = c ∧ e.name = n := by
  rw [binding?_extended]
  split
  · next hb =>
    have hfree : a.binding? b = none := by
      rw [hb]
      exact Array.getElem?_eq_none (Nat.le_refl _)
    rw [hfree]
    constructor
    · rintro ⟨e, he, hc, hn⟩
      obtain rfl := Option.some.inj he
      exact absurd ⟨hc.symm, hn.symm⟩ hne
    · rintro ⟨e, he, -⟩
      cases he
  · rfl

/-- A binding under a name that its scope did not have. -/
theorem Sound.extended (ha : a.Sound) (hs : a.scope? d.scope = some sc)
    (hget : sc.names.get? d.name = none) (hid : d.id = ⟨a.bindings.size⟩)
    (hproper : (a.extended d).tree.Proper) : (a.extended d).Sound := by
  refine ⟨hproper, ?_, fun c sc' hc hp => ?_, fun c sc' p outer' hc hp houter => ?_,
    fun c sc' n b hc => ?_⟩
  · obtain ⟨outer, houter⟩ := ha.root
    rw [scope?_extended, houter]
    split <;> exact ⟨_, rfl⟩
  · obtain ⟨old, hold, hparent, -⟩ := scope?_of_extended hc
    exact ha.outermost c old hold (hparent ▸ hp)
  · obtain ⟨old, hold, hparent, hdepth, -⟩ := scope?_of_extended hc
    obtain ⟨outer, houter, -, hdepth', -⟩ := scope?_of_extended houter
    rw [hdepth, hdepth', ha.depth c old p outer hold (hparent ▸ hp) houter]
  · obtain ⟨old, hold, -, -, hnames⟩ := scope?_of_extended hc
    rw [hnames]
    by_cases hcn : c = d.scope ∧ n = d.name
    · obtain ⟨rfl, rfl⟩ := hcn
      obtain rfl := Option.some.inj (hs.symm.trans hold)
      rw [if_pos rfl, SortedMap.get?_insert_self, binding?_extended]
      constructor
      · intro hb
        rw [if_pos ((Option.some.inj hb).symm.trans hid)]
        exact ⟨d, rfl, rfl, rfl⟩
      · rintro ⟨e, he, hed⟩
        split at he
        · next hb => rw [hid, hb]
        · have hheld := (ha.indexed _ sc d.name b hs).2 ⟨e, he, hed⟩
          rw [hget] at hheld
          cases hheld
    · rw [binding?_extended_iff hcn, ← ha.indexed c old n b hold]
      split
      · next he => rw [SortedMap.get?_insert_of_ne _ _ fun hn => hcn ⟨he, hn⟩]
      · rfl

/-- Declaring a name that the scope has. -/
theorem Sound.declare_again (ha : a.Sound) (hs : a.scope? s = some sc) {existing : BindingId}
    (hget : sc.names.get? name = some existing) (kind : BindingKind) (storage : Storage) :
    (Operation.declare s name kind storage).Follows a := by
  obtain ⟨prior, hprior, -⟩ := (ha.indexed s sc name existing hs).1 hget
  have hlookup : a.tree.lookupLocal s name = some existing := by
    rw [← ha.lookupLocal_eq, lookupLocal, hs, Option.bind_some, hget]
  have htree : a.tree.declare s name kind storage =
      if kind.mayRepeat && prior.kind.isRepeatable then
        if kind = .functionDeclaration then
          .ok (existing, a.tree.modifyBinding existing fun b => { b with
            kind })
        else .ok (existing, a.tree)
      else .error (.duplicateBinding name s) := by
    rw [ScopeTree.declare, scope?_tree, hs, hlookup, Option.map_some]
    dsimp only
    rw [binding?_tree, hprior]
  have hrun : ScopeArena.declare s name kind storage a =
      if kind.mayRepeat && prior.kind.isRepeatable then
        if kind = .functionDeclaration then
          (.ok existing, a.modifyBinding existing fun b => { b with
            kind })
        else (.ok existing, a)
      else (.error (.duplicateBinding name s), a) := by
    refine (ArenaM.bind_of_ok (scope_of_some hs)).trans ?_
    rw [hget]
    refine (ArenaM.bind_of_ok (binding_of_some hprior)).trans ?_
    split
    · split <;> rfl
    · rfl
  by_cases hrepeat : (kind.mayRepeat && prior.kind.isRepeatable) = true
  · by_cases hkind : kind = .functionDeclaration
    · rw [if_pos hrepeat, if_pos hkind] at htree hrun
      exact .done (ArenaM.map_of_ok hrun) (by rw [Operation.apply, htree]; rfl)
        (ha.modifyBinding (ScopeTree.declare_spec ha.proper htree).1 fun _ => ⟨rfl, rfl⟩)
    · rw [if_pos hrepeat, if_neg hkind] at htree hrun
      exact .done (ArenaM.map_of_ok hrun) (by rw [Operation.apply, htree]; rfl) ha
  · rw [if_neg hrepeat] at htree hrun
    exact .refused (ArenaM.map_of_error hrun) (by rw [Operation.apply, htree]; rfl)

/-- Declaring a name that the scope does not have. -/
theorem Sound.declare_new (ha : a.Sound) (hs : a.scope? s = some sc)
    (hget : sc.names.get? name = none) (kind : BindingKind) (storage : Storage) :
    (Operation.declare s name kind storage).Follows a := by
  have hlookup : a.tree.lookupLocal s name = none := by
    rw [← ha.lookupLocal_eq, lookupLocal, hs, Option.bind_some, hget]
  have hid : sc.id = s := ha.proper.scope_id s sc.toScope (scope?_tree_of_some hs)
  let d : Binding := ⟨⟨a.bindings.size⟩, name, s, kind, storage, sc.bindings.size, 0, false⟩
  have hrun : ScopeArena.declare s name kind storage a = (.ok d.id, a.extended d) := by
    refine (ArenaM.bind_of_ok (scope_of_some hs)).trans ?_
    rw [hget]
    exact ArenaM.bind_of_ok (scope_of_some hs)
  have htree : a.tree.declare s name kind storage = .ok (d.id, (a.extended d).tree) := by
    rw [ScopeTree.declare, scope?_tree, hs, hlookup, Option.map_some, tree_extended]
    dsimp only [d]
    rw [← hid]
    rfl
  exact .done (ArenaM.map_of_ok hrun) (by rw [Operation.apply, htree]; rfl)
    (ha.extended hs hget rfl (ScopeTree.declare_spec ha.proper htree).1)

theorem Sound.declare (ha : a.Sound) (s : ScopeId) (name : String) (kind : BindingKind)
    (storage : Storage) : (Operation.declare s name kind storage).Follows a := by
  cases hs : a.scope? s with
  | none =>
    refine .refused (ArenaM.map_of_error (ArenaM.bind_of_error (scope_of_none hs))) ?_
    rw [Operation.apply, ScopeTree.declare, scope?_tree, hs]
    rfl
  | some sc =>
    cases hget : sc.names.get? name with
    | some existing => exact ha.declare_again hs hget kind storage
    | none => exact ha.declare_new hs hget kind storage

/-- Every operation on a sound arena follows the function on trees. -/
theorem Sound.follows (ha : a.Sound) (o : Operation) : o.Follows a := by
  cases o with
  | addScope p kind arrow owner => exact ha.addScope p kind arrow owner
  | declare s name kind storage => exact ha.declare s name kind storage
  | recordSite s site => exact ha.recordSite s site
  | recordAssignment b => exact ha.recordAssignment b
  | finalizeMutability => exact ha.finalizeMutability

theorem Sound.step (ha : a.Sound) (o : Operation) :
    (a.step o).Sound ∧ (a.step o).tree = o.onTree a.tree := by
  rw [ScopeArena.step, Operation.onTree]
  cases ha.follows o with
  | done hrun happly hsound =>
    rw [hrun, happly]
    exact ⟨hsound, rfl⟩
  | refused hrun happly =>
    rw [hrun, happly]
    exact ⟨ha, rfl⟩

theorem Sound.steps (ha : a.Sound) (ops : List Operation) :
    (ops.foldl ScopeArena.step a).Sound ∧
      (ops.foldl ScopeArena.step a).tree = ops.foldl Operation.onTree a.tree := by
  induction ops generalizing a with
  | nil => exact ⟨ha, rfl⟩
  | cons o rest ih =>
    obtain ⟨hsound, htree⟩ := ha.step o
    rw [List.foldl_cons, List.foldl_cons, ← htree]
    exact ih hsound

theorem sound_after (ops : List Operation) : (after ops).Sound :=
  (sound_initial.steps ops).1

/-! ## What the operations build -/

/-- Whatever operations are tried, in whatever order, they build a tree that is well
formed and whose indexes hold what its scopes list.  It is the tree that the functions on
trees build, each operation does to it what the function does, and one that fails leaves
everything as it was. -/
theorem after_wellFormed (ops : List Operation) :
    (after ops).tree.WellFormed ∧
      (∀ s name, (after ops).lookupLocal s name = (after ops).tree.lookupLocal s name) ∧
      (after ops).tree = ops.foldl Operation.onTree ScopeTree.initial ∧
      (∀ o : Operation, o.apply (after ops).tree = match o.run (after ops) with
        | (.ok r, a) => .ok (r, a.tree)
        | (.error e, _) => .error e) ∧
      ∀ (o : Operation) (e : ScopeError),
        (o.run (after ops)).1 = .error e → (o.run (after ops)).2 = after ops := by
  have hsound := sound_after ops
  refine ⟨hsound.wellFormed, hsound.lookupLocal_eq, ?_, fun o => ?_, fun o e he => ?_⟩
  · rw [← tree_initial]
    exact (sound_initial.steps ops).2
  · cases hsound.follows o with
    | done hrun happly => rw [hrun, happly]
    | refused hrun happly => rw [hrun, happly]
  · cases hsound.follows o with
    | done hrun =>
      rw [hrun] at he
      cases he
    | refused hrun => rw [hrun]

/-- A function whose parameter `x` a function declaration repeats. -/
def repeatedParameter : List Operation :=
  [.addScope ScopeTree.global .function false none, .declare ⟨1⟩ "x" .parameter .cell,
    .declare ⟨1⟩ "x" .functionDeclaration .slot]

/-- A third declaration of the name, as a `let`, changes nothing. -/
theorem after_wellFormed_repeatedParameter :
    (after repeatedParameter).tree.WellFormed ∧
      (after repeatedParameter).lookupLocal ⟨1⟩ "x" = some ⟨0⟩ ∧
      ((Operation.declare ⟨1⟩ "x" .letBinding .slot).run (after repeatedParameter)).1 =
        .error (.duplicateBinding "x" ⟨1⟩) ∧
      ((Operation.declare ⟨1⟩ "x" .letBinding .slot).run (after repeatedParameter)).2 =
        after repeatedParameter := by
  obtain ⟨hformed, -, -, -, hfails⟩ := after_wellFormed repeatedParameter
  have hrefused : ((Operation.declare ⟨1⟩ "x" .letBinding .slot).run
      (after repeatedParameter)).1 = .error (.duplicateBinding "x" ⟨1⟩) := by
    decide +kernel
  exact ⟨hformed, by decide +kernel, hrefused, hfails _ _ hrefused⟩

end ScopeArena
end ClosureCache
