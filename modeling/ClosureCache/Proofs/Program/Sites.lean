/-
One number for each definition.

Resolution counts definitions as it enters them, and `Program.functions` lists them in a
walk of its own.  The numbers that definitions carry, the table of sites and the scope
tree agree: the definition with the number `i` is the one at place `i`, the entry at that
place describes it, and the scope in which it stands is the parent of its own scope and
lists it.

`Placed` is what the steps of resolution keep of the table and the tree.
-/
import ClosureCache.Proofs.Capture
import ClosureCache.Proofs.Program.Registration
import ClosureCache.Proofs.Program.Walk
import ClosureCache.Proofs.Scope.Extension

namespace ClosureCache

/-! ## Numbers in order -/

/-- The first site is there, and its number is less than that of the second. -/
def SiteBefore (x y : Option SiteId) : Prop :=
  ∃ site site', x = some site ∧ y = some site' ∧ site.index < site'.index

section Numbered

variable {l : List FunctionNode}

/-- A definition has the number of its place. -/
theorem Numbered.site_of_getElem? {i : Nat} {f : FunctionNode} (h : Numbered l)
    (hf : l[i]? = some f) : f.site = some ⟨i⟩ := by
  have hget := congrArg (fun sites => sites[i]?) h
  obtain ⟨hi, -⟩ := List.getElem?_eq_some_iff.1 hf
  simpa [hf, List.getElem?_range hi] using hget

/-- Definitions that are numbered come in the order of their sites. -/
theorem Numbered.increasing (h : Numbered l) :
    l.Pairwise fun f g => SiteBefore f.site g.site := by
  have hsites : (l.map FunctionNode.site).Pairwise SiteBefore := by
    rw [h, List.pairwise_map]
    exact List.pairwise_lt_range.imp fun hij => ⟨_, _, rfl, rfl, hij⟩
  exact List.pairwise_map.1 hsites

/-- The numbers of definitions are just the first ones. -/
theorem Numbered.exists_site_iff (h : Numbered l) (i : Nat) :
    (∃ f ∈ l, f.site = some ⟨i⟩) ↔ i < l.length := by
  have hmem : some ⟨i⟩ ∈ l.map FunctionNode.site ↔ i < l.length := by
    rw [h, List.mem_map]
    constructor
    · rintro ⟨j, hj, hji⟩
      obtain rfl := SiteId.mk.inj (Option.some.inj hji)
      exact List.mem_range.1 hj
    · exact fun hi => ⟨i, List.mem_range.2 hi, rfl⟩
  rw [← hmem, List.mem_map]

end Numbered

/-! ## Definitions in scopes -/

namespace ScopeTree

variable {t t' : ScopeTree} {s a parent : ScopeId} {b : BindingId} {site : SiteId}

def sitesIn (t : ScopeTree) (s : ScopeId) : List SiteId :=
  (t.scope? s).elim [] fun sc => sc.sites.toList

/-- The scope is the own scope of a definition and stands in `parent`. -/
def OwnScope (t : ScopeTree) (s parent : ScopeId) (site : SiteId) : Prop :=
  ∃ sc, t.scope? s = some sc ∧ sc.parent = some parent ∧ sc.owner = some site

/-- The scopes of the second tree are those of the first, but for the bindings that they
list. -/
def SameOutline (t t' : ScopeTree) : Prop :=
  ∀ s, ∃ f : Array BindingId → Array BindingId,
    t'.scope? s = (t.scope? s).map fun sc => { sc with bindings := f sc.bindings }

theorem SameOutline.of_scopes_eq (h : t'.scopes = t.scopes) : SameOutline t t' := by
  intro s
  refine ⟨id, ?_⟩
  rw [scope?, h, scope?]
  cases t.scopes[s.index]? <;> rfl

theorem SameOutline.sitesIn (h : SameOutline t t') (s : ScopeId) : t'.sitesIn s = t.sitesIn s := by
  obtain ⟨f, hf⟩ := h s
  rw [ScopeTree.sitesIn, hf, ScopeTree.sitesIn]
  cases t.scope? s <;> rfl

theorem SameOutline.ownScope (h : SameOutline t t') (hs : t.OwnScope s parent site) :
    t'.OwnScope s parent site := by
  obtain ⟨f, hf⟩ := h s
  obtain ⟨sc, hsc, hparent, howner⟩ := hs
  exact ⟨{ sc with
    bindings := f sc.bindings }, by rw [hf, hsc, Option.map_some], hparent, howner⟩

theorem sameOutline_declare {name : String} {kind : BindingKind} {storage : Storage}
    (h : t.declare s name kind storage = .ok (b, t')) : SameOutline t t' := by
  rcases declare_cases h with ⟨sc, -, -, rfl, rfl⟩ | ⟨prior, -, -, -, -, rfl⟩
  · intro a
    refine ⟨if a = sc.id then fun l => l.push ⟨t.bindings.size⟩ else id, ?_⟩
    rw [scope?_addBinding]
    split
    · rfl
    · cases t.scope? a <;> rfl
  · split <;> exact .of_scopes_eq rfl

theorem sameOutline_recordAssignment (h : t.recordAssignment b = .ok t') : SameOutline t t' := by
  rw [recordAssignment] at h
  split at h
  · cases h
  · obtain rfl := Except.ok.inj h
    exact .of_scopes_eq rfl

theorem sitesIn_addScope {kind : ScopeKind} {arrow : Bool} {owner : Option SiteId}
    (h : t.addScope parent kind arrow owner = .ok (s, t')) (a : ScopeId) :
    t'.sitesIn a = t.sitesIn a := by
  obtain ⟨rfl, -, -, outer, -, hscope⟩ := addScope_cases h
  rw [sitesIn, hscope, sitesIn]
  split
  · next hnew =>
    rw [hnew, scope?, Array.getElem?_eq_none (Nat.le_refl _)]
    rfl
  · rfl

theorem ownScope_addScope {kind : ScopeKind} {arrow : Bool} {owner : Option SiteId}
    (h : t.addScope parent kind arrow owner = .ok (s, t')) {p : ScopeId}
    (ha : t.OwnScope a p site) : t'.OwnScope a p site := by
  obtain ⟨sc, hsc, hplace⟩ := ha
  exact ⟨sc, scope?_addScope_of_some h hsc, hplace⟩

theorem ownScope_addScope_self {kind : ScopeKind} {arrow : Bool}
    (h : t.addScope parent kind arrow (some site) = .ok (s, t')) : t'.OwnScope s parent site := by
  obtain ⟨-, -, -, outer, -, hscope⟩ := addScope_cases h
  exact ⟨_, by rw [hscope, if_pos rfl], rfl, rfl⟩

theorem sitesIn_recordSite (h : t.recordSite s site = .ok t') (a : ScopeId) :
    t'.sitesIn a = t.sitesIn a ++ if a = s then [site] else [] := by
  rw [recordSite] at h
  split at h
  · cases h
  · next sc hs =>
    obtain rfl := Except.ok.inj h
    rw [sitesIn, scope?_modifyScope, sitesIn]
    split
    · next ha =>
      subst ha
      rw [hs]
      exact Array.toList_push
    · rw [List.append_nil]

theorem ownScope_recordSite {x : SiteId} (h : t.recordSite s x = .ok t')
    (ha : t.OwnScope a parent site) : t'.OwnScope a parent site := by
  rw [recordSite] at h
  split at h
  · cases h
  · obtain rfl := Except.ok.inj h
    obtain ⟨sc, hsc, hparent, howner⟩ := ha
    rw [OwnScope, scope?_modifyScope, hsc]
    split
    · exact ⟨_, rfl, hparent, howner⟩
    · exact ⟨sc, rfl, hparent, howner⟩

end ScopeTree

/-! ## The table and the tree -/

/-- Every entry of the table has its own scope in the parent that it names, and every scope
lists just the entries that name it, in the order of the table. -/
structure Scoping.Placed (st : Scoping) : Prop where
  own : ∀ info ∈ st.sites.toList, st.tree.OwnScope info.scope info.parentScope info.site
  listed : ∀ s, st.tree.sitesIn s =
    (st.sites.toList.filter fun info => info.parentScope = s).map SiteInfo.site

namespace Scoping

variable {st st' : Scoping} {n : Notes}

theorem placed_initial : Placed ⟨ScopeTree.initial, #[], []⟩ where
  own info h := absurd h List.not_mem_nil
  listed s := by
    rw [ScopeTree.sitesIn]
    cases hs : ScopeTree.initial.scope? s with
    | none => rfl
    | some sc =>
      obtain ⟨-, rfl⟩ := ScopeTree.scope?_initial hs
      rfl

/-- A step that leaves the table alone and the scopes but for their bindings. -/
theorem Placed.of_sameOutline (hp : Placed st) (htree : st.tree.SameOutline st'.tree)
    (hsites : st'.sites = st.sites) : Placed st' where
  own info h := htree.ownScope (hp.own info (hsites ▸ h))
  listed s := by rw [htree.sitesIn, hp.listed, hsites]

/-- Every step keeps the table and the tree in agreement. -/
theorem Step.placed (h : Step st n st') (hp : Placed st) : Placed st' := by
  cases h with
  | declare hdeclare => exact hp.of_sameOutline (ScopeTree.sameOutline_declare hdeclare) rfl
  | openBlock hadd =>
    exact ⟨fun info h => ScopeTree.ownScope_addScope hadd (hp.own info h), fun s => by
      rw [ScopeTree.sitesIn_addScope hadd, hp.listed]⟩
  | @enter info arrow t t' hsite hadd hrecord =>
    refine ⟨fun i hi => ?_, fun s => ?_⟩
    · refine ScopeTree.ownScope_recordSite hrecord ?_
      rw [Array.toList_push, List.mem_append, List.mem_singleton] at hi
      rcases hi with hi | rfl
      · exact ScopeTree.ownScope_addScope hadd (hp.own i hi)
      · exact ScopeTree.ownScope_addScope_self hadd
    · rw [ScopeTree.sitesIn_recordSite hrecord, ScopeTree.sitesIn_addScope hadd, hp.listed,
        Array.toList_push, List.filter_append, List.map_append]
      congr 1
      by_cases hs : info.parentScope = s
      · rw [if_pos hs.symm, List.filter_singleton, decide_eq_true hs]
        rfl
      · rw [if_neg (Ne.symm hs), List.filter_singleton, decide_eq_false hs]
        rfl
  | assign hrecord => exact hp.of_sameOutline (ScopeTree.sameOutline_recordAssignment hrecord) rfl
  | overwrite _ hrecord =>
    exact hp.of_sameOutline (ScopeTree.sameOutline_recordAssignment hrecord) rfl
  | remember => exact hp.of_sameOutline (.of_scopes_eq rfl) rfl

/-- Every entry of the table is about a scope in the tree, and the scope around that one lists
the site of the entry. -/
theorem Placed.entry {info : SiteInfo} (hp : Placed st) (h : info ∈ st.sites.toList) :
    ∃ own outer, st.tree.scope? info.scope = some own ∧ own.parent = some info.parentScope ∧
      own.owner = some info.site ∧ st.tree.scope? info.parentScope = some outer ∧
        info.site ∈ outer.sites := by
  obtain ⟨own, hown, hparent, howner⟩ := hp.own info h
  have hlisted : info.site ∈ st.tree.sitesIn info.parentScope := by
    rw [hp.listed]
    exact List.mem_map_of_mem (List.mem_filter.2 ⟨h, decide_eq_true rfl⟩)
  cases houter : st.tree.scope? info.parentScope with
  | none =>
    rw [ScopeTree.sitesIn, houter] at hlisted
    cases hlisted
  | some outer =>
    rw [ScopeTree.sitesIn, houter] at hlisted
    exact ⟨own, outer, hown, hparent, howner, rfl, Array.mem_toList_iff.1 hlisted⟩

end Scoping

/-! ## Programs -/

/-- Of a program that resolves, the table of sites and the scope tree agree. -/
theorem Program.placed_of_resolve {p : Program} {r : ResolvedProgram} (h : p.resolve = .ok r) :
    Scoping.Placed ⟨r.tree, r.sites, []⟩ := by
  obtain ⟨st, n, hwalk, -, htree, hsites⟩ := Program.walk_of_resolve h
  have hplaced := hwalk.preserves Scoping.Step.placed Scoping.placed_initial
  refine hplaced.of_sameOutline ?_ hsites
  rw [htree]
  exact .of_scopes_eq rfl

/-- The definitions of a program that resolves have the numbers 0, 1, 2 and so on in the
order in which `Program.functions` lists them, and the table of sites has the same numbers.
The entry at a place describes the definition at that place, its own scope belongs to the
definition and stands in the scope that the entry names as parent, and this scope lists the
definition.  So a number belongs to exactly one definition. -/
theorem Program.sites_agree {p : Program} {r : ResolvedProgram} (h : p.resolve = .ok r) :
    r.program.functions.map FunctionNode.site =
        (List.range r.program.functions.length).map (fun i => some ⟨i⟩) ∧
      r.sites.toList.map SiteInfo.site =
        (List.range r.program.functions.length).map SiteId.mk ∧
      (∀ (i : Nat) f, r.program.functions[i]? = some f → ∃ (info : SiteInfo) (own outer : Scope),
        r.sites[i]? = some info ∧ info.Describes f ∧
          r.tree.scope? info.scope = some own ∧ own.parent = some info.parentScope ∧
            own.owner = some info.site ∧ r.tree.scope? info.parentScope = some outer ∧
              info.site ∈ outer.sites) ∧
      ∀ i < r.program.functions.length, ∃! f, f ∈ r.program.functions ∧ f.site = some ⟨i⟩ := by
  obtain ⟨hnumbers, hall⟩ := Program.registers_of_resolve h
  have hnumbered := Program.numbered_of_resolve h
  have hlength : r.sites.size = r.program.functions.length := by
    rw [← hall.length_eq, Array.length_toList]
  refine ⟨hnumbered, by rw [← hlength, hnumbers], fun i f hf => ?_, fun i hi => ?_⟩
  · obtain ⟨hi, rfl⟩ := List.getElem?_eq_some_iff.1 hf
    have hi' : i < r.sites.toList.length := by rwa [Array.length_toList, hlength]
    have hentry : r.sites[i]? = some r.sites.toList[i] := by
      rw [← Array.getElem?_toList, List.getElem?_eq_getElem hi']
    obtain ⟨own, outer, hplaced⟩ := (Program.placed_of_resolve h).entry (List.getElem_mem hi')
    exact ⟨_, own, outer, hentry, hall.get hi' hi, hplaced⟩
  · have hget := List.getElem?_eq_getElem hi
    refine ⟨r.program.functions[i], ⟨List.getElem_mem hi, hnumbered.site_of_getElem? hget⟩, ?_⟩
    rintro f ⟨hf, hfsite⟩
    obtain ⟨j, hj⟩ := List.mem_iff_getElem?.1 hf
    obtain rfl : j = i := by
      rw [hnumbered.site_of_getElem? hj] at hfsite
      exact SiteId.mk.inj (Option.some.inj hfsite)
    exact Option.some.inj (hj.symm.trans hget)

/-- Definitions as the value of a property, as callee and argument of a call, in a branch,
in the test of a loop and as an assigned value. -/
def scattered : Program where
  body :=
    let name (s : String) : Identifier := ⟨s, .unresolved⟩
    let span : SourceSpan := ⟨0, 0, 0, 0, 0, 0⟩
    let inner (s : String) (body : List Statement) : Expression :=
      .function ⟨some (name s), .expression, .plain, false, [], none, body, span, none, none, none⟩
    [.declaration .var (name "x")
        (some (inner "outer" [.returning (some (.object [("k", inner "key" [])]))])) .slot,
      .expression (.call (inner "callee" []) [inner "argument" []]),
      .ifElse (.identifier (name "x"))
        ⟨[.declaration .letDeclaration (name "y") (some (inner "branch" [])) .slot], none⟩ none,
      .whileLoop (inner "test" [])
        ⟨[.expression (.setMember (.identifier (name "x")) "p" (inner "value" []))], none⟩]

theorem isSome_resolve_scattered : scattered.resolve.toOption.isSome = true := by
  decide +kernel

def scatteredResolved : ResolvedProgram := scattered.resolve.toOption.get isSome_resolve_scattered

/-- The definitions of the program are numbered in the order of the text, and the one in
the property stands in the scope of the one around it. -/
theorem sites_scattered : scattered.resolve = .ok scatteredResolved ∧
    scatteredResolved.program.functions.map FunctionNode.displayName =
      ["outer", "key", "callee", "argument", "branch", "test", "value"] ∧
    scatteredResolved.sites.toList.map SiteInfo.site = [⟨0⟩, ⟨1⟩, ⟨2⟩, ⟨3⟩, ⟨4⟩, ⟨5⟩, ⟨6⟩] ∧
    ∃ (info : SiteInfo) (outer : Scope), scatteredResolved.sites[1]? = some info ∧
      info.name = some "key" ∧ scatteredResolved.tree.scope? info.parentScope = some outer ∧
        outer.owner = some ⟨0⟩ ∧ info.site ∈ outer.sites := by
  have hresolve : scattered.resolve = .ok scatteredResolved :=
    Except.eq_ok_get isSome_resolve_scattered
  have hlength : scatteredResolved.program.functions.length = 7 := by decide +kernel
  obtain ⟨-, hsites, hentries, -⟩ := Program.sites_agree hresolve
  rw [hlength] at hsites
  obtain ⟨info, own, outer, hinfo, -, -, -, -, houter, hlists⟩ := hentries 1 _
    (List.getElem?_eq_getElem (by rw [hlength]; decide))
  have hplace : ∀ i ∈ scatteredResolved.sites[1]?, i.name = some "key" ∧
      ∀ sc ∈ scatteredResolved.tree.scope? i.parentScope, sc.owner = some ⟨0⟩ := by
    decide +kernel
  obtain ⟨hname, howner⟩ := hplace info hinfo
  exact ⟨hresolve, by decide +kernel, hsites, info, outer, hinfo, hname, houter,
    howner outer houter, hlists⟩

end ClosureCache
