/-
Entering a block or a function.

A scope is opened and takes its declarations before anything in it is resolved.  `Taken` is
a stretch of declarations in one scope, `Entered` the whole way in: from then on the scope
holds what was declared, and code stands in it inside of what stood around it.  The steps by
which a function declares its parameters, its arguments collection and its own name are
decided here by the compatibility of its declarations.
-/
import ClosureCache.Proofs.Program.Outcome

namespace ClosureCache

/-- A stretch of declarations in the scope `s`, after which it has taken `ds` in all, and
which makes `B` true of every tree that keeps the names. -/
structure Taken (st st' : Scoping) (s : ScopeId) (ds : List Declared) (B : ScopeTree → Prop) :
    Prop where
  takes : st'.tree.Takes s ds
  fills : st.tree.Fills st'.tree s
  bound : ∀ t, st'.tree.Keeps t → B t

namespace Taken

variable {st st₁ st₂ : Scoping} {s : ScopeId} {ds es : List Declared} {B C : ScopeTree → Prop}

theorem refl (h : st.tree.Takes s ds) (hB : ∀ t, st.tree.Keeps t → B t) : Taken st st s ds B :=
  ⟨h, .refl _ _, hB⟩

theorem trans (a : Taken st st₁ s ds B) (b : Taken st₁ st₂ s es C) :
    Taken st st₂ s es fun t => B t ∧ C t :=
  ⟨b.takes, a.fills.trans b.fills, fun t hk => ⟨a.bound t (b.fills.toKeeps.trans hk), b.bound t hk⟩⟩

theorem imp (a : Taken st st₁ s ds B) (h : ∀ t, B t → C t) : Taken st st₁ s ds C :=
  ⟨a.takes, a.fills, fun t hk => h t (a.bound t hk)⟩

end Taken

/-- The scope `own` was opened inside of `parent` and has taken `ds`. -/
structure Entered (st st' : Scoping) (parent own : ScopeId) (kind : ScopeKind) (arrow : Bool)
    (ds : List Declared) (B : ScopeTree → Prop) : Prop where
  number : own = ⟨st.tree.scopes.size⟩
  size : st'.tree.scopes.size = st.tree.scopes.size + 1
  extended : st.tree.Extends st'.tree
  takes : st'.tree.Takes own ds
  scope : ∃ sc, st'.tree.scope? own = some sc ∧ sc.kind = kind ∧ sc.parent = some parent ∧
    sc.arrow = arrow
  bound : ∀ t, st'.tree.Keeps t → B t

namespace Entered

variable {st st₁ st₂ : Scoping} {parent own : ScopeId} {kind : ScopeKind} {arrow : Bool}
  {ds es : List Declared} {B C : ScopeTree → Prop} {ctx : List (List Declared)}

/-- The scope takes more. -/
theorem fill (a : Entered st st₁ parent own kind arrow ds B) (ht : st.tree.Proper)
    (b : Taken st₁ st₂ own es C) :
    Entered st st₂ parent own kind arrow es fun t => B t ∧ C t where
  number := a.number
  size := b.fills.size.trans a.size
  extended := by
    refine a.extended.fills ht ?_ b.fills
    rw [a.number]
    exact Array.getElem?_eq_none (Nat.le_refl _)
  takes := b.takes
  scope := by
    obtain ⟨sc, hsc, hkind, hparent, harrow⟩ := a.scope
    obtain ⟨sc', hsc', hkind', hparent', harrow'⟩ := b.fills.scope own sc hsc
    exact ⟨sc', hsc', hkind'.trans hkind, hparent'.trans hparent, harrow'.trans harrow⟩
  bound t hk := ⟨a.bound t (b.fills.toKeeps.trans hk), b.bound t hk⟩

/-- What the scope has taken comes before all that stands around it. -/
theorem stands (a : Entered st st₁ parent own kind arrow ds B) (hs : st.tree.Stands parent ctx) :
    st₁.tree.Stands own (ds :: ctx) := by
  obtain ⟨sc, hsc, -, hparent, -⟩ := a.scope
  have houter := hs.later a.extended a.takes.proper
  refine a.takes.stands hsc fun name => (houter.assignable name).trans (not_congr ?_)
  rw [hparent]
  exact ⟨fun h => ⟨parent, rfl, h⟩, fun ⟨p, hp, h⟩ => Option.some.inj hp ▸ h⟩

/-- A step that changes nothing in what the scopes declare. -/
theorem andThen (a : Entered st st₁ parent own kind arrow ds B) (b : Annotates st₁ st₂ [] C) :
    Entered st st₂ parent own kind arrow ds B where
  number := a.number
  size := b.opened.2.trans a.size
  extended := a.extended.trans b.extended
  takes := by
    obtain ⟨sc, hsc⟩ := a.takes.opened
    obtain ⟨sc', hsc', -⟩ := b.extended.scope own sc hsc
    exact ⟨b.proper, ⟨sc', hsc'⟩, a.takes.holds.later b.extended a.takes.proper hsc,
      a.takes.compatible⟩
  scope := by
    obtain ⟨sc, hsc, hkind, hparent, harrow⟩ := a.scope
    obtain ⟨sc', hsc', hkind', hparent', harrow'⟩ := b.extended.scope own sc hsc
    exact ⟨sc', hsc', hkind'.trans hkind, hparent'.trans hparent, harrow'.trans harrow⟩
  bound t hk := a.bound t ((b.extended.keeps a.takes.proper).trans hk)

/-- The code inside is resolved once the scope has its declarations. -/
theorem annotates (a : Entered st st₁ parent own kind arrow ds B) {l : List (Option ScopeId)}
    (b : Annotates st₁ st₂ l C) :
    Annotates st st₂ (some own :: l) fun t => ((∃ sc, t.scope? own = some sc ∧ sc.kind = kind ∧
      sc.parent = some parent ∧ sc.arrow = arrow) ∧ t.Holds own ds ∧ B t) ∧ C t where
  proper := b.proper
  extended := a.extended.trans b.extended
  opened := by
    rw [a.number]
    exact .cons (a.size ▸ b.opened)
  bound t he ht := by
    have he₁ := b.extended.trans he
    obtain ⟨sc, hsc, hkind, hparent, harrow⟩ := a.scope
    obtain ⟨sc', hsc', hkind', hparent', harrow'⟩ := he₁.scope own sc hsc
    exact ⟨⟨⟨sc', hsc', hkind'.trans hkind, hparent'.trans hparent, harrow'.trans harrow⟩,
      a.takes.holds.later he₁ a.takes.proper hsc, a.bound t (he₁.keeps a.takes.proper)⟩,
      b.bound t he ht⟩

end Entered

/-! ## Opening -/

namespace ResolveM

variable {st : Scoping} {parent s : ScopeId} {ds : List Declared} {node : FunctionNode}

theorem addScope_decides {kind : ScopeKind} {arrow : Bool} {owner : Option SiteId}
    (ht : st.tree.Proper) (hp : ∃ sc, st.tree.scope? parent = some sc) :
    Decides (addScope parent kind arrow owner) st True fun own st' =>
      Entered st st' parent own kind arrow [] fun _ => True := by
  obtain ⟨outer, houter⟩ := hp
  obtain ⟨own, t, hadd⟩ :
      ∃ own t, st.tree.addScope parent kind arrow owner = .ok (own, t) := by
    rw [ScopeTree.addScope, houter]
    exact ⟨_, _, rfl⟩
  obtain ⟨hnumber, hsize, -⟩ := ScopeTree.addScope_cases hadd
  obtain ⟨hproper, -, sc, hsc, hkind, hparent, harrow, hempty⟩ := ScopeTree.addScope_spec ht hadd
  exact .of_ok (change_of_ok hadd) trivial ⟨hnumber, hsize, ScopeTree.addScope_extends ht hadd,
    ⟨hproper, ⟨sc, hsc⟩, ScopeTree.holds_nil hsc hempty, .nil⟩,
    ⟨sc, hsc, hkind, hparent, harrow⟩, fun _ _ => trivial⟩

theorem enterFunction_decides (ht : st.tree.Proper)
    (hp : ∃ sc, st.tree.scope? parent = some sc) :
    Decides (enterFunction parent node) st True fun entered st' =>
      Entered st st' parent entered.2 .function node.isArrow [] fun _ => True := by
  refine Decides.first (.of_ok rfl (W := True) trivial (Q := fun s st' => s = st ∧ st' = st)
    ⟨rfl, rfl⟩) id fun s st' _ ⟨hs, hst⟩ => ?_
  subst hs hst
  refine Decides.first (addScope_decides ht hp) id fun own st₁ _ h₁ => ?_
  obtain ⟨outer, houter⟩ := hp
  obtain ⟨outer₁, houter₁, -⟩ := h₁.extended.scope parent outer houter
  obtain ⟨t, hrecord⟩ : ∃ t, st₁.tree.recordSite parent ⟨st'.sites.size⟩ = .ok t := by
    rw [ScopeTree.recordSite, houter₁]
    exact ⟨_, rfl⟩
  obtain ⟨he, hsize⟩ := ScopeTree.recordSite_extends hrecord
  refine Decides.first (change_decides (B := fun _ => True) (by rw [hrecord]; rfl)
    (ScopeTree.recordSite_spec h₁.takes.proper hrecord).1 he hsize fun _ _ => trivial) id
    fun u st₂ _ h₂ => ?_
  have h₃ := h₁.andThen h₂
  exact .of_ok rfl trivial { h₃ with }

/-! ## Declaring -/

theorem declare_decides {d : Declared} (h : st.tree.Takes s ds) (hd : d.Follows ds) :
    Decides (declare s d) st (Compatible (ds ++ [d])) fun b st' =>
      Taken st st' s (ds ++ [d]) fun t => t.lookupLocal s d.name = some b := by
  rcases h.declare_cases hd with ⟨hc, b, t, hdeclare, htakes, hlookup, hfills⟩ | ⟨hc, hdeclare⟩
  · exact .of_ok (change_of_ok hdeclare) hc
      ⟨htakes, hfills, fun t hk => hk.lookup _ _ _ hlookup⟩
  · exact .of_error (change_of_error hdeclare) hc rfl

/-- Declarations that may repeat whatever they may follow. -/
theorem declareAll_decides {l : List Declared} (h : st.tree.Takes s ds)
    (hl : ∀ d ∈ l, d.kind.isRepeatable = true → d.kind.mayRepeat = true) :
    Decides (declareAll s l) st (Compatible (ds ++ l)) fun _ st' =>
      Taken st st' s (ds ++ l) fun _ => True := by
  induction l generalizing st ds with
  | nil =>
    rw [List.append_nil]
    exact .of_ok rfl h.compatible (.refl h fun _ _ => trivial)
  | cons d rest ih =>
    rw [List.append_cons]
    refine Decides.first (declare_decides h fun hd => .inl (hl d List.mem_cons_self hd))
      Compatible.of_append fun b st₁ _ h₁ => ?_
    exact (ih h₁.takes fun e he => hl e (List.mem_cons_of_mem _ he)).imp Iff.rfl fun _ _ _ h₂ =>
      (h₁.trans h₂).imp fun _ _ => trivial

theorem heldBy_of_lookup {t : ScopeTree} {i : Identifier} {b : BindingId}
    (h : t.lookupLocal s i.name = some b) : i.HeldBy t s { i with resolution := .binding b } :=
  ⟨b, h, rfl⟩

/-- Parameters come first, and no two of them have the same name. -/
theorem declareParams_decides {l : List Identifier} (h : st.tree.Takes s ds)
    (hds : ∀ d ∈ ds, d.kind.mayRepeat = false) :
    Decides (declareParams s l) st (Compatible (ds ++ l.map fun p => ⟨p.name, .parameter, .slot⟩))
      fun l' st' => Taken st st' s (ds ++ l.map fun p => ⟨p.name, .parameter, .slot⟩) fun t =>
        List.Forall₂ (Identifier.HeldBy t s) l l' := by
  induction l generalizing st ds with
  | nil =>
    rw [List.map_nil, List.append_nil]
    exact .of_ok rfl h.compatible (.refl h fun _ _ => .nil)
  | cons p rest ih =>
    rw [List.map_cons, List.append_cons]
    refine Decides.first (declare_decides h fun _ => .inr hds) Compatible.of_append
      fun b st₁ _ h₁ => ?_
    refine Decides.last (ih h₁.takes fun d hd => ?_) fun l' st₂ _ h₂ => ?_
    · rcases List.mem_append.1 hd with hd | hd
      · exact hds d hd
      · obtain rfl := List.mem_singleton.1 hd
        rfl
    · exact (h₁.trans h₂).imp fun t ⟨hb, hrest⟩ => .cons (heldBy_of_lookup hb) hrest

theorem declareRest_decides {r : Option Identifier} (h : st.tree.Takes s ds) :
    Decides (declareRest s r) st
      (Compatible (ds ++ r.toList.map fun r => ⟨r.name, .rest, .slot⟩)) fun r' st' =>
        Taken st st' s (ds ++ r.toList.map fun r => ⟨r.name, .rest, .slot⟩) fun t =>
          Option.Rel (Identifier.HeldBy t s) r r' := by
  cases r with
  | none =>
    rw [Option.toList_none, List.map_nil, List.append_nil]
    exact .of_ok rfl h.compatible (.refl h fun _ _ => .none)
  | some i =>
    refine Decides.last (declare_decides h fun hkind => (by cases hkind)) fun b st₁ _ h₁ => ?_
    exact h₁.imp fun t hb => .some (heldBy_of_lookup hb)

/-- The arguments collection is declared where no parameter has its name. -/
theorem declareArguments_decides (h : st.tree.Takes s node.parameters) :
    Decides (declareArguments s node) st
      (Compatible (node.parameters ++ node.implicitArguments)) fun b st' =>
        Taken st st' s (node.parameters ++ node.implicitArguments) fun t =>
          if node.implicitArguments = [] then b = node.arguments
          else ∃ a, t.lookupLocal s "arguments" = some a ∧ b = some a := by
  have hfree : (st.tree.lookupLocal s "arguments").isNone =
      !node.parameters.any (·.name == "arguments") := by
    rw [Bool.eq_iff_iff, Option.isNone_iff_eq_none, h.holds.lookup_eq_none]
    simp
  refine Decides.first (.of_ok rfl (W := True) trivial (Q := fun t st' => t = st.tree ∧ st' = st)
    ⟨rfl, rfl⟩) (fun _ => trivial) fun t st' _ ⟨ht, hst⟩ => ?_
  subst ht hst
  rw [hfree, ← Bool.not_or, FunctionNode.implicitArguments]
  cases hnone : node.isArrow || node.parameters.any (·.name == "arguments") with
  | true =>
    simp only [Bool.not_true, Bool.false_eq_true, if_false, if_true, List.append_nil]
    exact .of_ok rfl h.compatible (.refl h fun _ _ => rfl)
  | false =>
    simp only [Bool.not_false, Bool.false_eq_true, if_false, if_true]
    refine Decides.last (declare_decides h fun _ => .inr fun d hd => ?_) fun b st₁ _ h₁ => ?_
    · exact FunctionNode.mayRepeat_of_mem_parameters hd
    · exact h₁.imp fun t hb => by
        rw [if_neg (List.cons_ne_nil _ _)]
        exact ⟨b, hb, rfl⟩

/-- The own name is declared last, and only where it is free. -/
theorem declareOwnName_decides {name : Option Identifier} (h : st.tree.Takes s node.declarations)
    (hname : name.map Identifier.name = node.name.map Identifier.name) :
    Decides (declareOwnName s node.kind name) st True fun name' st' =>
      Taken st st' s (node.declarations ++ node.visibleName) fun t =>
        (node.kind ≠ .expression → name' = name) ∧
          (node.kind = .expression → Option.Rel (node.BindsOwnName t s) name name') := by
  -- where no name is declared, the scope is left as it is
  have hkeep : node.visibleName = [] → ∀ {B : ScopeTree → Prop}, (∀ t, st.tree.Keeps t → B t) →
      Taken st st s (node.declarations ++ node.visibleName) B := fun hnone _ hB => by
    rw [hnone, List.append_nil]
    exact .refl h hB
  cases name with
  | none =>
    have hnone := FunctionNode.visibleName_of_none (Option.map_eq_none_iff.1 hname.symm)
    exact .of_ok rfl trivial (hkeep hnone fun _ _ => ⟨fun _ => rfl, fun _ => .none⟩)
  | some i =>
    obtain ⟨j, hj, hij⟩ := Option.map_eq_some_iff.1 hname.symm
    rw [declareOwnName]
    split
    · next hkind =>
      have hvisible := FunctionNode.visibleName_of_some hkind hj
      rw [hij] at hvisible
      refine Decides.first (.of_ok rfl (W := True) trivial
        (Q := fun t st' => t = st.tree ∧ st' = st) ⟨rfl, rfl⟩) id fun t st' _ hread => ?_
      obtain ⟨rfl, rfl⟩ := hread
      cases hlookup : st'.tree.lookupLocal s i.name with
      | some b =>
        have hd : ∃ d ∈ node.declarations, d.name = i.name := by
          by_contra hnot
          rw [h.holds.lookup_eq_none.2 fun d hd hname => hnot ⟨d, hd, hname⟩] at hlookup
          cases hlookup
        rw [if_pos hd] at hvisible
        refine .of_ok rfl trivial (hkeep hvisible fun t _ =>
          ⟨fun hne => absurd hkind hne, fun _ => .some ?_⟩)
        rw [FunctionNode.BindsOwnName, if_pos hd]
      | none =>
        have hd : ¬∃ d ∈ node.declarations, d.name = i.name := by
          rintro ⟨d, hd, hname⟩
          exact h.holds.lookup_eq_none.1 hlookup d hd hname
        rw [if_neg hd] at hvisible
        have hcompatible := FunctionNode.compatible_visibleName h.compatible
        rw [hvisible] at hcompatible ⊢
        refine ((declare_decides h fun hkind => (by cases hkind)).last fun b st₁ _ h₁ => ?_).imp
          (iff_of_true hcompatible trivial) fun _ _ _ h => h
        refine h₁.imp fun t hb => ⟨fun hne => absurd hkind hne, fun _ => .some ?_⟩
        rw [FunctionNode.BindsOwnName, if_neg hd]
        exact heldBy_of_lookup hb
    · next hkind =>
      exact .of_ok rfl trivial (hkeep (FunctionNode.visibleName_of_ne hkind) fun _ _ =>
        ⟨fun _ => rfl, fun he => absurd he hkind⟩)

end ResolveM

end ClosureCache
