/-
Which programs resolve, and to what.

One induction over the text says both.  Code that stands where its declarations are held
resolves exactly if it is well scoped, and then every later tree, in which the scopes so far
hold what they held, relates it to its resolved form by `Elaborates`.  For a whole program
this is that resolution accepts exactly the well-scoped ones, and that it is lexical scoping
by the finished tree.
-/
import Mathlib.Data.List.Nodup
import ClosureCache.Proofs.Capture
import ClosureCache.Proofs.Program.Entering

namespace ClosureCache

open ResolveM

/-! ## Names and declarations -/

namespace ResolveM

variable {st : Scoping} {s : ScopeId}

/-- The name of a function statement is held where the statement stands. -/
theorem bindName_decides {name : Option Identifier}
    (h : ∀ i, name = some i → ∃ b, st.tree.lookupLocal s i.name = some b) :
    Decides (bindName s name) st True fun name' st' => st' = st ∧
      name'.map Identifier.name = name.map Identifier.name ∧
      ∀ t, st.tree.Keeps t → Option.Rel (Identifier.HeldBy t s) name name' := by
  cases name with
  | none => exact .of_ok rfl trivial ⟨rfl, rfl, fun _ _ => .none⟩
  | some i =>
    obtain ⟨b, hb⟩ := h i rfl
    refine Decides.last (localBinding_decides hb) fun c st' _ ⟨hc, hst⟩ => ?_
    subst hc hst
    exact ⟨rfl, rfl, fun t hk => .some (heldBy_of_lookup (hk.lookup _ _ _ hb))⟩

/-- The scope to which a declaration belongs is found. -/
theorem home_decides {α : Type} {kind : DeclarationKind} {W : Prop} {Q : α → Scoping → Prop}
    {f : ScopeId → ResolveM α} (ht : st.tree.Proper) (hs : ∃ sc, st.tree.scope? s = some sc)
    (hf : ∀ home, kind.Home st.tree s home → Decides (f home) st W Q) :
    Decides (if kind = .var then ask (fun t => t.varScope s) >>= f else pure s >>= f) st W Q := by
  cases kind with
  | var =>
    rw [if_pos rfl]
    obtain ⟨sc, hsc⟩ := hs
    obtain ⟨home, hn⟩ := ScopeTree.exists_nearest Scope.isVarScope hsc
    refine Decides.first (ask_decides hn) (fun _ => trivial) fun a st' _ ⟨ha, hst⟩ => ?_
    subst ha hst
    exact hf a (ht.nearest_spec (fun _ => Scope.isVarScope_of_global) hn)
  | _ =>
    rw [if_neg (by decide)]
    exact hf s rfl

end ResolveM

namespace ScopeTree

variable {t : ScopeTree} {s inner : ScopeId} {sc : Scope} {vars lexs : List Declared}

/-- The names of a block are held by the scope of the block. -/
theorem Offers.enter (h : t.Offers s vars []) (hinner : t.scope? inner = some sc)
    (hkind : sc.kind = .block) (hparent : sc.parent = some s) (hheld : t.Holds inner lexs) :
    t.Offers inner vars lexs := by
  obtain ⟨home, hn, hvars⟩ := h.vars
  exact ⟨⟨home, .outward hinner (by rw [Scope.isVarScope, hkind]) hparent hn, hvars⟩,
    hheld.held⟩

/-- The names of a function body or of the top level are held by its own scope. -/
theorem Holds.offers {ds : List Declared} (h : t.Holds s ds) (hs : t.scope? s = some sc)
    (hvar : sc.isVarScope = true) (hvars : ∀ d ∈ vars, d ∈ ds) (hlexs : ∀ d ∈ lexs, d ∈ ds) :
    t.Offers s vars lexs :=
  ⟨⟨s, .here hs hvar, fun d hd => h.held d (hvars d hd)⟩, fun d hd => h.held d (hlexs d hd)⟩

/-- The name of a declaration is held where it belongs, and as lexical as the declaration. -/
theorem Offers.declaration {kind : DeclarationKind} {name : Identifier}
    {init : Option Expression} {storage : Storage} {home : ScopeId}
    (h : t.Offers s (Statement.declaration kind name init storage).hoistedVars
      (Statement.declaration kind name init storage).lexical?.toList)
    (hhome : kind.Home t s home) :
    ∃ k : BindingKind, t.Announces home name.name k ∧ (k.isLexical = true ↔ kind ≠ .var) := by
  cases kind with
  | var =>
    obtain ⟨home', hn, hvars⟩ := h.vars
    obtain rfl := hhome.unique hn
    exact ⟨.var, hvars _ (List.mem_singleton.2 rfl), by decide⟩
  | letDeclaration =>
    obtain rfl : home = s := hhome
    exact ⟨.letBinding, h.own _ (List.mem_singleton.2 rfl), by decide⟩
  | constDeclaration =>
    obtain rfl : home = s := hhome
    exact ⟨.constBinding, h.own _ (List.mem_singleton.2 rfl), by decide⟩

theorem Offers.head {stmt : Statement} {rest : List Statement}
    (h : t.Offers s (hoistedVars (stmt :: rest)) (lexicals (stmt :: rest))) :
    t.Offers s stmt.hoistedVars stmt.lexical?.toList :=
  h.mono (fun _ hd => List.mem_append_left _ hd) fun _ hd =>
    List.mem_filterMap.2 ⟨stmt, List.mem_cons_self, Option.mem_toList.1 hd⟩

theorem Offers.tail {stmt : Statement} {rest : List Statement}
    (h : t.Offers s (hoistedVars (stmt :: rest)) (lexicals (stmt :: rest))) :
    t.Offers s (hoistedVars rest) (lexicals rest) := by
  refine h.mono (fun _ hd => List.mem_append_right _ hd) fun d hd => ?_
  obtain ⟨x, hx, hd⟩ := List.mem_filterMap.1 hd
  exact List.mem_filterMap.2 ⟨x, List.mem_cons_of_mem _ hx, hd⟩

variable {test : Expression} {consequent : Block}

theorem Offers.thenBranch {alternate : Option Block}
    (h : t.Offers s (Statement.ifElse test consequent alternate).hoistedVars lexs) :
    t.Offers s consequent.hoistedVars lexs := by
  refine h.mono ?_ fun _ hd => hd
  cases alternate with
  | none => exact fun _ hd => hd
  | some b => exact fun _ hd => List.mem_append_left _ hd

theorem Offers.elseBranch {b : Block}
    (h : t.Offers s (Statement.ifElse test consequent (some b)).hoistedVars lexs) :
    t.Offers s b.hoistedVars lexs :=
  h.mono (fun _ hd => List.mem_append_right _ hd) fun _ hd => hd

/-- The name of a function statement is held as that of a function declaration. -/
theorem Offers.function {node : FunctionNode} {i : Identifier}
    (h : t.Offers s vars (Statement.function node).lexical?.toList) (hi : node.name = some i) :
    t.Announces s i.name .functionDeclaration := by
  refine h.own ⟨i.name, .functionDeclaration, .slot⟩ ?_
  rw [Statement.lexical?, hi]
  exact List.mem_singleton.2 rfl

end ScopeTree

/-- The own scope of a function holds the names of the statements in its body. -/
theorem FunctionNode.offers_of_holds {t : ScopeTree} {own : ScopeId} {sc : Scope}
    {node : FunctionNode} (h : t.Holds own (node.declarations ++ node.visibleName))
    (hs : t.scope? own = some sc) (hkind : sc.kind = .function) :
    t.Offers own (hoistedVars node.body) (lexicals node.body) :=
  h.offers hs (by rw [Scope.isVarScope, hkind])
    (fun d hd => by simp [FunctionNode.declarations, hd])
    fun d hd => by simp [FunctionNode.declarations, hd]

/-- The global scope holds the names of the statements at top level. -/
theorem Program.offers_of_holds {t : ScopeTree} {sc : Scope} {p : Program}
    (h : t.Holds ScopeTree.global p.declarations) (hs : t.scope? ScopeTree.global = some sc)
    (hkind : sc.kind = .global) :
    t.Offers ScopeTree.global (hoistedVars p.body) (lexicals p.body) :=
  h.offers hs (Scope.isVarScope_of_global hkind) (fun _ hd => List.mem_append_left _ hd)
    fun _ hd => List.mem_append_right _ hd

theorem DeclarationKind.Home.grows {t t' : ScopeTree} {s home : ScopeId} {kind : DeclarationKind}
    (h : kind.Home t s home) (hg : t.Grows t') : kind.Home t' s home := by
  cases kind with
  | var => exact hg.nearest (fun _ _ hkind _ => Scope.isVarScope_congr hkind) h
  | _ => exact h

/-! ## Definitions -/

section Definitions

variable {s : ScopeId} {ctx : List (List Declared)} {name : Option Identifier}
  {node : FunctionNode} {st : Scoping}

theorem FunctionNode.wellScoped_iff : node.WellScoped ctx ↔ Compatible node.declarations ∧
    WellScopedStatements (node.declarations :: node.ownName :: ctx) node.body := by
  cases node
  rw [FunctionNode.WellScoped]

theorem FunctionNode.resolve_eq (node : FunctionNode) (s : ScopeId) (name : Option Identifier) :
    node.resolve s name = (do
      let (site, scope) ← enterFunction s node
      let params ← declareParams scope node.params
      let rest ← declareRest scope node.rest
      let arguments ← declareArguments scope node
      declareAll scope (hoistedVars node.body)
      declareAll scope (lexicals node.body)
      let name ← declareOwnName scope node.kind name
      let body ← resolveStatements scope false node.body
      return { node with
        name, params, rest, body, site := some site, scope := some scope, arguments }) := by
  cases node
  rw [FunctionNode.resolve]

/-- A definition resolves if its declarations are compatible and its body, inside of them,
resolves. -/
theorem FunctionNode.decides_of_body
    (hname : name.map Identifier.name = node.name.map Identifier.name) (hs : st.tree.Stands s ctx)
    (hbody : ∀ {own : ScopeId} {st₁ : Scoping},
      st₁.tree.Stands own (node.declarations :: node.ownName :: ctx) →
        st₁.tree.Offers own (hoistedVars node.body) (lexicals node.body) →
          Decides (resolveStatements own false node.body) st₁
            (WellScopedStatements (node.declarations :: node.ownName :: ctx) node.body)
            fun body' st' => Annotates st₁ st' (scopesInStatements body') fun t =>
              StatementsElaborate t own node.body body') :
    Decides (node.resolve s name) st (node.WellScoped ctx) fun node' st' =>
      Annotates st st' node'.scopes fun t => node.Elaborates t s name node' := by
  rw [FunctionNode.resolve_eq, FunctionNode.wellScoped_iff]
  refine Decides.first (enterFunction_decides hs.proper hs.opened) (fun _ => trivial)
    fun opened st₁ _ h₁ => ?_
  obtain ⟨site, own⟩ := opened
  refine Decides.first (declareParams_decides h₁.takes fun _ h => absurd h List.not_mem_nil)
    (fun hw => hw.1.of_append.of_append.of_append.of_append) fun params' st₂ _ h₂ => ?_
  replace h₂ := h₁.fill hs.proper h₂
  refine Decides.first (declareRest_decides h₂.takes)
    (fun hw => hw.1.of_append.of_append.of_append) fun rest' st₃ _ h₃ => ?_
  replace h₃ := h₂.fill hs.proper h₃
  refine Decides.first (declareArguments_decides h₃.takes)
    (fun hw => hw.1.of_append.of_append) fun arguments' st₄ _ h₄ => ?_
  replace h₄ := h₃.fill hs.proper h₄
  refine Decides.first (declareAll_decides h₄.takes fun d hd _ => hoistedVars_kind _ d hd ▸ rfl)
    (fun hw => hw.1.of_append) fun _ st₅ _ h₅ => ?_
  replace h₅ := h₄.fill hs.proper h₅
  refine Decides.first (declareAll_decides h₅.takes fun _ => mayRepeat_of_mem_lexicals)
    And.left fun _ st₆ hcompatible h₆ => ?_
  replace h₆ := h₅.fill hs.proper h₆
  refine Decides.first (declareOwnName_decides h₆.takes hname) (fun _ => trivial)
    fun name' st₇ _ h₇ => ?_
  replace h₇ := h₆.fill hs.proper h₇
  have hs₇ : st₇.tree.Stands own (node.declarations :: node.ownName :: ctx) :=
    (h₇.stands hs).congr fun _ => FunctionNode.assignable_visibleName
  obtain ⟨sc, hsc, hkind, -⟩ := h₇.scope
  have hn₇ := FunctionNode.offers_of_holds h₇.takes.holds hsc hkind
  refine (Decides.last (hbody hs₇ hn₇) fun body' st₈ _ h₈ => ?_).imp
    (and_iff_right hcompatible).symm fun _ _ _ h => h
  refine (h₇.annotates h₈).imp fun t h => ?_
  obtain ⟨⟨hopened, hholds, hparts⟩, hbody⟩ := h
  obtain ⟨⟨⟨⟨⟨⟨-, hparams⟩, hrest⟩, harguments⟩, -⟩, -⟩, hkept, hownName⟩ := hparts
  exact .intro ⟨⟨rfl, rfl, rfl, rfl⟩, hname, rfl, rfl, hopened, hcompatible, hholds, hparams,
    hrest, harguments, hkept, hownName⟩ hbody

end Definitions

/-! ## Code -/

mutual

theorem Statement.resolve_decides {s : ScopeId} {ctx : List (List Declared)}
    {inLoop : Bool} {st : Scoping} :
    ∀ stmt : Statement, st.tree.Stands s ctx →
      st.tree.Offers s stmt.hoistedVars stmt.lexical?.toList →
        Decides (stmt.resolve s inLoop) st (stmt.WellScoped ctx) fun stmt' st' =>
          Annotates st st' stmt'.scopes fun t => stmt.Elaborates t s stmt'
  | .declaration kind name init storage, hs, hn => by
    have hw : (∀ e, init = some e → e.WellScoped ctx) ↔
        (Statement.declaration kind name init storage).WellScoped ctx := by
      cases init <;> simp [Statement.WellScoped]
    rw [Statement.resolve]
    refine (Decides.bind (V := True) (resolveOptional_decides init hs)
      fun init' st₁ _ h₁ => ?_).imp ((and_iff_left trivial).trans hw) fun _ _ _ h => h
    have hs₁ := hs.later h₁.extended h₁.proper
    refine home_decides h₁.proper hs₁.opened fun home hhome => ?_
    obtain ⟨-, ⟨b, -, hb, -⟩, -⟩ := (hn.later h₁.extended hs.proper).declaration hhome
    refine Decides.first (localBinding_decides hb) id fun c st₂ _ ⟨hc, hst⟩ => ?_
    subst hc hst
    -- the note of an initializer changes nothing in what was bound
    have hend : ∀ {st₃ : Scoping}, Annotates st₂ st₃ [] (fun _ => True) → Annotates st st₃
        (Statement.declaration kind { name with resolution := .binding c } init' storage).scopes
        fun t => (Statement.declaration kind name init storage).Elaborates t s
          (.declaration kind { name with resolution := .binding c } init' storage) := by
      intro st₃ h₂
      have h₃ := h₁.andThen h₂
      refine ⟨h₃.proper, h₃.extended, ?_, fun t he ht => ?_⟩
      · have := h₃.opened
        cases init' <;> exact this
      · have hlater := h₂.extended.trans he
        exact .declaration (h₃.bound t he ht).1 (hhome.grows hlater.toGrows)
          (heldBy_of_lookup ((hlater.keeps h₁.proper).lookup _ _ _ hb))
    obtain ⟨d, hd, -⟩ := h₁.proper.lookupLocal_spec hb
    split
    · exact Decides.last (noteInitializer_decides h₁.proper hd) fun _ st₃ _ h₂ => hend h₂
    · exact .of_ok rfl trivial (hend (.refl h₁.proper fun _ _ _ => trivial))
  | .function node, hs, hn => by
    rw [Statement.resolve]
    refine Decides.first (bindName_decides fun i hi => ?_) (fun _ => trivial)
      fun name st₁ _ ⟨hst, hname, hheld⟩ => ?_
    · obtain ⟨b, -, hb, -⟩ := hn.function hi
      exact ⟨b, hb⟩
    · subst hst
      refine Decides.last (FunctionNode.resolve_decides node hname hs) fun node' st₂ _ h => ?_
      exact ⟨h.proper, h.extended, h.opened, fun t he ht =>
        .function (hheld t ((h.extended.trans he).keeps hs.proper)) (h.bound t he ht)⟩
  | .expression e, hs, hn => by
    rw [Statement.resolve]
    exact Decides.last (Expression.resolve_decides e hs) fun e' st' _ h =>
      h.imp fun t => .expression
  | .returning value, hs, hn => by
    have hw : (∀ e, value = some e → e.WellScoped ctx) ↔
        (Statement.returning value).WellScoped ctx := by
      cases value <;> simp [Statement.WellScoped]
    rw [Statement.resolve]
    refine (Decides.last (resolveOptional_decides value hs) fun value' st' _ h => ?_).imp hw
      fun _ _ _ h => h
    refine ⟨h.proper, h.extended, ?_, fun t he ht => .returning (h.bound t he ht)⟩
    have := h.opened
    cases value' <;> exact this
  | .block b, hs, hn => by
    rw [Statement.resolve]
    exact Decides.last (Block.resolve_decides b hs hn) fun b' st' _ h => h.imp fun t => .block
  | .ifElse test consequent alternate, hs, hn => by
    have hw : (test.WellScoped ctx ∧ consequent.WellScoped ctx ∧
        ∀ b, alternate = some b → b.WellScoped ctx) ↔
          (Statement.ifElse test consequent alternate).WellScoped ctx := by
      cases alternate <;> simp [Statement.WellScoped]
    rw [Statement.resolve]
    refine (Decides.bind (Expression.resolve_decides test hs) fun test' st₁ _ h₁ => ?_).imp hw
      fun _ _ _ h => h
    have hs₁ := hs.later h₁.extended h₁.proper
    have hn₁ := hn.later h₁.extended hs.proper
    refine Decides.bind (Block.resolve_decides consequent hs₁ hn₁.thenBranch)
      fun consequent' st₂ _ h₂ => ?_
    have hn₂ := hn₁.later h₂.extended h₁.proper
    refine Decides.last (resolveAlternate_decides alternate (hs₁.later h₂.extended h₂.proper)
      fun b hb => (hb ▸ hn₂).elseBranch) fun alternate' st₃ _ h₃ => ?_
    have h₄ := h₁.trans (h₂.trans h₃)
    refine ⟨h₄.proper, h₄.extended, ?_, fun t he ht => ?_⟩
    · have := h₄.opened
      cases alternate' with
      | none => rwa [scopesInAlternate, Option.elim_none, List.append_nil] at this
      | some b => exact this
    · obtain ⟨htest, hconsequent, halternate⟩ := h₄.bound t he ht
      exact .ifElse htest hconsequent halternate
  | .whileLoop test body, hs, hn => by
    rw [Statement.resolve]
    refine Decides.bind (Expression.resolve_decides test hs) fun test' st₁ _ h₁ => ?_
    refine Decides.last (Block.resolve_decides body (hs.later h₁.extended h₁.proper)
      (hn.later h₁.extended hs.proper)) fun body' st₂ _ h₂ => ?_
    exact (h₁.trans h₂).imp fun t ⟨htest, hbody⟩ => .whileLoop htest hbody
termination_by structural stmt => stmt

theorem resolveStatements_decides {s : ScopeId} {ctx : List (List Declared)}
    {inLoop : Bool} {st : Scoping} :
    ∀ l : List Statement, st.tree.Stands s ctx →
      st.tree.Offers s (hoistedVars l) (lexicals l) →
        Decides (resolveStatements s inLoop l) st (WellScopedStatements ctx l) fun l' st' =>
          Annotates st st' (scopesInStatements l') fun t => StatementsElaborate t s l l'
  | [], hs, _ => by
    rw [resolveStatements]
    exact .of_ok rfl trivial (.refl hs.proper fun _ _ _ => .nil)
  | stmt :: rest, hs, hn => by
    rw [resolveStatements]
    refine Decides.bind (Statement.resolve_decides stmt hs hn.head) fun stmt' st₁ _ h₁ => ?_
    refine Decides.last (resolveStatements_decides rest (hs.later h₁.extended h₁.proper)
      (hn.later h₁.extended hs.proper).tail) fun rest' st₂ _ h₂ => ?_
    exact (h₁.trans h₂).imp fun t ⟨hstmt, hstmts⟩ => .cons hstmt hstmts
termination_by structural l => l

theorem Block.resolve_decides {s : ScopeId} {ctx : List (List Declared)}
    {inLoop : Bool} {st : Scoping} :
    ∀ b : Block, st.tree.Stands s ctx → st.tree.Offers s b.hoistedVars [] →
      Decides (b.resolve s inLoop) st (b.WellScoped ctx) fun b' st' =>
        Annotates st st' b'.scopes fun t => b.Elaborates t s b'
  | ⟨body, scope⟩, hs, hn => by
    rw [Block.resolve]
    refine Decides.first (addScope_decides hs.proper hs.opened) (fun _ => trivial)
      fun inner st₁ _ h₁ => ?_
    refine Decides.bind (declareAll_decides h₁.takes fun _ => mayRepeat_of_mem_lexicals)
      fun _ st₂ hcompatible h₂ => ?_
    have h₃ := h₁.fill hs.proper h₂
    obtain ⟨sc, hsc, hkind, hparent, -⟩ := h₃.scope
    refine Decides.last (resolveStatements_decides body (h₃.stands hs)
      ((hn.later h₃.extended hs.proper).enter hsc hkind hparent h₃.takes.holds))
      fun body' st₃ _ h₄ => ?_
    refine (h₃.annotates h₄).imp fun t ⟨⟨⟨sc, hsc, hkind, hparent, _⟩, hholds, _⟩, hbody⟩ => ?_
    exact .intro hsc hkind hparent hcompatible hholds hbody
termination_by structural b => b

theorem resolveAlternate_decides {s : ScopeId} {ctx : List (List Declared)}
    {inLoop : Bool} {st : Scoping} :
    ∀ b : Option Block, st.tree.Stands s ctx →
      (∀ a, b = some a → st.tree.Offers s a.hoistedVars []) →
        Decides (resolveAlternate s inLoop b) st (∀ a, b = some a → a.WellScoped ctx)
          fun b' st' => Annotates st st' (scopesInAlternate b') fun t =>
            AlternateElaborates t s b b'
  | none, hs, _ => by
    rw [resolveAlternate]
    exact .of_ok rfl (fun _ h => by cases h) (.refl hs.proper fun _ _ _ => .none)
  | some b, hs, hn => by
    rw [resolveAlternate]
    refine (Decides.last (Block.resolve_decides b hs (hn b rfl)) fun b' st' _ h => ?_).imp
      ⟨fun h a ha => Option.some.inj ha ▸ h, fun h => h b rfl⟩ fun _ _ _ h => h
    exact h.imp fun t => .some
termination_by structural b => b

theorem FunctionNode.resolve_decides {s : ScopeId} {ctx : List (List Declared)}
    {name : Option Identifier} {st : Scoping} :
    ∀ node : FunctionNode, name.map Identifier.name = node.name.map Identifier.name →
      st.tree.Stands s ctx →
        Decides (node.resolve s name) st (node.WellScoped ctx) fun node' st' =>
          Annotates st st' node'.scopes fun t => node.Elaborates t s name node'
  | ⟨_, _, _, _, _, _, body, _, _, _, _⟩, hname, hs =>
    FunctionNode.decides_of_body hname hs fun hs hn => resolveStatements_decides body hs hn
termination_by structural node => node

theorem Expression.resolve_decides {s : ScopeId} {ctx : List (List Declared)}
    {st : Scoping} :
    ∀ e : Expression, st.tree.Stands s ctx →
      Decides (e.resolve s) st (e.WellScoped ctx) fun e' st' =>
        Annotates st st' e'.scopes fun t => e.Elaborates t s e'
  | .literal l, hs => by
    rw [Expression.resolve]
    exact .of_ok rfl trivial (.refl hs.proper fun _ _ _ => .literal)
  | .identifier i, hs => by
    rw [Expression.resolve]
    refine Decides.last reference_decides fun x st' _ ⟨hx, hst⟩ => ?_
    subst hx hst
    obtain ⟨sc, hsc⟩ := hs.opened
    refine .refl hs.proper fun t he ht => ?_
    rw [← he.meaning_eq hs.proper ht hsc]
    exact .identifier
  | .this provider, hs => by
    rw [Expression.resolve]
    obtain ⟨sc, hsc⟩ := hs.opened
    obtain ⟨p, hp⟩ := ScopeTree.exists_nearest Scope.providesThis hsc
    refine Decides.last (ask_decides hp) fun q st' _ ⟨hq, hst⟩ => ?_
    subst hq hst
    exact .refl hs.proper fun t he ht => .this ((he.nearest_eq hs.proper ht
      (fun _ _ => Scope.providesThis_congr) hsc).trans hp)
  | .object properties, hs => by
    rw [Expression.resolve]
    exact Decides.last (resolveProperties_decides properties hs) fun _ _ _ h =>
      h.imp fun t => .object
  | .array elements, hs => by
    rw [Expression.resolve]
    exact Decides.last (resolveExpressions_decides elements hs) fun _ _ _ h =>
      h.imp fun t => .array
  | .member object property, hs => by
    rw [Expression.resolve]
    exact Decides.last (Expression.resolve_decides object hs) fun _ _ _ h =>
      h.imp fun t => .member
  | .setMember object property value, hs => by
    rw [Expression.resolve]
    refine Decides.bind (Expression.resolve_decides object hs) fun object' st₁ _ h₁ => ?_
    refine Decides.last (Expression.resolve_decides value (hs.later h₁.extended h₁.proper))
      fun value' st₂ _ h₂ => ?_
    exact (h₁.trans h₂).imp fun t ⟨ho, hv⟩ => .setMember ho hv
  | .call callee arguments, hs => by
    rw [Expression.resolve]
    refine Decides.bind (Expression.resolve_decides callee hs) fun callee' st₁ _ h₁ => ?_
    refine Decides.last (resolveExpressions_decides arguments (hs.later h₁.extended h₁.proper))
      fun arguments' st₂ _ h₂ => ?_
    exact (h₁.trans h₂).imp fun t ⟨hc, ha⟩ => .call hc ha
  | .assign target value, hs => by
    rw [Expression.resolve]
    refine Decides.bind (Expression.resolve_decides value hs) fun value' st₁ _ h₁ => ?_
    have hs₁ := hs.later h₁.extended h₁.proper
    refine Decides.first reference_decides (fun _ => trivial) fun x st₂ _ ⟨hx, hst⟩ => ?_
    subst hx hst
    refine Decides.last (noteAssignment_decides hs₁) fun _ st₃ _ h₂ => ?_
    obtain ⟨sc, hsc⟩ := hs₁.opened
    have h₃ := h₁.andThen h₂
    refine ⟨h₃.proper, h₃.extended, h₃.opened, fun t he ht => ?_⟩
    obtain ⟨hvalue, hassigned⟩ := h₃.bound t he ht
    rw [← (h₂.extended.trans he).meaning_eq hs₁.proper ht hsc] at hassigned ⊢
    exact .assign hvalue hassigned
  | .binary op left right, hs => by
    rw [Expression.resolve]
    refine Decides.bind (Expression.resolve_decides left hs) fun left' st₁ _ h₁ => ?_
    refine Decides.last (Expression.resolve_decides right (hs.later h₁.extended h₁.proper))
      fun right' st₂ _ h₂ => ?_
    exact (h₁.trans h₂).imp fun t ⟨hl, hr⟩ => .binary hl hr
  | .function node, hs => by
    rw [Expression.resolve]
    exact Decides.last (FunctionNode.resolve_decides node rfl hs) fun _ _ _ h =>
      h.imp fun t => .function
  | .dynamicEval source, hs => by
    rw [Expression.resolve]
    exact .of_ok rfl trivial (.refl hs.proper fun _ _ _ => .dynamicEval)
termination_by structural e => e

theorem resolveOptional_decides {s : ScopeId} {ctx : List (List Declared)}
    {st : Scoping} :
    ∀ e : Option Expression, st.tree.Stands s ctx →
      Decides (resolveOptional s e) st (∀ a, e = some a → a.WellScoped ctx) fun e' st' =>
        Annotates st st' (scopesInOptional e') fun t => OptionalElaborates t s e e'
  | none, hs => by
    rw [resolveOptional]
    exact .of_ok rfl (fun _ h => by cases h) (.refl hs.proper fun _ _ _ => .none)
  | some e, hs => by
    rw [resolveOptional]
    refine (Decides.last (Expression.resolve_decides e hs) fun e' st' _ h => ?_).imp
      ⟨fun h a ha => Option.some.inj ha ▸ h, fun h => h e rfl⟩ fun _ _ _ h => h
    exact h.imp fun t => .some
termination_by structural e => e

theorem resolveExpressions_decides {s : ScopeId} {ctx : List (List Declared)}
    {st : Scoping} :
    ∀ l : List Expression, st.tree.Stands s ctx →
      Decides (resolveExpressions s l) st (WellScopedExpressions ctx l) fun l' st' =>
        Annotates st st' (scopesInExpressions l') fun t => ExpressionsElaborate t s l l'
  | [], hs => by
    rw [resolveExpressions]
    exact .of_ok rfl trivial (.refl hs.proper fun _ _ _ => .nil)
  | e :: rest, hs => by
    rw [resolveExpressions]
    refine Decides.bind (Expression.resolve_decides e hs) fun e' st₁ _ h₁ => ?_
    refine Decides.last (resolveExpressions_decides rest (hs.later h₁.extended h₁.proper))
      fun rest' st₂ _ h₂ => ?_
    exact (h₁.trans h₂).imp fun t ⟨he, hrest⟩ => .cons he hrest
termination_by structural l => l

theorem resolveProperties_decides {s : ScopeId} {ctx : List (List Declared)}
    {st : Scoping} :
    ∀ l : List (String × Expression), st.tree.Stands s ctx →
      Decides (resolveProperties s l) st (WellScopedProperties ctx l) fun l' st' =>
        Annotates st st' (scopesInProperties l') fun t => PropertiesElaborate t s l l'
  | [], hs => by
    rw [resolveProperties]
    exact .of_ok rfl trivial (.refl hs.proper fun _ _ _ => .nil)
  | (key, e) :: rest, hs => by
    rw [resolveProperties]
    refine Decides.bind (Expression.resolve_decides e hs) fun e' st₁ _ h₁ => ?_
    refine Decides.last (resolveProperties_decides rest (hs.later h₁.extended h₁.proper))
      fun rest' st₂ _ h₂ => ?_
    exact (h₁.trans h₂).imp fun t ⟨he, hrest⟩ => .cons he hrest
termination_by structural l => l

end

/-! ## Programs -/

namespace ScopeTree

theorem takes_initial : initial.Takes global [] := by
  have hs : initial.scope? global = some (.fresh global .global none 0 false none) := rfl
  exact ⟨proper_initial, ⟨_, hs⟩, holds_nil hs rfl, .nil⟩

end ScopeTree

/-- The top level takes the declarations of the program, and its statements stand in nothing
else. -/
theorem resolveTopLevel_decides (p : Program) : Decides (resolveTopLevel p.body)
    ⟨ScopeTree.initial, #[], []⟩ p.WellScoped fun body' st' => st'.tree.Proper ∧
      OpenedFrom 1 (scopesInStatements body') st'.tree.scopes.size ∧
      ∀ t, st'.tree.Extends t → t.Proper →
        (∃ sc, t.scope? ScopeTree.global = some sc ∧ sc.kind = .global) ∧
          t.Holds ScopeTree.global p.declarations ∧
          StatementsElaborate t ScopeTree.global p.body body' := by
  rw [resolveTopLevel, Program.WellScoped]
  refine Decides.first (declareAll_decides ScopeTree.takes_initial
    fun d hd _ => (by rw [hoistedVars_kind _ d hd]; rfl)) (fun hw => hw.1.of_append)
    fun _ st₁ _ h₁ => ?_
  refine Decides.first (declareAll_decides h₁.takes fun _ => mayRepeat_of_mem_lexicals)
    And.left fun _ st₂ hcompatible h₂ => ?_
  have hfills := h₁.fills.trans h₂.fills
  obtain ⟨sc, hsc, hkind, hparent, -⟩ := hfills.scope ScopeTree.global _ rfl
  have hs : st₂.tree.Stands ScopeTree.global [p.declarations] :=
    h₂.takes.stands hsc fun name => by
      rw [hparent]
      exact ⟨fun _ ⟨_, hp, _⟩ => (by cases hp), fun _ => trivial⟩
  have hn := Program.offers_of_holds h₂.takes.holds hsc hkind
  refine (resolveStatements_decides p.body hs hn).imp (and_iff_right hcompatible).symm
    fun body' st₃ _ h₃ => ⟨h₃.proper, ?_, fun t he ht => ⟨?_, ?_, h₃.bound t he ht⟩⟩
  · have := h₃.opened
    rwa [hfills.size] at this
  · obtain ⟨sc', hsc', hkind', -⟩ := (h₃.extended.trans he).scope ScopeTree.global sc hsc
    exact ⟨sc', hsc', hkind'.trans hkind⟩
  · exact h₂.takes.holds.later (h₃.extended.trans he) h₂.takes.proper hsc

/-- A resolved program is the program with its names bound in the finished tree. -/
structure ResolvedProgram.Elaborates (p : Program) (r : ResolvedProgram) : Prop where
  proper : r.tree.Proper
  opened : ∃ sc, r.tree.scope? ScopeTree.global = some sc ∧ sc.kind = .global
  compatible : Compatible p.declarations
  holds : r.tree.Holds ScopeTree.global p.declarations
  body : StatementsElaborate r.tree ScopeTree.global p.body r.program.body
  scopes : OpenedFrom 1 (scopesInStatements r.program.body) r.tree.scopes.size
  «mutable» : ∀ b d, r.tree.binding? b = some d →
    d.mutable = (!d.kind.isImmutable && decide (0 < d.assignments))

theorem Program.resolved_of_resolve {p : Program} {r : ResolvedProgram}
    (h : p.resolve = .ok r) : r.Elaborates p := by
  obtain ⟨body, st, hrun, rfl⟩ := Program.resolve_eq_ok.1 h
  have hdecides := resolveTopLevel_decides p
  rw [Decides, hrun] at hdecides
  obtain ⟨hwellScoped, hproper, hscopes, hbound⟩ := hdecides
  have hfinished := (ScopeTree.recasts_finalizeMutability st.tree).proper hproper
  obtain ⟨hopened, hholds, hbody⟩ :=
    hbound _ (ScopeTree.extends_finalizeMutability st.tree) hfinished
  exact ⟨hfinished, hopened, hwellScoped.1, hholds, hbody, hscopes,
    fun b d hd => ScopeTree.mutable_finalizeMutability hd⟩

/-- A resolved program is the program with its names bound by lexical scoping in the finished
tree.  Its blocks and functions stand for the scopes other than the global one, in the order
of the text and each for another. -/
theorem Program.elaborates_of_resolve {p : Program} {r : ResolvedProgram}
    (h : p.resolve = .ok r) :
    StatementsElaborate r.tree ScopeTree.global p.body r.program.body ∧
      r.tree.Holds ScopeTree.global p.declarations ∧
      scopesInStatements r.program.body =
        (List.range' 1 (r.tree.scopes.size - 1)).map (fun i => some ⟨i⟩) ∧
      (scopesInStatements r.program.body).Nodup := by
  have hresolved := Program.resolved_of_resolve h
  obtain ⟨hscopes, hsize⟩ := hresolved.scopes
  refine ⟨hresolved.body, hresolved.holds, ?_, ?_⟩
  · rw [hsize, Nat.add_sub_cancel_left]
    exact hscopes
  · rw [hscopes]
    refine List.Nodup.map (fun i j hij => ?_) List.nodup_range'
    exact congrArg ScopeId.index (Option.some.inj hij)

/-- A use of a name before the `var` that hides an outer constant of that name, and the use
of a function expression's own name. -/
def hidden : Program where
  body :=
    let name (s : String) : Identifier := ⟨s, .unresolved⟩
    let span : SourceSpan := ⟨0, 0, 0, 0, 0, 0⟩
    let self : FunctionNode := ⟨some (name "g"), .expression, .plain, false, [], none,
      [.returning (some (.identifier (name "g")))], span, none, none, none⟩
    [.declaration .constDeclaration (name "x") (some (.literal (.number 1))) .slot,
      .function ⟨some (name "f"), .declaration, .plain, false, [name "p"], some (name "q"),
        [.expression (.assign (name "x") (.this none)),
          .block ⟨[.declaration .var (name "x") (some (.function self)) .slot], none⟩,
          .returning (some (.identifier (name "x")))], span, none, none, none⟩]

theorem isSome_resolve_hidden : hidden.resolve.toOption.isSome = true := by
  decide +kernel

theorem elaborates_hidden : ∃ r, hidden.resolve = .ok r ∧
    StatementsElaborate r.tree ScopeTree.global hidden.body r.program.body ∧
      scopesInStatements r.program.body = [some ⟨1⟩, some ⟨2⟩, some ⟨3⟩] := by
  have hr := Except.eq_ok_get isSome_resolve_hidden
  refine ⟨_, hr, (Program.elaborates_of_resolve hr).1, ?_⟩
  decide +kernel

/-- Resolution accepts exactly the well-scoped programs, and what it refuses it does not
refuse for internal reasons. -/
theorem Program.exists_resolve_iff_wellScoped (p : Program) :
    ((∃ r, p.resolve = .ok r) ↔ p.WellScoped) ∧
      ∀ e, p.resolve = .error e → (∀ name, e ≠ .missingDeclaration name) ∧
        (∀ s, e ≠ .scope (.unknownScope s)) ∧ ∀ b, e ≠ .scope (.unknownBinding b) := by
  have h := resolveTopLevel_decides p
  rw [Decides] at h
  rw [Program.resolve]
  cases hrun : resolveTopLevel p.body ⟨ScopeTree.initial, #[], []⟩ with
  | error e =>
    rw [StateT.run, hrun]
    rw [hrun] at h
    obtain ⟨hnot, hinternal⟩ := h
    refine ⟨⟨?_, fun hw => absurd hw hnot⟩, fun e' he' => ?_⟩
    · rintro ⟨r, hr⟩
      cases hr
    · obtain rfl : e = e' := Except.error.inj he'
      refine ⟨?_, ?_, ?_⟩ <;> rintro _ rfl <;> cases hinternal
  | ok result =>
    rw [StateT.run, hrun]
    rw [hrun] at h
    exact ⟨⟨fun _ => h.1, fun _ => ⟨_, rfl⟩⟩, fun e' he' => (by cases he')⟩

end ClosureCache
