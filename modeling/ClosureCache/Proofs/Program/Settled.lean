/-
What every program that resolves keeps to, whatever annotations it came with.

`Tidy` says of statements where their writes go: a `var` and a function statement write
a binding that holds a value from the start, a `let` or `const` what its own scope holds
under the name, and an assignment what may be assigned.  `FunctionNode.Settled` says the
same of the parts of a definition, and that everything its body refers to stands inside
of its scope.  The one annotation that resolution may keep is the arguments binding of a
definition; `P` is what the annotations of the program may be.

All of this holds of elaborated code, whose scopes hold the names that it declares, each for
a declaration that fits its place.
-/
import ClosureCache.Proofs.Program.Definitions
import ClosureCache.Proofs.Scope.Names

namespace ClosureCache

/-! ## Tidy code -/

/-- A name is bound, if at all, to what holds a value from the start. -/
def Identifier.Eager (t : ScopeTree) (i : Identifier) : Prop :=
  ∀ b, i.resolution = .binding b → t.Eager b

/-- A name is bound, if at all, to what a function declaration declares. -/
def Identifier.Hoisted (t : ScopeTree) (i : Identifier) : Prop :=
  ∀ b, i.resolution = .binding b → ∃ d, t.binding? b = some d ∧ d.kind = .functionDeclaration

theorem Identifier.Hoisted.eager {t : ScopeTree} {i : Identifier} (hi : i.Hoisted t) :
    i.Eager t := by
  intro b hb
  obtain ⟨d, hd, hkind⟩ := hi b hb
  exact ⟨d, hd, hkind ▸ rfl⟩

/-- What a declaration in the scope `s` writes. -/
def Identifier.WrittenAs (t : ScopeTree) (s : ScopeId) (i : Identifier) :
    DeclarationKind → Prop
  | .var => i.Eager t
  | _ => ∃ b, i.resolution = .binding b ∧ t.lookupLocal s i.name = some b ∧ ¬t.Eager b

/-- The name that a `let` or `const` declares. -/
def Statement.lexicalName? : Statement → Option String
  | .declaration .var _ _ _ => none
  | .declaration _ name _ _ => some name.name
  | _ => none

def lexicalNames (l : List Statement) : List String := l.filterMap Statement.lexicalName?

mutual

/-- A statement in the scope `s` writes only what it may. -/
def Statement.Tidy (t : ScopeTree) (s : ScopeId) : Statement → Prop
  | .declaration kind name none _ => name.WrittenAs t s kind
  | .declaration kind name (some init) _ => name.WrittenAs t s kind ∧ init.Tidy t
  | .function node => ∀ name, node.name = some name →
    name.Eager t ∧ (node.kind ≠ .expression → name.Hoisted t)
  | .expression e => e.Tidy t
  | .returning none => True
  | .returning (some value) => value.Tidy t
  | .block b => b.Tidy t
  | .ifElse test consequent none => test.Tidy t ∧ consequent.Tidy t
  | .ifElse test consequent (some alternate) =>
    test.Tidy t ∧ consequent.Tidy t ∧ alternate.Tidy t
  | .whileLoop test body => test.Tidy t ∧ body.Tidy t

def TidyStatements (t : ScopeTree) (s : ScopeId) : List Statement → Prop
  | [] => True
  | stmt :: rest => stmt.Tidy t s ∧ TidyStatements t s rest

/-- A block has a scope of its own, and its statements write only what they may. -/
def Block.Tidy (t : ScopeTree) : Block → Prop
  | ⟨body, scope⟩ => ∃ inner, scope = some inner ∧ (lexicalNames body).Nodup ∧
    TidyStatements t inner body

/-- An expression assigns only what may be assigned.  Definitions in it are looked at on
their own. -/
def Expression.Tidy (t : ScopeTree) : Expression → Prop
  | .literal _ => True
  | .identifier _ => True
  | .this _ => True
  | .object properties => TidyProperties t properties
  | .array elements => TidyExpressions t elements
  | .member object _ => object.Tidy t
  | .setMember object _ value => object.Tidy t ∧ value.Tidy t
  | .call callee arguments => callee.Tidy t ∧ TidyExpressions t arguments
  | .assign target value => value.Tidy t ∧ target.resolution.Assigned t
  | .binary _ left right => left.Tidy t ∧ right.Tidy t
  | .function _ => True
  | .dynamicEval _ => True

/-- The expressions of a list assign only what may be assigned. -/
def TidyExpressions (t : ScopeTree) : List Expression → Prop
  | [] => True
  | e :: rest => e.Tidy t ∧ TidyExpressions t rest

/-- The values of an object expression assign only what may be assigned. -/
def TidyProperties (t : ScopeTree) : List (String × Expression) → Prop
  | [] => True
  | (_, e) :: rest => e.Tidy t ∧ TidyProperties t rest

end

/-- The parts of a definition with the scope `own` are settled. -/
structure FunctionNode.Settled (P : BindingId → Prop) (t : ScopeTree) (own : ScopeId)
    (node : FunctionNode) : Prop where
  site : node.site.isSome = true
  scope : node.scope = some own
  opened : ∃ sc, t.scope? own = some sc ∧ sc.kind = .function ∧ sc.arrow = node.isArrow
  params : ∀ p ∈ node.params, p.Eager t ∧ p.BoundIn t own
  rest : ∀ r, node.rest = some r → r.Eager t ∧ r.BoundIn t own
  arguments : ∀ b, node.arguments = some b → t.Eager b ∧ t.Declares own b ∨ P b
  name : node.kind = .expression → ∀ name, node.name = some name →
    name.Eager t ∧ name.BoundIn t own
  distinct : (lexicalNames node.body).Nodup
  body : TidyStatements t own node.body
  references : ∀ r ∈ node.references, r.Within t own

/-- The arguments annotations of definitions are among the preset ones. -/
def Presets (P : BindingId → Prop) (l : List FunctionNode) : Prop :=
  ∀ f ∈ l, ∀ b, f.arguments = some b → P b

/-! ## Names that hold a value from the start -/

section Eager

variable {t : ScopeTree} {s own : ScopeId} {ds : List Declared} {i i' : Identifier}

theorem Identifier.eager_of_binding {name : String} {b : BindingId} (h : t.Eager b) :
    Identifier.Eager t ⟨name, .binding b⟩ := by
  intro c hc
  obtain rfl : b = c := Resolution.binding.inj hc
  exact h

/-- What a scope holds under a name is as lexical as any declaration of the name. -/
theorem ScopeTree.Announces.isLexical_eq {name : String} {kind : BindingKind} {b : BindingId}
    {d : Binding} (h : t.Announces s name kind) (hb : t.lookupLocal s name = some b)
    (hd : t.binding? b = some d) : d.kind.isLexical = kind.isLexical := by
  obtain ⟨b', d', hb', hd', hkind⟩ := h
  obtain rfl := Option.some.inj (hb'.symm.trans hb)
  obtain rfl := Option.some.inj (hd'.symm.trans hd)
  exact hkind.isLexical_eq

/-- What a scope holds under the name of a declaration that is no `let` or `const`. -/
theorem ScopeTree.Announces.eager {name : String} {kind : BindingKind} {b : BindingId}
    (h : t.Announces s name kind) (hkind : kind.isLexical = false)
    (hb : t.lookupLocal s name = some b) : t.Eager b := by
  have hlexical := fun d => h.isLexical_eq (d := d) hb
  obtain ⟨b', d, hb', hd, -⟩ := h
  obtain rfl := Option.some.inj (hb'.symm.trans hb)
  exact ⟨d, hd, (hlexical d hd).trans hkind⟩

/-- A name that the scope holds for a declaration that is no `let` or `const`. -/
theorem Identifier.HeldBy.eager (h : i.HeldBy t s i') (hholds : t.Holds s ds) (kind : BindingKind)
    (storage : Storage) (hd : ⟨i.name, kind, storage⟩ ∈ ds) (hkind : kind.isLexical = false) :
    i'.Eager t := by
  obtain ⟨b, hb, rfl⟩ := h
  exact Identifier.eager_of_binding ((hholds.held _ hd).eager hkind hb)

end Eager

/-! ## Declared names -/

/-- The `let` and `const` names are those among the declarations of a scope. -/
theorem lexicalNames_eq (l : List Statement) :
    lexicalNames l = ((lexicals l).filter fun d => d.kind.isLexical).map Declared.name := by
  induction l with
  | nil => rfl
  | cons stmt rest ih =>
    rw [lexicalNames, lexicals] at *
    cases stmt with
    | declaration kind name init storage =>
      cases kind with
      | var => exact ih
      | _ => exact congrArg (name.name :: ·) ih
    | function node =>
      rw [List.filterMap_cons_none (by rfl), ih, List.filterMap_cons, Statement.lexical?]
      cases node.name with
      | none => rfl
      | some name => rfl
    | _ => exact ih

/-- Declarations that fit one another have different `let` and `const` names. -/
theorem Compatible.nodup_lexicalNames {l : List Statement} (h : Compatible (lexicals l)) :
    (lexicalNames l).Nodup := by
  rw [lexicalNames_eq, List.Nodup, List.pairwise_map, List.pairwise_filter]
  have hlexical : ∀ k : BindingKind, k.isRepeatable = true → k.isLexical = false := by
    intro k
    cases k <;> decide
  refine h.imp fun {d e} hfits hd _ hname => ?_
  obtain ⟨hrepeatable, -⟩ := (BindingKind.mayMeet_iff _ _).1 (hfits hname)
  rw [hlexical d.kind hrepeatable] at hd
  cases hd

section Names

variable {t : ScopeTree} {s own : ScopeId}

/-- A declaration keeps its name. -/
theorem Statement.Elaborates.lexicalName?_eq {a a' : Statement} (h : a.Elaborates t s a') :
    a'.lexicalName? = a.lexicalName? := by
  cases h with
  | @declaration _ _ kind _ _ _ _ _ _ _ hname =>
    obtain ⟨b, -, rfl⟩ := hname
    cases kind <;> rfl
  | _ => rfl

theorem StatementsElaborate.lexicalNames_eq : ∀ {l l' : List Statement},
    StatementsElaborate t s l l' → lexicalNames l' = lexicalNames l
  | _, _, .nil => rfl
  | _, _, .cons h hrest => by
    rw [lexicalNames, List.filterMap_cons, h.lexicalName?_eq, ← lexicalNames,
      hrest.lexicalNames_eq, lexicalNames, lexicalNames, List.filterMap_cons]

/-- The name of a declaration, bound where the declaration belongs. -/
theorem Identifier.HeldBy.writtenAs {home : ScopeId} {kind : DeclarationKind}
    {i i' : Identifier} {init : Option Expression} {storage : Storage} (h : i.HeldBy t home i')
    (hhome : kind.Home t s home) (hn : t.Offers s
      (Statement.declaration kind i init storage).hoistedVars
      (Statement.declaration kind i init storage).lexical?.toList) : i'.WrittenAs t s kind := by
  obtain ⟨b, hb, rfl⟩ := h
  obtain ⟨k, hannounced, hlexical⟩ := hn.declaration hhome
  -- a `let` or `const` is a binding of its own
  have hown : kind ≠ .var → ¬t.Eager b := by
    rintro hne ⟨d, hd, heager⟩
    rw [hannounced.isLexical_eq hb hd, hlexical.2 hne] at heager
    cases heager
  cases kind with
  | var =>
    have hk : k.isLexical = false := Bool.not_eq_true _ ▸ fun hk => hlexical.1 hk rfl
    exact Identifier.eager_of_binding (hannounced.eager hk hb)
  | letDeclaration =>
    obtain rfl : home = s := hhome
    exact ⟨b, rfl, hb, hown (by decide)⟩
  | constDeclaration =>
    obtain rfl : home = s := hhome
    exact ⟨b, rfl, hb, hown (by decide)⟩

variable {node node' : FunctionNode} {name : Option Identifier}

/-- The own name of a function expression holds a value from the start. -/
theorem FunctionNode.Opens.eager_ownName (h : node.Opens t s own name node')
    (hkind : node'.kind = .expression) {j : Identifier} (hj : node'.name = some j) :
    j.Eager t := by
  obtain ⟨i, rfl, hi⟩ := h.exists_of_ownName hkind hj
  obtain ⟨i₀, hi₀, hsame⟩ := Option.map_eq_some_iff.1 h.named.symm
  rw [BindsOwnName] at hi
  split at hi
  · subst hi
    intro b hb
    cases hb
  · next hnone =>
    refine hi.eager h.holds .functionName .slot ?_ rfl
    rw [visibleName_of_some (h.same.1 ▸ hkind) hi₀, hsame, if_neg hnone]
    exact List.mem_append_right _ List.mem_cons_self

/-- The name of a function statement is that of a function declaration, unless it is bound
again as the own name of a function expression. -/
theorem FunctionNode.Elaborates.tidyName {vars : List Declared}
    (h : node.Elaborates t s name node') (hname : Option.Rel (Identifier.HeldBy t s) node.name name)
    (hn : t.Offers s vars (Statement.function node).lexical?.toList) :
    (Statement.function node').Tidy t s := by
  obtain ⟨hopens, -⟩ := h
  intro j hj
  by_cases hkind : node'.kind = .expression
  · exact ⟨hopens.eager_ownName hkind hj, fun hne => absurd hkind hne⟩
  · generalize hgiven : node.name = given at hname
    obtain rfl := (hopens.kept (hopens.same.1 ▸ hkind)).symm.trans hj
    cases hname with
    | @some i _ hheld =>
      obtain ⟨b, hb, rfl⟩ := hheld
      obtain ⟨b', d, hb', hd, hfunction⟩ := hn.function hgiven
      obtain rfl := Option.some.inj (hb'.symm.trans hb)
      have hhoisted : Identifier.Hoisted t { i with resolution := .binding b' } := fun c hc => by
        obtain rfl : b' = c := Resolution.binding.inj hc
        exact ⟨d, hd, hfunction⟩
      exact ⟨hhoisted.eager, fun _ => hhoisted⟩

end Names

/-! ## Code -/

section Code

variable {t : ScopeTree}

mutual

theorem Statement.Elaborates.tidy : ∀ {s : ScopeId} {a a' : Statement}, a.Elaborates t s a' →
    t.Offers s a.hoistedVars a.lexical?.toList → a'.Tidy t s
  | _, _, _, .declaration .none hhome hname, hn => hname.writtenAs hhome hn
  | _, _, _, .declaration (.some hinit) hhome hname, hn =>
    ⟨hname.writtenAs hhome hn, hinit.tidy⟩
  | _, _, _, .function hname hnode, hn => FunctionNode.Elaborates.tidyName hnode hname hn
  | _, _, _, .expression h, _ => Expression.Elaborates.tidy h
  | _, _, _, .returning .none, _ => trivial
  | _, _, _, .returning (.some h), _ => h.tidy
  | _, _, _, .block h, hn => Block.Elaborates.tidy h hn
  | _, _, _, .ifElse htest hconsequent .none, hn => ⟨htest.tidy, hconsequent.tidy hn.thenBranch⟩
  | _, _, _, .ifElse htest hconsequent (.some halternate), hn =>
    ⟨htest.tidy, hconsequent.tidy hn.thenBranch, halternate.tidy hn.elseBranch⟩
  | _, _, _, .whileLoop htest hbody, hn => ⟨htest.tidy, hbody.tidy hn⟩
termination_by structural _ _ _ h => h

theorem StatementsElaborate.tidy : ∀ {s : ScopeId} {l l' : List Statement},
    StatementsElaborate t s l l' → t.Offers s (hoistedVars l) (lexicals l) → TidyStatements t s l'
  | _, _, _, .nil, _ => trivial
  | _, _, _, .cons h hrest, hn => ⟨h.tidy hn.head, hrest.tidy hn.tail⟩
termination_by structural _ _ _ h => h

theorem Block.Elaborates.tidy : ∀ {s : ScopeId} {b b' : Block}, b.Elaborates t s b' →
    t.Offers s b.hoistedVars [] → b'.Tidy t
  | _, _, _, .intro hinner hkind hparent hcompatible hholds hbody, hn =>
    ⟨_, rfl, hbody.lexicalNames_eq ▸ hcompatible.nodup_lexicalNames,
      hbody.tidy (hn.enter hinner hkind hparent hholds)⟩
termination_by structural _ _ _ h => h

theorem Expression.Elaborates.tidy : ∀ {s : ScopeId} {e e' : Expression},
    e.Elaborates t s e' → e'.Tidy t
  | _, _, _, .literal => trivial
  | _, _, _, .identifier => trivial
  | _, _, _, .this _ => trivial
  | _, _, _, .object h => PropertiesElaborate.tidy h
  | _, _, _, .array h => ExpressionsElaborate.tidy h
  | _, _, _, .member h => (h.tidy :)
  | _, _, _, .setMember hobject hvalue => ⟨hobject.tidy, hvalue.tidy⟩
  | _, _, _, .call hcallee harguments => ⟨hcallee.tidy, harguments.tidy⟩
  | _, _, _, .assign hvalue hassigned => ⟨hvalue.tidy, hassigned⟩
  | _, _, _, .binary hleft hright => ⟨hleft.tidy, hright.tidy⟩
  | _, _, _, .function _ => trivial
  | _, _, _, .dynamicEval => trivial
termination_by structural _ _ _ h => h

theorem ExpressionsElaborate.tidy : ∀ {s : ScopeId} {l l' : List Expression},
    ExpressionsElaborate t s l l' → TidyExpressions t l'
  | _, _, _, .nil => trivial
  | _, _, _, .cons h hrest => ⟨h.tidy, hrest.tidy⟩
termination_by structural _ _ _ h => h

theorem PropertiesElaborate.tidy : ∀ {s : ScopeId} {l l' : List (String × Expression)},
    PropertiesElaborate t s l l' → TidyProperties t l'
  | _, _, _, .nil => trivial
  | _, _, _, .cons h hrest => ⟨h.tidy, hrest.tidy⟩
termination_by structural _ _ _ h => h

end

end Code

/-! ## Definitions -/

section Definitions

variable {P : BindingId → Prop} {t : ScopeTree} {s own : ScopeId} {node node' : FunctionNode}
  {name : Option Identifier}

/-- What a function declares for itself is bound in its own scope, and holds a value from the
start. -/
theorem FunctionNode.Opens.parts (h : node.Opens t s own name node') (ht : t.Proper) :
    (∀ p ∈ node'.params, p.Eager t ∧ p.BoundIn t own) ∧
      ∀ r, node'.rest = some r → r.Eager t ∧ r.BoundIn t own := by
  refine ⟨fun p hp => ?_, fun r hr => ?_⟩
  · obtain ⟨i, hi, hheld⟩ := h.exists_of_mem_params hp
    refine ⟨hheld.eager h.holds .parameter .slot ?_ rfl, hheld.boundIn ht⟩
    have : (⟨i.name, .parameter, .slot⟩ : Declared) ∈ node.parameters :=
      List.mem_append_left _ (List.mem_map.2 ⟨i, hi, rfl⟩)
    simp [declarations, this]
  · obtain ⟨i, hi, hheld⟩ := h.exists_of_rest hr
    refine ⟨hheld.eager h.holds .rest .slot ?_ rfl, hheld.boundIn ht⟩
    have : (⟨i.name, .rest, .slot⟩ : Declared) ∈ node.parameters :=
      List.mem_append_right _ (List.mem_map.2 ⟨i, Option.mem_toList.2 hi, rfl⟩)
    simp [declarations, this]

/-- The arguments collection, unless the definition came with a binding for it. -/
theorem FunctionNode.Opens.arguments_cases (h : node.Opens t s own name node') (ht : t.Proper)
    {b : BindingId} (hb : node'.arguments = some b) :
    t.Eager b ∧ t.Declares own b ∨ node.arguments = some b := by
  have harguments := h.arguments
  split at harguments
  · exact .inr (harguments ▸ hb)
  · next hdeclared =>
    obtain ⟨c, hc, heq⟩ := harguments
    obtain rfl := Option.some.inj (heq.symm.trans hb)
    have hmem : (⟨"arguments", .arguments, .slot⟩ : Declared) ∈ node.implicitArguments := by
      rw [implicitArguments] at hdeclared ⊢
      split at hdeclared
      · exact absurd rfl hdeclared
      · next hnot => rw [if_neg hnot]; exact List.mem_cons_self
    have hheld := h.holds.held _ (List.mem_append_left _ (List.mem_append_left _
      (List.mem_append_left _ (List.mem_append_right _ hmem))))
    exact .inl ⟨hheld.eager rfl hc, ht.lookupLocal_spec hc⟩

/-- Definitions in elaborated code are settled. -/
theorem FunctionNode.Elaborates.settled (h : node.Elaborates t s name node') (ht : t.Proper)
    (hp : ∀ b, node.arguments = some b → P b) : ∃ own, node'.Settled P t own := by
  have helaborated : node.Elaborated t node' := ⟨s, name, h⟩
  cases h with
  | @intro _ own _ _ _ hopens hbody =>
    obtain ⟨sc, hsc, hkind, -, harrow⟩ := hopens.opened
    obtain ⟨hparams, hrest⟩ := hopens.parts ht
    have hoffers := offers_of_holds hopens.holds hsc hkind
    refine ⟨own, hopens.site, hopens.scope, ⟨sc, hsc, hkind, hopens.isArrow_eq ▸ harrow⟩, hparams,
      hrest, fun b hb => (hopens.arguments_cases ht hb).imp_right (hp b), fun hexpression j hj =>
        ⟨hopens.eager_ownName hexpression hj, ?_⟩, ?_, hbody.tidy hoffers, fun r hr => ?_⟩
    · obtain ⟨i, -, hi⟩ := hopens.exists_of_ownName hexpression hj
      exact hi.boundIn ht
    · rw [hbody.lexicalNames_eq]
      have hlexicals := (List.pairwise_append.1 hopens.compatible).2.1
      exact Compatible.nodup_lexicalNames hlexicals
    · obtain ⟨path, hocc⟩ := (Code.enumerated_definition node').mem_iff.1 hr
      obtain ⟨a, sca, hsca, hin, hmeant⟩ := helaborated.exists_place ht hopens.scope hocc
      exact ⟨a, sca, hsca, hin, hmeant.visible ht⟩

end Definitions

/-! ## Programs -/

/-- What resolution makes of any program. -/
structure ResolvedProgram.Settled (P : BindingId → Prop) (r : ResolvedProgram) : Prop where
  proper : r.tree.Proper
  functions : ∀ f ∈ r.program.functions, ∃ own, f.Settled P r.tree own
  distinct : (lexicalNames r.program.body).Nodup
  body : TidyStatements r.tree ScopeTree.global r.program.body
  «mutable» : ∀ b d, r.tree.binding? b = some d →
    d.mutable = (!d.kind.isImmutable && decide (0 < d.assignments))

theorem Program.settled_of_resolve {P : BindingId → Prop} {p : Program} {r : ResolvedProgram}
    (h : p.resolve = .ok r) (hp : Presets P p.functions) : r.Settled P := by
  have hresolved := Program.resolved_of_resolve h
  obtain ⟨sc, hsc, hkind⟩ := hresolved.opened
  have hoffers := Program.offers_of_holds hresolved.holds hsc hkind
  refine ⟨hresolved.proper, fun f hf => ?_, ?_, hresolved.body.tidy hoffers, hresolved.mutable⟩
  · obtain ⟨f₀, hf₀, s, name, helaborates⟩ := hresolved.definition hf
    exact helaborates.settled hresolved.proper (hp f₀ hf₀)
  · rw [hresolved.body.lexicalNames_eq]
    have hlexicals := (List.pairwise_append.1 hresolved.compatible).2.1
    exact Compatible.nodup_lexicalNames hlexicals

end ClosureCache
