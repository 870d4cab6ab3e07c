/-
What resolution reads of a program, and what it leaves.

Resolution fills in annotations and changes nothing else: without its annotations the
program that comes out is the one that went in.  It also reads none.  So a program that is
resolved already resolves to itself, and programs that differ in their annotations alone
have one scope tree and one table of sites, or are refused for one reason.

Some annotations are kept where others are written over: the arguments binding of a
function that declares none, and the name of a definition that is no function expression.
`Tracks` runs the program with its annotations beside the program without; the induction
over the syntax shows on the way that what comes out resolves to itself.
-/
import ClosureCache.Proofs.Capture
import ClosureCache.Proofs.Program.Registration

namespace ClosureCache

/-! ## Programs without annotations -/

def Identifier.bare (i : Identifier) : Identifier := ⟨i.name, .unresolved⟩

mutual

/-- The statement without annotations. -/
def Statement.bare : Statement → Statement
  | .declaration kind name init storage => .declaration kind name.bare (bareOptional init) storage
  | .function node => .function node.bare
  | .expression e => .expression e.bare
  | .returning value => .returning (bareOptional value)
  | .block b => .block b.bare
  | .ifElse test consequent alternate =>
    .ifElse test.bare consequent.bare (bareAlternate alternate)
  | .whileLoop test body => .whileLoop test.bare body.bare

def bareStatements : List Statement → List Statement
  | [] => []
  | s :: rest => s.bare :: bareStatements rest

/-- The block without annotations: its own scope and those inside. -/
def Block.bare : Block → Block
  | ⟨body, _⟩ => ⟨bareStatements body, none⟩

/-- The branch without annotations, if there is one. -/
def bareAlternate : Option Block → Option Block
  | none => none
  | some b => some b.bare

/-- The definition without annotations: its site, scope and arguments binding, and those of
its names and its body. -/
def FunctionNode.bare : FunctionNode → FunctionNode
  | ⟨name, kind, flavor, memoized, params, rest, body, span, _, _, _⟩ =>
    ⟨name.map Identifier.bare, kind, flavor, memoized, params.map Identifier.bare,
      rest.map Identifier.bare, bareStatements body, span, none, none, none⟩

def Expression.bare : Expression → Expression
  | .literal l => .literal l
  | .identifier i => .identifier i.bare
  | .this _ => .this none
  | .object properties => .object (bareProperties properties)
  | .array elements => .array (bareExpressions elements)
  | .member object property => .member object.bare property
  | .setMember object property value => .setMember object.bare property value.bare
  | .call callee arguments => .call callee.bare (bareExpressions arguments)
  | .assign target value => .assign target.bare value.bare
  | .binary op left right => .binary op left.bare right.bare
  | .function node => .function node.bare
  | .dynamicEval source => .dynamicEval source

def bareOptional : Option Expression → Option Expression
  | none => none
  | some e => some e.bare

def bareExpressions : List Expression → List Expression
  | [] => []
  | e :: rest => e.bare :: bareExpressions rest

/-- The values of an object expression without annotations. -/
def bareProperties : List (String × Expression) → List (String × Expression)
  | [] => []
  | (key, e) :: rest => (key, e.bare) :: bareProperties rest

end

def Program.bare (p : Program) : Program := ⟨bareStatements p.body⟩

/-! ## Names -/

theorem Option.map_bare (n : Option Identifier) :
    n.map Identifier.bare = (n.map Identifier.name).map fun s => ⟨s, .unresolved⟩ := by
  cases n <;> rfl

theorem List.map_bare (l : List Identifier) :
    l.map Identifier.bare = (l.map Identifier.name).map fun s => ⟨s, .unresolved⟩ := by
  rw [List.map_map]
  rfl

theorem Option.map_name_bare (n : Option Identifier) :
    (n.map Identifier.bare).map Identifier.name = n.map Identifier.name := by
  cases n <;> rfl

theorem List.map_name_bare (l : List Identifier) :
    (l.map Identifier.bare).map Identifier.name = l.map Identifier.name := by
  rw [List.map_map]
  rfl

theorem FunctionNode.map_name_bare (node : FunctionNode) :
    node.bare.name.map Identifier.name = node.name.map Identifier.name := by
  cases node
  exact Option.map_name_bare _

/-! ## Declarations -/

theorem Statement.lexical?_bare (s : Statement) : s.bare.lexical? = s.lexical? := by
  cases s with
  | declaration kind => cases kind <;> rfl
  | function node =>
    have h := congrArg (Option.map fun name => (⟨name, .functionDeclaration, .slot⟩ : Declared))
      node.map_name_bare
    rwa [Option.map_map, Option.map_map] at h
  | _ => rfl

theorem lexicals_bare (l : List Statement) : lexicals (bareStatements l) = lexicals l := by
  induction l with
  | nil => rfl
  | cons s rest ih =>
    rw [bareStatements, lexicals, List.filterMap_cons, s.lexical?_bare, lexicals,
      List.filterMap_cons]
    simp only [lexicals] at ih
    rw [ih]

mutual

theorem Statement.hoistedVars_bare : ∀ s : Statement, s.bare.hoistedVars = s.hoistedVars
  | .declaration kind name init storage => by cases kind <;> rfl
  | .function _ => rfl
  | .expression _ => rfl
  | .returning _ => rfl
  | .block b => Block.hoistedVars_bare b
  | .ifElse _ consequent none => Block.hoistedVars_bare consequent
  | .ifElse _ consequent (some alternate) => by
    rw [Statement.bare, bareAlternate, Statement.hoistedVars, Statement.hoistedVars,
      Block.hoistedVars_bare consequent, Block.hoistedVars_bare alternate]
  | .whileLoop _ body => Block.hoistedVars_bare body
termination_by structural s => s

theorem Block.hoistedVars_bare : ∀ b : Block, b.bare.hoistedVars = b.hoistedVars
  | ⟨body, _⟩ => ClosureCache.hoistedVars_bare body
termination_by structural b => b

theorem hoistedVars_bare : ∀ l : List Statement, hoistedVars (bareStatements l) = hoistedVars l
  | [] => rfl
  | s :: rest => by
    rw [bareStatements, hoistedVars, hoistedVars, Statement.hoistedVars_bare s,
      ClosureCache.hoistedVars_bare rest]
termination_by structural l => l

end

theorem lexicals_congr {l l' : List Statement} (h : bareStatements l' = bareStatements l) :
    lexicals l' = lexicals l := by
  rw [← lexicals_bare l', h, lexicals_bare]

theorem hoistedVars_congr {l l' : List Statement} (h : bareStatements l' = bareStatements l) :
    hoistedVars l' = hoistedVars l := by
  rw [← hoistedVars_bare l', h, hoistedVars_bare]

/-! ## Runs side by side -/

namespace ResolveM

/-- Two outcomes fail for one reason, or succeed in one state with results that are as `L`
says. -/
inductive Agree {α : Type} (L : α → α → Scoping → Prop) :
    Except ResolveError (α × Scoping) → Except ResolveError (α × Scoping) → Prop
  | error (e : ResolveError) : Agree L (.error e) (.error e)
  | ok {a b : α} {st : Scoping} : L a b st → Agree L (.ok (a, st)) (.ok (b, st))

/-- From the state `st` the second computation has the outcome of the first. -/
def Tracks {α : Type} (x y : ResolveM α) (st : Scoping) (L : α → α → Scoping → Prop) : Prop :=
  Agree L (x st) (y st)

section Rules

variable {α β : Type} {x y : ResolveM α} {f g : α → ResolveM β} {st : Scoping}
  {L : α → α → Scoping → Prop} {M : β → β → Scoping → Prop}

theorem Tracks.pure {a b : α} (h : L a b st) : Tracks (pure a) (pure b) st L := .ok h

theorem Tracks.imp {M : α → α → Scoping → Prop} (h : Tracks x y st L)
    (hLM : ∀ a b st', L a b st' → M a b st') : Tracks x y st M := by
  rw [Tracks] at h ⊢
  generalize x st = r at h
  generalize y st = r' at h
  cases h with
  | error e => exact .error e
  | ok h => exact .ok (hLM _ _ _ h)

theorem Tracks.bind (hx : Tracks x y st L)
    (hf : ∀ a b st', L a b st' → Tracks (f a) (g b) st' M) :
    Tracks (x >>= f) (y >>= g) st M := by
  show Agree M (x st >>= fun p => f p.1 p.2) (y st >>= fun p => g p.1 p.2)
  rw [Tracks] at hx
  generalize x st = r at hx
  generalize y st = r' at hx
  cases hx with
  | error e => exact .error e
  | ok h => exact hf _ _ _ h

/-- The two computations are the same. -/
theorem Tracks.same (hxy : y = x) (h : ∀ a st', x st = .ok (a, st') → L a a st') :
    Tracks x y st L := by
  subst hxy
  rw [Tracks]
  cases hy : y st with
  | error e => exact .error e
  | ok r => exact .ok (h _ _ hy)

/-- The same computation comes first in both. -/
theorem Tracks.andThen (hxy : y = x)
    (hf : ∀ a st', x st = .ok (a, st') → Tracks (f a) (g a) st' M) :
    Tracks (x >>= f) (y >>= g) st M := by
  have hx : Tracks x y st fun a b st' => b = a ∧ x st = .ok (a, st') :=
    .same hxy fun _ _ ha => ⟨rfl, ha⟩
  refine hx.bind ?_
  rintro a _ st' ⟨rfl, ha⟩
  exact hf _ st' ha

end Rules

section Branches

variable {β : Type} {st st' : Scoping} {kind : DeclarationKind} {scope : ScopeId} {c c' : Bool}
  {note : ResolveM Unit}

/-- The scope that takes a declaration of a kind. -/
def homeOf (kind : DeclarationKind) (scope : ScopeId) : ResolveM ScopeId :=
  if kind = .var then ask fun t => t.varScope scope else pure scope

theorem homeOf_bind (f : ScopeId → ResolveM β) :
    (if kind = .var then ask (fun t => t.varScope scope) >>= f else pure scope >>= f) =
      homeOf kind scope >>= f := by
  rw [homeOf]
  split <;> rfl

/-- A note that is taken under a condition. -/
def noteIf (c : Bool) (note : ResolveM Unit) : ResolveM Unit := if c = true then note else pure ()

theorem noteIf_bind (f : Unit → ResolveM β) :
    (if c = true then note >>= f else f ()) = noteIf c note >>= f := by
  cases c <;> rfl

variable {M : β → β → Scoping → Prop}

/-- The scope that takes a declaration is the same in both. -/
theorem Tracks.home {f g : ScopeId → ResolveM β}
    (hf : ∀ home st', homeOf kind scope st = .ok (home, st') →
      Tracks (f home) (g home) st' M) :
    Tracks (if kind = .var then ask (fun t => t.varScope scope) >>= f else Pure.pure scope >>= f)
      (if kind = .var then ask (fun t => t.varScope scope) >>= g else Pure.pure scope >>= g)
      st M := by
  rw [homeOf_bind, homeOf_bind]
  exact .andThen rfl hf

/-- What is noted under a condition is noted under it in both. -/
theorem Tracks.noteIf {f g : Unit → ResolveM β} (hc : c' = c)
    (hf : ∀ st', noteIf c note st = .ok ((), st') → Tracks (f ()) (g ()) st' M) :
    Tracks (if c = true then note >>= f else f ()) (if c' = true then note >>= g else g ())
      st M := by
  rw [noteIf_bind, noteIf_bind, hc]
  exact .andThen rfl fun _ => hf

theorem home_eq_ok {home : ScopeId} {f : ScopeId → ResolveM β} {r : β × Scoping}
    (hhome : homeOf kind scope st = .ok (home, st')) (h : f home st' = .ok r) :
    (if kind = .var then ask (fun t => t.varScope scope) >>= f else pure scope >>= f) st =
      .ok r := by
  rw [homeOf_bind]
  exact bind_eq_ok.2 ⟨home, st', hhome, h⟩

theorem noteIf_eq_ok {f : Unit → ResolveM β} {r : β × Scoping}
    (hnote : noteIf c note st = .ok ((), st')) (h : f () st' = .ok r) :
    (if c = true then note >>= f else f ()) st = .ok r := by
  rw [noteIf_bind]
  exact bind_eq_ok.2 ⟨(), st', hnote, h⟩

end Branches

variable {st st' : Scoping} {scope : ScopeId}

/-! ## Steps that read names alone -/

theorem enterFunction_congr {parent : ScopeId} {node node' : FunctionNode}
    (hname : node'.name.map Identifier.name = node.name.map Identifier.name)
    (hkind : node'.kind = node.kind) (hflavor : node'.flavor = node.flavor)
    (hmemoized : node'.memoized = node.memoized) (hspan : node'.span = node.span) :
    enterFunction parent node' = enterFunction parent node := by
  have harrow : node'.isArrow = node.isArrow := congrArg (· == .arrow) hkind
  rw [enterFunction, enterFunction, hname, hkind, hflavor, hmemoized, hspan, harrow]

theorem declareParams_congr : ∀ {l l' : List Identifier},
    l'.map Identifier.name = l.map Identifier.name →
      declareParams scope l' = declareParams scope l
  | [], [], _ => rfl
  | i :: rest, j :: rest', h => by
    rw [List.map_cons, List.map_cons, List.cons.injEq] at h
    rw [declareParams, declareParams, h.1, declareParams_congr h.2]

theorem declareParams_names {l l' : List Identifier}
    (h : declareParams scope l st = .ok (l', st')) :
    l'.map Identifier.name = l.map Identifier.name := by
  induction l generalizing st l' with
  | nil =>
    obtain ⟨rfl, -⟩ := pure_eq_ok.1 h
    rfl
  | cons i rest ih =>
    obtain ⟨b, st₁, -, h⟩ := bind_eq_ok.1 h
    obtain ⟨rest', st₂, hrest, h⟩ := bind_eq_ok.1 h
    obtain ⟨rfl, rfl⟩ := pure_eq_ok.1 h
    rw [List.map_cons, List.map_cons, ih hrest]

theorem declareRest_congr {r r' : Option Identifier}
    (h : r'.map Identifier.name = r.map Identifier.name) :
    declareRest scope r' = declareRest scope r := by
  cases r with
  | none => rw [Option.map_eq_none_iff.1 h]
  | some i =>
    obtain ⟨j, rfl, hj⟩ := Option.map_eq_some_iff.1 h
    rw [declareRest, declareRest, hj]

theorem declareRest_name {r r' : Option Identifier}
    (h : declareRest scope r st = .ok (r', st')) :
    r'.map Identifier.name = r.map Identifier.name := by
  cases r with
  | none =>
    obtain ⟨rfl, -⟩ := pure_eq_ok.1 h
    rfl
  | some i =>
    obtain ⟨b, st₁, -, h⟩ := bind_eq_ok.1 h
    obtain ⟨rfl, -⟩ := pure_eq_ok.1 h
    rfl

theorem bindName_congr {n n' : Option Identifier}
    (h : n'.map Identifier.name = n.map Identifier.name) :
    bindName scope n' = bindName scope n := by
  cases n with
  | none => rw [Option.map_eq_none_iff.1 h]
  | some i =>
    obtain ⟨j, rfl, hj⟩ := Option.map_eq_some_iff.1 h
    rw [bindName, bindName, hj]

/-- Whether a function declares its arguments collection depends on its form alone; where
it does not, the annotation stays. -/
theorem declareArguments_tracks {node node' : FunctionNode} (h : node'.isArrow = node.isArrow) :
    Tracks (declareArguments scope node) (declareArguments scope node') st fun a _ st' =>
      ∀ again : FunctionNode, again.isArrow = node.isArrow → again.arguments = a →
        declareArguments scope again st = .ok (a, st') := by
  rw [declareArguments, declareArguments, h]
  refine .andThen rfl fun t st₁ htree => ?_
  split
  · next hdeclares =>
    refine .andThen rfl fun b st₂ hb => .pure fun again harrow _ => ?_
    rw [declareArguments, harrow]
    refine bind_eq_ok.2 ⟨t, st₁, htree, ?_⟩
    rw [if_pos hdeclares]
    exact bind_eq_ok.2 ⟨b, st₂, hb, rfl⟩
  · next hdeclares =>
    refine .pure fun again harrow harguments => ?_
    rw [declareArguments, harrow]
    refine bind_eq_ok.2 ⟨t, st₁, htree, ?_⟩
    rw [if_neg hdeclares, harguments]
    rfl

/-- The own name of a function expression is bound anew whatever it was bound to. -/
theorem declareOwnName_congr {kind : FunctionKind} {n n' : Option Identifier}
    (h : n'.map Identifier.name = n.map Identifier.name)
    (hstays : kind ≠ .expression → n' = n) :
    declareOwnName scope kind n' = declareOwnName scope kind n := by
  by_cases hkind : kind = .expression
  · cases n with
    | none => rw [Option.map_eq_none_iff.1 h]
    | some i =>
      obtain ⟨j, rfl, hj⟩ := Option.map_eq_some_iff.1 h
      rw [declareOwnName, declareOwnName, if_pos hkind, if_pos hkind, hj]
  · rw [hstays hkind]

/-- The own name of a function expression is bound anew, and every other name stays. -/
theorem declareOwnName_tracks {kind : FunctionKind} {n n' : Option Identifier}
    (h : n'.map Identifier.name = n.map Identifier.name) :
    Tracks (declareOwnName scope kind n) (declareOwnName scope kind n') st fun m _ st' =>
      m.map Identifier.name = n.map Identifier.name ∧ (kind ≠ .expression → m = n) ∧
        declareOwnName scope kind n st = .ok (m, st') := by
  by_cases hkind : kind = .expression
  · refine .same (declareOwnName_congr h fun hne => absurd hkind hne) fun m st' hm => ?_
    exact ⟨declareOwnName_name hm, fun hne => absurd hkind hne, hm⟩
  · have hpure : ∀ k, declareOwnName scope kind k = pure k := by
      intro k
      cases k with
      | none => rfl
      | some i => rw [declareOwnName, if_neg hkind]
    rw [hpure n, hpure n']
    exact .pure ⟨rfl, fun _ => rfl, rfl⟩

end ResolveM

/-! ## Code -/

section Code

open ResolveM

mutual

/-- Resolving a statement keeps the statement but for annotations, of which it reads none,
and the result resolves to itself. -/
theorem Statement.resolve_tracks {scope : ScopeId} {inLoop : Bool} :
    ∀ (s : Statement) {st : Scoping},
      Tracks (s.resolve scope inLoop) (s.bare.resolve scope inLoop) st fun s' _ st' =>
        s'.bare = s.bare ∧ s'.resolve scope inLoop st = .ok (s', st')
  | .declaration kind name init storage, st => by
    rw [Statement.bare, Statement.resolve, Statement.resolve]
    refine (resolveOptional_tracks init).bind ?_
    rintro init' init'' st₁ ⟨hsome, hbare, hinit⟩
    refine Tracks.home fun home st₂ hhome => ?_
    refine .andThen rfl fun b st₃ hb => ?_
    refine Tracks.noteIf (by rw [hsome]) fun st₄ hnote => ?_
    refine .pure ⟨?_, ?_⟩
    · rw [Statement.bare, hbare]
      rfl
    · rw [Statement.resolve]
      refine bind_eq_ok.2 ⟨_, _, hinit, ?_⟩
      refine home_eq_ok hhome ?_
      refine bind_eq_ok.2 ⟨_, _, hb, ?_⟩
      exact noteIf_eq_ok hnote rfl
  | .function node, st => by
    rw [Statement.bare, Statement.resolve, Statement.resolve]
    refine .andThen (bindName_congr node.map_name_bare) fun n st₁ hn => ?_
    have hnames := bindName_name hn
    refine (FunctionNode.resolve_tracks node hnames hnames).bind ?_
    rintro node' _ st₂ ⟨hbare, -, hnode⟩
    refine .pure ⟨?_, ?_⟩
    · rw [Statement.bare, hbare]
    · rw [Statement.resolve]
      refine bind_eq_ok.2 ⟨n, st₁, ?_, bind_eq_ok.2 ⟨_, _, hnode n hnames fun _ => rfl, rfl⟩⟩
      rw [← hn]
      refine congrFun (bindName_congr ?_) st
      rw [← node'.map_name_bare, hbare, node.map_name_bare]
  | .expression e, st => by
    rw [Statement.bare, Statement.resolve, Statement.resolve]
    refine (Expression.resolve_tracks e).bind ?_
    rintro e' _ st₁ ⟨hbare, he⟩
    refine .pure ⟨?_, ?_⟩
    · rw [Statement.bare, hbare]
    · rw [Statement.resolve]
      exact bind_eq_ok.2 ⟨_, _, he, rfl⟩
  | .returning value, st => by
    rw [Statement.bare, Statement.resolve, Statement.resolve]
    refine (resolveOptional_tracks value).bind ?_
    rintro value' _ st₁ ⟨-, hbare, hvalue⟩
    refine .pure ⟨?_, ?_⟩
    · rw [Statement.bare, hbare]
    · rw [Statement.resolve]
      exact bind_eq_ok.2 ⟨_, _, hvalue, rfl⟩
  | .block b, st => by
    rw [Statement.bare, Statement.resolve, Statement.resolve]
    refine (Block.resolve_tracks b).bind ?_
    rintro b' _ st₁ ⟨hbare, hb⟩
    refine .pure ⟨?_, ?_⟩
    · rw [Statement.bare, hbare]
    · rw [Statement.resolve]
      exact bind_eq_ok.2 ⟨_, _, hb, rfl⟩
  | .ifElse test consequent alternate, st => by
    rw [Statement.bare, Statement.resolve, Statement.resolve]
    refine (Expression.resolve_tracks test).bind ?_
    rintro test' _ st₁ ⟨hbare₁, htest⟩
    refine (Block.resolve_tracks consequent).bind ?_
    rintro consequent' _ st₂ ⟨hbare₂, hconsequent⟩
    refine (resolveAlternate_tracks alternate).bind ?_
    rintro alternate' _ st₃ ⟨hbare₃, halternate⟩
    refine .pure ⟨?_, ?_⟩
    · rw [Statement.bare, hbare₁, hbare₂, hbare₃]
    · rw [Statement.resolve]
      exact bind_eq_ok.2 ⟨_, _, htest, bind_eq_ok.2 ⟨_, _, hconsequent,
        bind_eq_ok.2 ⟨_, _, halternate, rfl⟩⟩⟩
  | .whileLoop test body, st => by
    rw [Statement.bare, Statement.resolve, Statement.resolve]
    refine (Expression.resolve_tracks test).bind ?_
    rintro test' _ st₁ ⟨hbare₁, htest⟩
    refine (Block.resolve_tracks body).bind ?_
    rintro body' _ st₂ ⟨hbare₂, hbody⟩
    refine .pure ⟨?_, ?_⟩
    · rw [Statement.bare, hbare₁, hbare₂]
    · rw [Statement.resolve]
      exact bind_eq_ok.2 ⟨_, _, htest, bind_eq_ok.2 ⟨_, _, hbody, rfl⟩⟩
termination_by structural s => s

theorem resolveStatements_tracks {scope : ScopeId} {inLoop : Bool} :
    ∀ (l : List Statement) {st : Scoping},
      Tracks (resolveStatements scope inLoop l) (resolveStatements scope inLoop (bareStatements l))
        st fun l' _ st' => bareStatements l' = bareStatements l ∧
          resolveStatements scope inLoop l' st = .ok (l', st')
  | [], st => by
    rw [bareStatements, resolveStatements]
    exact .pure ⟨rfl, rfl⟩
  | s :: rest, st => by
    rw [bareStatements, resolveStatements, resolveStatements]
    refine (Statement.resolve_tracks s).bind ?_
    rintro s' _ st₁ ⟨hbare₁, hs⟩
    refine (resolveStatements_tracks rest).bind ?_
    rintro rest' _ st₂ ⟨hbare₂, hrest⟩
    refine .pure ⟨?_, ?_⟩
    · rw [bareStatements, hbare₁, hbare₂]
    · rw [resolveStatements]
      exact bind_eq_ok.2 ⟨_, _, hs, bind_eq_ok.2 ⟨_, _, hrest, rfl⟩⟩
termination_by structural l => l

theorem Block.resolve_tracks {parent : ScopeId} {inLoop : Bool} :
    ∀ (b : Block) {st : Scoping},
      Tracks (b.resolve parent inLoop) (b.bare.resolve parent inLoop) st fun b' _ st' =>
        b'.bare = b.bare ∧ b'.resolve parent inLoop st = .ok (b', st')
  | ⟨body, _⟩, st => by
    rw [Block.bare, Block.resolve, Block.resolve]
    refine .andThen rfl fun scope st₁ hadd => ?_
    refine .andThen (by rw [lexicals_bare]) fun _ st₂ hlexicals => ?_
    refine (resolveStatements_tracks body).bind ?_
    rintro body' _ st₃ ⟨hbare, hbody⟩
    refine .pure ⟨?_, ?_⟩
    · rw [Block.bare, hbare]
    · rw [Block.resolve, lexicals_congr hbare]
      exact bind_eq_ok.2 ⟨_, _, hadd, bind_eq_ok.2 ⟨_, _, hlexicals,
        bind_eq_ok.2 ⟨_, _, hbody, rfl⟩⟩⟩
termination_by structural b => b

theorem resolveAlternate_tracks {parent : ScopeId} {inLoop : Bool} :
    ∀ (b : Option Block) {st : Scoping},
      Tracks (resolveAlternate parent inLoop b) (resolveAlternate parent inLoop (bareAlternate b))
        st fun b' _ st' => bareAlternate b' = bareAlternate b ∧
          resolveAlternate parent inLoop b' st = .ok (b', st')
  | none, st => by
    rw [bareAlternate, resolveAlternate]
    exact .pure ⟨rfl, rfl⟩
  | some b, st => by
    rw [bareAlternate, resolveAlternate, resolveAlternate]
    refine (Block.resolve_tracks b).bind ?_
    rintro b' _ st₁ ⟨hbare, hb⟩
    refine .pure ⟨?_, ?_⟩
    · rw [bareAlternate, hbare]
    · rw [resolveAlternate]
      exact bind_eq_ok.2 ⟨_, _, hb, rfl⟩
termination_by structural b => b

/-- Resolving a definition: the name that it is given may differ from its own in what it
refers to, and so may the name that the result is given when it is resolved again. -/
theorem FunctionNode.resolve_tracks {parent : ScopeId} :
    ∀ (node : FunctionNode) {n n' : Option Identifier} {st : Scoping},
      n.map Identifier.name = node.name.map Identifier.name →
      n'.map Identifier.name = node.name.map Identifier.name →
        Tracks (node.resolve parent n) (node.bare.resolve parent n') st fun node' _ st' =>
          node'.bare = node.bare ∧ (node.kind ≠ .expression → node'.name = n) ∧
            ∀ again : Option Identifier,
              again.map Identifier.name = node.name.map Identifier.name →
                (node.kind ≠ .expression → again = n) →
                  node'.resolve parent again st = .ok (node', st')
  | ⟨name, kind, flavor, memoized, params, rest, body, span, site, scope, arguments⟩, n, n', st,
      hn, hn' => by
    rw [FunctionNode.bare, FunctionNode.resolve, FunctionNode.resolve]
    refine .andThen (enterFunction_congr (Option.map_name_bare name) rfl rfl rfl rfl) ?_
    rintro ⟨site', own⟩ st₁ henter
    refine .andThen (declareParams_congr (List.map_name_bare params)) fun params' st₂ hparams => ?_
    refine .andThen (declareRest_congr (Option.map_name_bare rest)) fun rest' st₃ hrest => ?_
    refine (declareArguments_tracks (by rfl)).bind fun arguments' _ st₄ harguments => ?_
    refine .andThen (by rw [hoistedVars_bare]) fun _ st₅ hvars => ?_
    refine .andThen (by rw [lexicals_bare]) fun _ st₆ hlexicals => ?_
    refine (declareOwnName_tracks (hn'.trans hn.symm)).bind ?_
    rintro name' _ st₇ ⟨hname, hstays, hown⟩
    refine (resolveStatements_tracks body).bind ?_
    rintro body' _ st₈ ⟨hbare, hbody⟩
    have hparams' := declareParams_names hparams
    have hrest' := declareRest_name hrest
    refine .pure ⟨?_, hstays, fun again hnames hkept => ?_⟩
    · rw [FunctionNode.bare, Option.map_bare name', hname.trans hn, ← Option.map_bare,
        List.map_bare params', hparams', ← List.map_bare, Option.map_bare rest', hrest',
        ← Option.map_bare, hbare]
    · -- each step finds the names that it found the first time
      rw [FunctionNode.resolve, hoistedVars_congr hbare, lexicals_congr hbare]
      refine bind_eq_ok.2 ⟨(site', own), st₁, ?_, ?_⟩
      · rw [← henter]
        refine congrFun (enterFunction_congr (hname.trans hn) ?_ ?_ ?_ ?_) st <;> rfl
      refine bind_eq_ok.2 ⟨params', st₂, ?_, ?_⟩
      · rwa [declareParams_congr hparams']
      refine bind_eq_ok.2 ⟨rest', st₃, ?_, ?_⟩
      · rwa [declareRest_congr hrest']
      refine bind_eq_ok.2 ⟨arguments', st₄, harguments _ rfl rfl, ?_⟩
      refine bind_eq_ok.2 ⟨_, st₅, hvars, bind_eq_ok.2 ⟨_, st₆, hlexicals, ?_⟩⟩
      refine bind_eq_ok.2 ⟨name', st₇, ?_, bind_eq_ok.2 ⟨_, _, hbody, rfl⟩⟩
      rwa [declareOwnName_congr (hnames.trans hn.symm) hkept]
termination_by structural node => node

/-- Resolving an expression keeps the expression but for annotations, of which it reads
none, and the result resolves to itself. -/
theorem Expression.resolve_tracks {scope : ScopeId} :
    ∀ (e : Expression) {st : Scoping},
      Tracks (e.resolve scope) (e.bare.resolve scope) st fun e' _ st' =>
        e'.bare = e.bare ∧ e'.resolve scope st = .ok (e', st')
  | .literal _, st => by
    rw [Expression.bare, Expression.resolve]
    exact .pure ⟨rfl, rfl⟩
  | .identifier i, st => by
    rw [Expression.bare, Expression.resolve, Expression.resolve]
    refine .andThen rfl fun x st₁ hx => .pure ⟨rfl, ?_⟩
    rw [Expression.resolve]
    exact bind_eq_ok.2 ⟨_, _, hx, rfl⟩
  | .this _, st => by
    rw [Expression.bare, Expression.resolve, Expression.resolve]
    refine .andThen rfl fun x st₁ hx => .pure ⟨rfl, ?_⟩
    rw [Expression.resolve]
    exact bind_eq_ok.2 ⟨_, _, hx, rfl⟩
  | .object properties, st => by
    rw [Expression.bare, Expression.resolve, Expression.resolve]
    refine (resolveProperties_tracks properties).bind ?_
    rintro properties' _ st₁ ⟨hbare, hproperties⟩
    refine .pure ⟨?_, ?_⟩
    · rw [Expression.bare, hbare]
    · rw [Expression.resolve]
      exact bind_eq_ok.2 ⟨_, _, hproperties, rfl⟩
  | .array elements, st => by
    rw [Expression.bare, Expression.resolve, Expression.resolve]
    refine (resolveExpressions_tracks elements).bind ?_
    rintro elements' _ st₁ ⟨hbare, helements⟩
    refine .pure ⟨?_, ?_⟩
    · rw [Expression.bare, hbare]
    · rw [Expression.resolve]
      exact bind_eq_ok.2 ⟨_, _, helements, rfl⟩
  | .member object _, st => by
    rw [Expression.bare, Expression.resolve, Expression.resolve]
    refine (Expression.resolve_tracks object).bind ?_
    rintro object' _ st₁ ⟨hbare, hobject⟩
    refine .pure ⟨?_, ?_⟩
    · rw [Expression.bare, hbare]
    · rw [Expression.resolve]
      exact bind_eq_ok.2 ⟨_, _, hobject, rfl⟩
  | .setMember object _ value, st => by
    rw [Expression.bare, Expression.resolve, Expression.resolve]
    refine (Expression.resolve_tracks object).bind ?_
    rintro object' _ st₁ ⟨hbare₁, hobject⟩
    refine (Expression.resolve_tracks value).bind ?_
    rintro value' _ st₂ ⟨hbare₂, hvalue⟩
    refine .pure ⟨?_, ?_⟩
    · rw [Expression.bare, hbare₁, hbare₂]
    · rw [Expression.resolve]
      exact bind_eq_ok.2 ⟨_, _, hobject, bind_eq_ok.2 ⟨_, _, hvalue, rfl⟩⟩
  | .call callee arguments, st => by
    rw [Expression.bare, Expression.resolve, Expression.resolve]
    refine (Expression.resolve_tracks callee).bind ?_
    rintro callee' _ st₁ ⟨hbare₁, hcallee⟩
    refine (resolveExpressions_tracks arguments).bind ?_
    rintro arguments' _ st₂ ⟨hbare₂, harguments⟩
    refine .pure ⟨?_, ?_⟩
    · rw [Expression.bare, hbare₁, hbare₂]
    · rw [Expression.resolve]
      exact bind_eq_ok.2 ⟨_, _, hcallee, bind_eq_ok.2 ⟨_, _, harguments, rfl⟩⟩
  | .assign target value, st => by
    rw [Expression.bare, Expression.resolve, Expression.resolve]
    refine (Expression.resolve_tracks value).bind ?_
    rintro value' _ st₁ ⟨hbare, hvalue⟩
    refine .andThen rfl fun x st₂ hx => ?_
    refine .andThen rfl fun _ st₃ hnote => ?_
    refine .pure ⟨?_, ?_⟩
    · rw [Expression.bare, hbare]
      rfl
    · rw [Expression.resolve]
      exact bind_eq_ok.2 ⟨_, _, hvalue, bind_eq_ok.2 ⟨_, _, hx, bind_eq_ok.2 ⟨_, _, hnote, rfl⟩⟩⟩
  | .binary _ left right, st => by
    rw [Expression.bare, Expression.resolve, Expression.resolve]
    refine (Expression.resolve_tracks left).bind ?_
    rintro left' _ st₁ ⟨hbare₁, hleft⟩
    refine (Expression.resolve_tracks right).bind ?_
    rintro right' _ st₂ ⟨hbare₂, hright⟩
    refine .pure ⟨?_, ?_⟩
    · rw [Expression.bare, hbare₁, hbare₂]
    · rw [Expression.resolve]
      exact bind_eq_ok.2 ⟨_, _, hleft, bind_eq_ok.2 ⟨_, _, hright, rfl⟩⟩
  | .function node, st => by
    rw [Expression.bare, Expression.resolve, Expression.resolve]
    refine (FunctionNode.resolve_tracks node rfl node.map_name_bare).bind ?_
    rintro node' _ st₁ ⟨hbare, hkept, hnode⟩
    refine .pure ⟨?_, ?_⟩
    · rw [Expression.bare, hbare]
    · rw [Expression.resolve]
      refine bind_eq_ok.2 ⟨_, _, hnode node'.name ?_ hkept, rfl⟩
      rw [← node'.map_name_bare, hbare, node.map_name_bare]
  | .dynamicEval _, st => by
    rw [Expression.bare, Expression.resolve]
    exact .pure ⟨rfl, rfl⟩
termination_by structural e => e

theorem resolveOptional_tracks {scope : ScopeId} :
    ∀ (e : Option Expression) {st : Scoping},
      Tracks (resolveOptional scope e) (resolveOptional scope (bareOptional e)) st fun e' e'' st' =>
        e''.isSome = e'.isSome ∧ bareOptional e' = bareOptional e ∧
          resolveOptional scope e' st = .ok (e', st')
  | none, st => by
    rw [bareOptional, resolveOptional]
    exact .pure ⟨rfl, rfl, rfl⟩
  | some e, st => by
    rw [bareOptional, resolveOptional, resolveOptional]
    refine (Expression.resolve_tracks e).bind ?_
    rintro e' _ st₁ ⟨hbare, he⟩
    refine .pure ⟨rfl, ?_, ?_⟩
    · rw [bareOptional, hbare]
    · rw [resolveOptional]
      exact bind_eq_ok.2 ⟨_, _, he, rfl⟩
termination_by structural e => e

theorem resolveExpressions_tracks {scope : ScopeId} :
    ∀ (l : List Expression) {st : Scoping},
      Tracks (resolveExpressions scope l) (resolveExpressions scope (bareExpressions l)) st
        fun l' _ st' => bareExpressions l' = bareExpressions l ∧
          resolveExpressions scope l' st = .ok (l', st')
  | [], st => by
    rw [bareExpressions, resolveExpressions]
    exact .pure ⟨rfl, rfl⟩
  | e :: rest, st => by
    rw [bareExpressions, resolveExpressions, resolveExpressions]
    refine (Expression.resolve_tracks e).bind ?_
    rintro e' _ st₁ ⟨hbare₁, he⟩
    refine (resolveExpressions_tracks rest).bind ?_
    rintro rest' _ st₂ ⟨hbare₂, hrest⟩
    refine .pure ⟨?_, ?_⟩
    · rw [bareExpressions, hbare₁, hbare₂]
    · rw [resolveExpressions]
      exact bind_eq_ok.2 ⟨_, _, he, bind_eq_ok.2 ⟨_, _, hrest, rfl⟩⟩
termination_by structural l => l

theorem resolveProperties_tracks {scope : ScopeId} :
    ∀ (l : List (String × Expression)) {st : Scoping},
      Tracks (resolveProperties scope l) (resolveProperties scope (bareProperties l)) st
        fun l' _ st' => bareProperties l' = bareProperties l ∧
          resolveProperties scope l' st = .ok (l', st')
  | [], st => by
    rw [bareProperties, resolveProperties]
    exact .pure ⟨rfl, rfl⟩
  | (key, e) :: rest, st => by
    rw [bareProperties, resolveProperties, resolveProperties]
    refine (Expression.resolve_tracks e).bind ?_
    rintro e' _ st₁ ⟨hbare₁, he⟩
    refine (resolveProperties_tracks rest).bind ?_
    rintro rest' _ st₂ ⟨hbare₂, hrest⟩
    refine .pure ⟨?_, ?_⟩
    · rw [bareProperties, hbare₁, hbare₂]
    · rw [resolveProperties]
      exact bind_eq_ok.2 ⟨_, _, he, bind_eq_ok.2 ⟨_, _, hrest, rfl⟩⟩
termination_by structural l => l

end

theorem resolveTopLevel_tracks (body : List Statement) (st : Scoping) :
    Tracks (resolveTopLevel body) (resolveTopLevel (bareStatements body)) st fun body' _ st' =>
      bareStatements body' = bareStatements body ∧ resolveTopLevel body' st = .ok (body', st') := by
  rw [resolveTopLevel, resolveTopLevel, hoistedVars_bare, lexicals_bare]
  refine .andThen rfl fun _ st₁ hvars => ?_
  refine .andThen rfl fun _ st₂ hlexicals => ?_
  refine (resolveStatements_tracks body).imp ?_
  rintro body' _ st₃ ⟨hbare, hbody⟩
  refine ⟨hbare, ?_⟩
  rw [resolveTopLevel, hoistedVars_congr hbare, lexicals_congr hbare]
  exact bind_eq_ok.2 ⟨_, _, hvars, bind_eq_ok.2 ⟨_, _, hlexicals, hbody⟩⟩

end Code

/-! ## Programs -/

/-- A program resolves as it does without its annotations, and what comes out is the
program but for annotations, and resolves to itself. -/
theorem Program.resolve_bare_cases (p : Program) :
    (∃ e, p.resolve = .error e ∧ p.bare.resolve = .error e) ∨
      ∃ r r', p.resolve = .ok r ∧ p.bare.resolve = .ok r' ∧ r'.tree = r.tree ∧
        r'.sites = r.sites ∧ r.program.bare = p.bare ∧ r.program.resolve = .ok r := by
  have h := resolveTopLevel_tracks p.body ⟨ScopeTree.initial, #[], []⟩
  rw [ResolveM.Tracks] at h
  generalize hx : resolveTopLevel p.body ⟨ScopeTree.initial, #[], []⟩ = x at h
  generalize hy : resolveTopLevel (bareStatements p.body) ⟨ScopeTree.initial, #[], []⟩ = y at h
  rw [Program.resolve, Program.resolve, StateT.run, StateT.run, hx, Program.bare, hy]
  cases h with
  | error e => exact .inl ⟨e, rfl, rfl⟩
  | @ok body body' st h =>
    obtain ⟨hbare, hagain⟩ := h
    exact .inr ⟨_, _, rfl, rfl, rfl, rfl, congrArg Program.mk hbare,
      Program.resolve_eq_ok.2 ⟨body, st, hagain, rfl⟩⟩

/-- Resolution changes annotations only, it finds nothing to change in a program that it has
resolved, and it reads no annotations: what tree and what sites a program has, or for what
reason it is refused, does not depend on them. -/
theorem Program.resolve_annotates (p : Program) :
    (∀ r, p.resolve = .ok r → r.program.bare = p.bare ∧ r.program.resolve = .ok r) ∧
      ∀ q : Program, q.bare = p.bare →
        (∃ e, p.resolve = .error e ∧ q.resolve = .error e) ∨
          ∃ r r', p.resolve = .ok r ∧ q.resolve = .ok r' ∧ r'.tree = r.tree ∧
            r'.sites = r.sites := by
  refine ⟨fun r hr => ?_, fun q hq => ?_⟩
  · rcases p.resolve_bare_cases with ⟨e, he, -⟩ | ⟨r₁, -, hr₁, -, -, -, hbare, hagain⟩
    · rw [hr] at he
      cases he
    · obtain rfl := Except.ok.inj (hr.symm.trans hr₁)
      exact ⟨hbare, hagain⟩
  · -- both resolve as the one program does that they are without annotations
    have hcases := q.resolve_bare_cases
    rw [hq] at hcases
    rcases p.resolve_bare_cases with ⟨e, he, hbare⟩ | ⟨r, r₀, hr, hbare, htree, hsites, -⟩
    · rcases hcases with ⟨e', he', hbare'⟩ | ⟨r', r₀', -, hbare', -⟩
      · obtain rfl := Except.error.inj (hbare.symm.trans hbare')
        exact .inl ⟨e, he, he'⟩
      · cases hbare.symm.trans hbare'
    · rcases hcases with ⟨e', -, hbare'⟩ | ⟨r', r₀', hr', hbare', htree', hsites', -⟩
      · cases hbare.symm.trans hbare'
      · obtain rfl := Except.ok.inj (hbare.symm.trans hbare')
        exact .inr ⟨r, r', hr, hr', htree'.symm.trans htree, hsites'.symm.trans hsites⟩

/-- A program that comes with annotations: names that refer to `x`, an arrow with the
arguments binding `a`, and a function expression whose parameter hides its name. -/
def relabelled (x : Resolution) (a : Option BindingId) : Program where
  body :=
    let name (s : String) : Identifier := ⟨s, x⟩
    let span : SourceSpan := ⟨0, 0, 0, 0, 0, 0⟩
    let arrow : FunctionNode := ⟨none, .arrow, .plain, true, [], none,
      [.returning (some (.this (some ⟨5⟩)))], span, some ⟨9⟩, some ⟨9⟩, a⟩
    let shadowed : FunctionNode := ⟨some (name "g"), .expression, .plain, false, [name "g"], none,
      [.returning (some (.identifier (name "y")))], span, none, none, none⟩
    [.function ⟨some (name "f"), .declaration, .plain, false, [name "p"], some (name "q"),
        [.block ⟨[.declaration .var (name "y") (some (.function arrow)) .slot], some ⟨3⟩⟩,
          .expression (.assign (name "p") (.function shadowed))],
        span, none, none, none⟩]

theorem isSome_resolve_relabelled :
    (relabelled .global (some ⟨7⟩)).resolve.toOption.isSome = true := by
  decide +kernel

/-- With and without annotations the program has one tree and one table of sites, and the
arrow, which declares no arguments, keeps the binding that it came with. -/
theorem annotates_relabelled : ∃ r r', (relabelled .global (some ⟨7⟩)).resolve = .ok r ∧
    r.program.resolve = .ok r ∧ (relabelled .unresolved none).resolve = .ok r' ∧
      r'.tree = r.tree ∧ r'.sites = r.sites ∧
      r.program.functions.map FunctionNode.arguments = [some ⟨3⟩, some ⟨7⟩, some ⟨6⟩] := by
  have hr := Except.eq_ok_get isSome_resolve_relabelled
  obtain ⟨hannotates, hreads⟩ := Program.resolve_annotates (relabelled .global (some ⟨7⟩))
  obtain ⟨e, he, -⟩ | ⟨r, r', hr₁, hr', htree, hsites⟩ := hreads (relabelled .unresolved none) rfl
  · rw [hr] at he
    cases he
  · obtain rfl := Except.ok.inj (hr.symm.trans hr₁)
    exact ⟨_, r', hr, (hannotates _ hr).2, hr', htree, hsites, by decide +kernel⟩

end ClosureCache
