/-
Resolution as a walk.

Whatever resolution does to its state it does in steps of six kinds, which `Scoping.Step`
lists.  A step is labelled with what it notes: a write, or the entry of a definition in the
table of sites.  The notes of a whole walk are the writes and the definitions in the text of
the code that comes out.  What each kind of step keeps, resolution keeps, and no proof about
its state has to go through the syntax again.
-/
import Mathlib.Data.List.Forall2
import ClosureCache.Proofs.Program.Resolution

namespace ClosureCache

/-! ## Writes -/

/-- A place in a resolved program that gives a binding a new value. -/
inductive Write where
  /-- An assignment expression with the binding for its target. -/
  | assignment (b : BindingId)
  /-- A `var` declaration of the binding with an initializer, and whether it stands in a
  loop of its function body or of the top level. -/
  | initializer (b : BindingId) (inLoop : Bool)
deriving DecidableEq, Repr

/-- Whether the write is the initializer of a `var` that declares the binding. -/
def Write.initializes (b : BindingId) : Write → Bool
  | .assignment _ => false
  | .initializer c _ => c == b

mutual

/-- The writes in a statement, in the order of the text. -/
def Statement.writes (inLoop : Bool) : Statement → List Write
  | .declaration _ _ none _ => []
  | .declaration .var name (some init) _ =>
    init.writes ++ name.binding?.toList.map fun b => .initializer b inLoop
  | .declaration _ _ (some init) _ => init.writes
  | .function node => node.writes
  | .expression e => e.writes
  | .returning none => []
  | .returning (some value) => value.writes
  | .block b => b.writes inLoop
  | .ifElse test consequent none => test.writes ++ consequent.writes inLoop
  | .ifElse test consequent (some alternate) =>
    test.writes ++ consequent.writes inLoop ++ alternate.writes inLoop
  | .whileLoop test body => test.writes ++ body.writes true

def writesInStatements (inLoop : Bool) : List Statement → List Write
  | [] => []
  | s :: rest => s.writes inLoop ++ writesInStatements inLoop rest

def Block.writes (inLoop : Bool) : Block → List Write
  | ⟨body, _⟩ => writesInStatements inLoop body

/-- The writes in the body of a function, of which a loop around the definition is no
part. -/
def FunctionNode.writes : FunctionNode → List Write
  | { body := body, .. } => writesInStatements false body

def Expression.writes : Expression → List Write
  | .literal _ => []
  | .identifier _ => []
  | .this _ => []
  | .object properties => writesInProperties properties
  | .array elements => writesInExpressions elements
  | .member object _ => object.writes
  | .setMember object _ value => object.writes ++ value.writes
  | .call callee arguments => callee.writes ++ writesInExpressions arguments
  | .assign target value => value.writes ++ target.binding?.toList.map .assignment
  | .binary _ left right => left.writes ++ right.writes
  | .function node => node.writes
  | .dynamicEval _ => []

def writesInExpressions : List Expression → List Write
  | [] => []
  | e :: rest => e.writes ++ writesInExpressions rest

def writesInProperties : List (String × Expression) → List Write
  | [] => []
  | (_, e) :: rest => e.writes ++ writesInProperties rest

end

/-- The writes in a program, in the order of the text. -/
def Program.writes (p : Program) : List Write := writesInStatements false p.body

def writesInOptional (e : Option Expression) : List Write := e.elim [] Expression.writes

def writesInAlternate (inLoop : Bool) (b : Option Block) : List Write :=
  b.elim [] (Block.writes inLoop)

/-! ## Notes -/

/-- The entry of a definition says what the definition does. -/
structure SiteInfo.Describes (info : SiteInfo) (f : FunctionNode) : Prop where
  site : f.site = some info.site
  scope : f.scope = some info.scope
  name : f.name.map Identifier.name = info.name
  kind : f.kind = info.kind
  flavor : f.flavor = info.flavor
  memoized : f.memoized = info.memoized
  span : f.span = info.span

/-- What resolution notes on its way: the writes that it meets, and an entry of the table for
every definition that it enters. -/
structure Notes where
  writes : List Write
  entries : List SiteInfo

namespace Notes

instance : EmptyCollection Notes := ⟨⟨[], []⟩⟩

instance : Append Notes := ⟨fun n m => ⟨n.writes ++ m.writes, n.entries ++ m.entries⟩⟩

variable {n m : Notes} {ws vs : List Write} {fs gs : List FunctionNode}

theorem append_empty (n : Notes) : n ++ ∅ = n := by
  show mk (n.writes ++ []) (n.entries ++ []) = n
  rw [List.append_nil, List.append_nil]

theorem append_assoc (n m k : Notes) : n ++ m ++ k = n ++ (m ++ k) := by
  show mk (n.writes ++ m.writes ++ k.writes) (n.entries ++ m.entries ++ k.entries) = _
  rw [List.append_assoc, List.append_assoc]
  rfl

/-- The notes of code with the writes `ws` and the definitions `fs`. -/
structure Cover (n : Notes) (ws : List Write) (fs : List FunctionNode) : Prop where
  writes : n.writes = ws
  entries : List.Forall₂ SiteInfo.Describes n.entries fs

theorem cover_empty : Cover ∅ [] [] := ⟨rfl, .nil⟩

theorem Cover.append (hn : n.Cover ws fs) (hm : m.Cover vs gs) :
    (n ++ m).Cover (ws ++ vs) (fs ++ gs) :=
  ⟨congrArg₂ (· ++ ·) hn.writes hm.writes, List.rel_append hn.entries hm.entries⟩

/-- What notes no definition. -/
theorem Cover.write (hn : n.Cover ws fs) (vs : List Write) :
    (n ++ ⟨vs, []⟩).Cover (ws ++ vs) fs := by
  have h := hn.append (m := ⟨vs, []⟩) ⟨rfl, .nil⟩
  rwa [List.append_nil] at h

end Notes

/-! ## Steps -/

namespace Scoping

inductive Step : Scoping → Notes → Scoping → Prop
  /-- A scope takes a declaration. -/
  | declare {st : Scoping} {s : ScopeId} {d : Declared} {b : BindingId} {t : ScopeTree} :
    st.tree.declare s d.name d.kind d.storage = .ok (b, t) → Step st ∅ { st with tree := t }
  /-- A block opens its scope. -/
  | openBlock {st : Scoping} {parent s : ScopeId} {t : ScopeTree} :
    st.tree.addScope parent .block false none = .ok (s, t) → Step st ∅ { st with tree := t }
  /-- A definition takes the next number, opens its scope and is noted where it stands. -/
  | enter {st : Scoping} {info : SiteInfo} {arrow : Bool} {t t' : ScopeTree} :
    info.site = ⟨st.sites.size⟩ →
    st.tree.addScope info.parentScope .function arrow (some info.site) = .ok (info.scope, t) →
    t.recordSite info.parentScope info.site = .ok t' →
    Step st ⟨[], [info]⟩ { st with tree := t', sites := st.sites.push info }
  /-- An assignment is counted. -/
  | assign {st : Scoping} {b : BindingId} {t : ScopeTree} :
    st.tree.recordAssignment b = .ok t → Step st ⟨[.assignment b], []⟩ { st with tree := t }
  /-- An initializer that may overwrite an earlier value is counted. -/
  | overwrite {st : Scoping} {b : BindingId} {inLoop : Bool} {t : ScopeTree} :
    inLoop = true ∨ b ∈ st.initialized → st.tree.recordAssignment b = .ok t →
    Step st ⟨[.initializer b inLoop], []⟩ { st with tree := t }
  /-- The first initializer of a `var` is remembered. -/
  | remember {st : Scoping} {b : BindingId} :
    b ∉ st.initialized →
    Step st ⟨[.initializer b false], []⟩ { st with initialized := b :: st.initialized }

/-- Steps one after the other, with all that they note. -/
inductive Walk : Scoping → Notes → Scoping → Prop
  | done (st : Scoping) : Walk st ∅ st
  | step {st st₁ st₂ : Scoping} {n m : Notes} :
    Step st n st₁ → Walk st₁ m st₂ → Walk st (n ++ m) st₂

namespace Walk

variable {st st₁ st₂ : Scoping} {n m : Notes}

theorem single (h : Step st n st₁) : Walk st n st₁ := by
  have := Walk.step h (.done st₁)
  rwa [Notes.append_empty] at this

theorem trans (a : Walk st n st₁) (b : Walk st₁ m st₂) : Walk st (n ++ m) st₂ := by
  induction a with
  | done => exact b
  | step h _ ih =>
    rw [Notes.append_assoc]
    exact .step h (ih b)

/-- What every step keeps, of the state and of the notes so far, a walk keeps. -/
theorem keeps {I : Notes → Scoping → Prop}
    (hstep : ∀ {k st n st'}, Step st n st' → I k st → I (k ++ n) st') (h : Walk st n st₁)
    {k : Notes} (hI : I k st) : I (k ++ n) st₁ := by
  induction h generalizing k with
  | done => rwa [Notes.append_empty]
  | step h _ ih =>
    rw [← Notes.append_assoc]
    exact ih (hstep h hI)

/-- What every step keeps of the state alone, a walk keeps. -/
theorem preserves {I : Scoping → Prop} (hstep : ∀ {st n st'}, Step st n st' → I st → I st')
    (h : Walk st n st₁) (hI : I st) : I st₁ := by
  induction h with
  | done => exact hI
  | step h _ ih => exact ih (hstep h hI)

end Walk
end Scoping

/-! ## Computations that walk -/

namespace ResolveM

/-- Where the computation `x` succeeds it walks, and its result and the notes are as `L`
says. -/
def Walks {α : Type} (x : ResolveM α) (st : Scoping) (L : α → Notes → Prop) : Prop :=
  ∀ a st', x st = .ok (a, st') → ∃ n, Scoping.Walk st n st' ∧ L a n

section Rules

variable {α β : Type} {x : ResolveM α} {f : α → ResolveM β} {st : Scoping}
  {L : α → Notes → Prop} {M : β → Notes → Prop}

theorem Walks.pure {a : α} (h : L a ∅) : Walks (pure a) st L := by
  intro b st' hb
  obtain ⟨rfl, rfl⟩ := pure_eq_ok.1 hb
  exact ⟨∅, .done st, h⟩

theorem Walks.throw (e : ResolveError) : Walks (throw e) st L := by
  intro a st' h
  cases h

theorem Walks.bind (hx : Walks x st L)
    (hf : ∀ a n st', L a n → Walks (f a) st' fun b m => M b (n ++ m)) :
    Walks (x >>= f) st M := by
  intro b st' h
  obtain ⟨a, st₁, ha, hb⟩ := bind_eq_ok.1 h
  obtain ⟨n, hn, hL⟩ := hx a st₁ ha
  obtain ⟨m, hm, hM⟩ := hf a n st₁ hL b st' hb
  exact ⟨n ++ m, hn.trans hm, hM⟩

/-- A last step, whose result is put into the whole. -/
theorem Walks.last {g : α → β} (hx : Walks x st L) (h : ∀ a n, L a n → M (g a) n) :
    Walks (x >>= fun a => Pure.pure (g a)) st M :=
  hx.bind fun a n _ ha => .pure (by rw [Notes.append_empty]; exact h a n ha)

end Rules

def Silent {α : Type} (x : ResolveM α) : Prop := ∀ st, Walks x st fun _ n => n = ∅

namespace Silent

variable {α β : Type}

theorem pure (a : α) : Silent (pure a : ResolveM α) := fun _ => .pure rfl

theorem throw (e : ResolveError) : Silent (throw e : ResolveM α) := fun _ => .throw e

theorem bind {x : ResolveM α} {f : α → ResolveM β} (hx : Silent x) (hf : ∀ a, Silent (f a)) :
    Silent (x >>= f) := by
  intro st
  refine (hx st).bind fun a n st' hn => ?_
  subst hn
  exact hf a st'

/-- A silent computation comes first. -/
theorem andThen {x : ResolveM α} {f : α → ResolveM β} {st : Scoping}
    {M : β → Notes → Prop} (hx : Silent x)
    (hf : ∀ a st', x st = .ok (a, st') → Walks (f a) st' M) : Walks (x >>= f) st M := by
  intro b st' h
  obtain ⟨a, st₁, ha, hb⟩ := bind_eq_ok.1 h
  obtain ⟨_, hn, rfl⟩ := hx st a st₁ ha
  obtain ⟨m, hm, hM⟩ := hf a st₁ ha b st' hb
  exact ⟨_, hn.trans hm, hM⟩

/-- What leaves the state alone is silent. -/
theorem of_same {x : ResolveM α} (h : ∀ st a st', x st = .ok (a, st') → st' = st) : Silent x := by
  intro st a st' hx
  obtain rfl := h st a st' hx
  exact ⟨∅, .done _, rfl⟩

theorem tree : Silent tree := of_same fun _ _ _ h => (tree_eq_ok h).2.symm

theorem ask (f : ScopeTree → Except ScopeError α) : Silent (ask f) :=
  of_same fun _ _ _ h => (ask_eq_ok.1 h).2.symm

theorem declare (scope : ScopeId) (d : Declared) : Silent (declare scope d) := by
  intro st b st' h
  obtain ⟨t, hdeclare, rfl⟩ := change_eq_ok h
  exact ⟨∅, .single (.declare hdeclare), rfl⟩

theorem declareAll (scope : ScopeId) (l : List Declared) : Silent (declareAll scope l) := by
  induction l with
  | nil => exact pure ()
  | cons d rest ih => exact (declare scope d).bind fun _ => ih

theorem addBlock (parent : ScopeId) : Silent (addScope parent .block false none) := by
  intro st s st' h
  obtain ⟨t, hadd, rfl⟩ := change_eq_ok h
  exact ⟨∅, .single (.openBlock hadd), rfl⟩

theorem reference (scope : ScopeId) (name : String) : Silent (reference scope name) := by
  refine tree.bind fun t => ?_
  split <;> exact pure _

theorem localBinding (scope : ScopeId) (name : String) : Silent (localBinding scope name) := by
  refine tree.bind fun t => ?_
  split
  · exact pure _
  · exact throw _

theorem declareParams (scope : ScopeId) (l : List Identifier) :
    Silent (declareParams scope l) := by
  induction l with
  | nil => exact pure []
  | cons p rest ih => exact (declare scope _).bind fun b => ih.bind fun rest' => pure _

theorem declareRest (scope : ScopeId) (r : Option Identifier) : Silent (declareRest scope r) := by
  cases r with
  | none => exact pure none
  | some i => exact (declare scope _).bind fun b => pure _

theorem declareArguments (scope : ScopeId) (node : FunctionNode) :
    Silent (declareArguments scope node) := by
  refine tree.bind fun t => ?_
  split
  · exact (declare scope _).bind fun b => pure _
  · exact pure _

theorem declareOwnName (scope : ScopeId) (kind : FunctionKind) (n : Option Identifier) :
    Silent (declareOwnName scope kind n) := by
  cases n with
  | none => exact pure none
  | some i =>
    rw [ResolveM.declareOwnName]
    split
    · refine tree.bind fun t => ?_
      split
      · exact pure _
      · exact (declare scope _).bind fun b => pure _
    · exact pure _

theorem bindName (scope : ScopeId) (n : Option Identifier) : Silent (bindName scope n) := by
  cases n with
  | none => exact pure none
  | some i => exact (localBinding scope _).bind fun b => pure _

end Silent

variable {st st' : Scoping} {scope : ScopeId} {name : String}

theorem noteInitializer_walks {inLoop : Bool} {b : BindingId} :
    Walks (noteInitializer inLoop b) st fun _ n => n = ⟨[.initializer b inLoop], []⟩ := by
  intro u st' h
  obtain ⟨s, st₁, hget, h⟩ := bind_eq_ok.1 h
  obtain ⟨rfl, rfl⟩ : st = s ∧ st = st₁ := Prod.mk.inj (Except.ok.inj hget)
  split at h
  · next hagain =>
    obtain ⟨t, hrecord, rfl⟩ := change_map_eq_ok h
    rw [Bool.or_eq_true, List.contains_iff_mem] at hagain
    exact ⟨_, .single (.overwrite hagain hrecord), rfl⟩
  · next hfirst =>
    obtain ⟨-, rfl⟩ := Prod.mk.inj (Except.ok.inj h)
    rw [Bool.or_eq_true, List.contains_iff_mem, not_or, Bool.not_eq_true] at hfirst
    obtain ⟨rfl, hfirst⟩ := hfirst
    exact ⟨_, .single (.remember hfirst), rfl⟩

theorem noteAssignment_walks {x : Resolution} :
    Walks (noteAssignment name x) st fun _ n =>
      n = ⟨(Identifier.binding? ⟨name, x⟩).toList.map .assignment, []⟩ := by
  cases x with
  | binding b =>
    refine (Silent.ask _).andThen fun d st₁ _ => ?_
    split
    · exact .throw _
    · exact .throw _
    · intro u st' h
      obtain ⟨t, hrecord, rfl⟩ := change_map_eq_ok h
      exact ⟨_, .single (.assign hrecord), rfl⟩
  | _ => exact .pure rfl

/-- Entering a function makes an entry for it, under the next number. -/
theorem enterFunction_walks {parent : ScopeId} {node : FunctionNode} :
    Walks (enterFunction parent node) st fun entered n =>
      n = ⟨[], [⟨entered.1, node.name.map Identifier.name, node.kind, node.flavor, node.memoized,
        entered.2, parent, node.span⟩]⟩ := by
  intro r st' h
  obtain ⟨s, st₁, hget, h⟩ := bind_eq_ok.1 h
  obtain ⟨rfl, rfl⟩ : st = s ∧ st = st₁ := Prod.mk.inj (Except.ok.inj hget)
  obtain ⟨own, st₁, hadd, h⟩ := bind_eq_ok.1 h
  obtain ⟨t, hopen, rfl⟩ := change_eq_ok hadd
  obtain ⟨u, st₂, hchange, h⟩ := bind_eq_ok.1 h
  obtain ⟨t', hrecord, rfl⟩ := change_map_eq_ok hchange
  obtain ⟨rfl, rfl⟩ := Prod.mk.inj (Except.ok.inj h)
  exact ⟨_, .single (.enter rfl hopen hrecord), rfl⟩

end ResolveM

/-! ## Code -/

section Code

open ResolveM Notes

theorem home_walks {α : Type} {st : Scoping} {kind : DeclarationKind} {scope : ScopeId}
    {f : ScopeId → ResolveM α} {M : α → Notes → Prop} (hf : ∀ home st', Walks (f home) st' M) :
    Walks (if kind = .var then ask (fun t => t.varScope scope) >>= f else pure scope >>= f)
      st M := by
  split
  · exact (Silent.ask _).andThen fun home st' _ => hf home st'
  · exact (Silent.pure _).andThen fun home st' _ => hf home st'

mutual

/-- What is noted on the way through a statement are its writes and its definitions. -/
theorem Statement.resolve_walks {scope : ScopeId} {inLoop : Bool} :
    ∀ (s : Statement) {st : Scoping},
      Walks (s.resolve scope inLoop) st fun s' n => n.Cover (s'.writes inLoop) s'.functions
  | .declaration kind name init storage, st => by
    rw [Statement.resolve]
    refine (resolveOptional_walks init).bind fun init' n st₁ hinit => ?_
    refine home_walks fun home st₂ => ?_
    refine (Silent.localBinding _ _).andThen fun b st₃ _ => ?_
    split
    · next hvar =>
      rw [Bool.and_eq_true, decide_eq_true_iff] at hvar
      obtain ⟨rfl, hsome⟩ := hvar
      obtain ⟨e, rfl⟩ := Option.isSome_iff_exists.1 hsome
      refine noteInitializer_walks.last fun _ m hm => ?_
      subst hm
      exact hinit.write [.initializer b inLoop]
    · next hvar =>
      refine .pure ?_
      rw [append_empty]
      cases init' with
      | none => cases kind <;> exact hinit
      | some e =>
        cases kind with
        | var => exact absurd rfl hvar
        | _ => exact hinit
  | .function node, st => by
    rw [Statement.resolve]
    refine (Silent.bindName _ _).andThen fun name st₁ hname => ?_
    exact (FunctionNode.resolve_walks node (bindName_name hname)).last fun _ _ h => h
  | .expression e, st => by
    rw [Statement.resolve]
    exact (Expression.resolve_walks e).last fun _ _ h => h
  | .returning value, st => by
    rw [Statement.resolve]
    refine (resolveOptional_walks value).last fun value' _ h => ?_
    cases value' <;> exact h
  | .block b, st => by
    rw [Statement.resolve]
    exact (Block.resolve_walks b).last fun _ _ h => h
  | .ifElse test consequent alternate, st => by
    rw [Statement.resolve]
    refine (Expression.resolve_walks test).bind fun test' n₁ st₁ h₁ => ?_
    refine (Block.resolve_walks consequent).bind fun consequent' n₂ st₂ h₂ => ?_
    refine (resolveAlternate_walks alternate).last fun alternate' n₃ h₃ => ?_
    rw [← append_assoc]
    have h := (h₁.append h₂).append h₃
    cases alternate' with
    | none =>
      have hentries := h.entries
      rw [functionsInAlternate, Option.elim_none, List.append_nil] at hentries
      exact ⟨h.writes.trans (List.append_nil _), hentries⟩
    | some b => exact h
  | .whileLoop test body, st => by
    rw [Statement.resolve]
    refine (Expression.resolve_walks test).bind fun test' n₁ st₁ h₁ => ?_
    exact (Block.resolve_walks body).last fun body' n₂ h₂ => h₁.append h₂
termination_by structural s => s

theorem resolveStatements_walks {scope : ScopeId} {inLoop : Bool} :
    ∀ (l : List Statement) {st : Scoping},
      Walks (resolveStatements scope inLoop l) st fun l' n =>
        n.Cover (writesInStatements inLoop l') (functionsInStatements l')
  | [], st => by
    rw [resolveStatements]
    exact .pure cover_empty
  | s :: rest, st => by
    rw [resolveStatements]
    refine (Statement.resolve_walks s).bind fun s' n₁ st₁ h₁ => ?_
    exact (resolveStatements_walks rest).last fun rest' n₂ h₂ => h₁.append h₂
termination_by structural l => l

theorem Block.resolve_walks {parent : ScopeId} {inLoop : Bool} :
    ∀ (b : Block) {st : Scoping},
      Walks (b.resolve parent inLoop) st fun b' n => n.Cover (b'.writes inLoop) b'.functions
  | ⟨body, _⟩, st => by
    rw [Block.resolve]
    refine (Silent.addBlock _).andThen fun scope st₁ _ => ?_
    refine (Silent.declareAll _ _).andThen fun _ st₂ _ => ?_
    exact (resolveStatements_walks body).last fun _ _ h => h
termination_by structural b => b

theorem resolveAlternate_walks {parent : ScopeId} {inLoop : Bool} :
    ∀ (b : Option Block) {st : Scoping},
      Walks (resolveAlternate parent inLoop b) st fun b' n =>
        n.Cover (writesInAlternate inLoop b') (functionsInAlternate b')
  | none, st => by
    rw [resolveAlternate]
    exact .pure cover_empty
  | some b, st => by
    rw [resolveAlternate]
    exact (Block.resolve_walks b).last fun _ _ h => h
termination_by structural b => b

theorem FunctionNode.resolve_walks {parent : ScopeId} {name : Option Identifier} :
    ∀ (node : FunctionNode) {st : Scoping},
      name.map Identifier.name = node.name.map Identifier.name →
        Walks (node.resolve parent name) st fun node' n => n.Cover node'.writes node'.functions
  | ⟨n, kind, flavor, memoized, params, rest, body, span, site, scope, arguments⟩, st, hname => by
    rw [FunctionNode.resolve]
    refine enterFunction_walks.bind fun ⟨site', own⟩ n₁ st₁ h₁ => ?_
    subst h₁
    refine (Silent.declareParams _ _).andThen fun params' st₂ _ => ?_
    refine (Silent.declareRest _ _).andThen fun rest' st₃ _ => ?_
    refine (Silent.declareArguments _ _).andThen fun arguments' st₄ _ => ?_
    refine (Silent.declareAll _ _).andThen fun _ st₅ _ => ?_
    refine (Silent.declareAll _ _).andThen fun _ st₆ _ => ?_
    refine (Silent.declareOwnName _ _ _).andThen fun name' st₇ hown => ?_
    refine (resolveStatements_walks body).last fun body' n₂ h₂ => ⟨h₂.writes, .cons ?_ h₂.entries⟩
    exact ⟨rfl, rfl, (declareOwnName_name hown).trans hname, rfl, rfl, rfl, rfl⟩
termination_by structural node => node

/-- What is noted on the way through an expression are its writes and its definitions. -/
theorem Expression.resolve_walks {scope : ScopeId} :
    ∀ (e : Expression) {st : Scoping},
      Walks (e.resolve scope) st fun e' n => n.Cover e'.writes e'.functions
  | .literal _, st => by
    rw [Expression.resolve]
    exact .pure cover_empty
  | .identifier i, st => by
    rw [Expression.resolve]
    exact (Silent.reference _ _).andThen fun _ _ _ => .pure cover_empty
  | .this _, st => by
    rw [Expression.resolve]
    exact (Silent.ask _).andThen fun _ _ _ => .pure cover_empty
  | .object properties, st => by
    rw [Expression.resolve]
    exact (resolveProperties_walks properties).last fun _ _ h => h
  | .array elements, st => by
    rw [Expression.resolve]
    exact (resolveExpressions_walks elements).last fun _ _ h => h
  | .member object _, st => by
    rw [Expression.resolve]
    exact (Expression.resolve_walks object).last fun _ _ h => h
  | .setMember object _ value, st => by
    rw [Expression.resolve]
    refine (Expression.resolve_walks object).bind fun object' n₁ st₁ h₁ => ?_
    exact (Expression.resolve_walks value).last fun value' n₂ h₂ => h₁.append h₂
  | .call callee arguments, st => by
    rw [Expression.resolve]
    refine (Expression.resolve_walks callee).bind fun callee' n₁ st₁ h₁ => ?_
    exact (resolveExpressions_walks arguments).last fun arguments' n₂ h₂ => h₁.append h₂
  | .assign target value, st => by
    rw [Expression.resolve]
    refine (Expression.resolve_walks value).bind fun value' n₁ st₁ h₁ => ?_
    refine (Silent.reference _ _).andThen fun x st₂ _ => ?_
    refine noteAssignment_walks.last fun _ n₂ h₂ => ?_
    subst h₂
    exact h₁.write _
  | .binary op left right, st => by
    rw [Expression.resolve]
    refine (Expression.resolve_walks left).bind fun left' n₁ st₁ h₁ => ?_
    exact (Expression.resolve_walks right).last fun right' n₂ h₂ => h₁.append h₂
  | .function node, st => by
    rw [Expression.resolve]
    exact (FunctionNode.resolve_walks node rfl).last fun _ _ h => h
  | .dynamicEval _, st => by
    rw [Expression.resolve]
    exact .pure cover_empty
termination_by structural e => e

theorem resolveOptional_walks {scope : ScopeId} :
    ∀ (e : Option Expression) {st : Scoping},
      Walks (resolveOptional scope e) st fun e' n =>
        n.Cover (writesInOptional e') (functionsInOptional e')
  | none, st => by
    rw [resolveOptional]
    exact .pure cover_empty
  | some e, st => by
    rw [resolveOptional]
    exact (Expression.resolve_walks e).last fun _ _ h => h
termination_by structural e => e

theorem resolveExpressions_walks {scope : ScopeId} :
    ∀ (l : List Expression) {st : Scoping},
      Walks (resolveExpressions scope l) st fun l' n =>
        n.Cover (writesInExpressions l') (functionsInExpressions l')
  | [], st => by
    rw [resolveExpressions]
    exact .pure cover_empty
  | e :: rest, st => by
    rw [resolveExpressions]
    refine (Expression.resolve_walks e).bind fun e' n₁ st₁ h₁ => ?_
    exact (resolveExpressions_walks rest).last fun rest' n₂ h₂ => h₁.append h₂
termination_by structural l => l

theorem resolveProperties_walks {scope : ScopeId} :
    ∀ (l : List (String × Expression)) {st : Scoping},
      Walks (resolveProperties scope l) st fun l' n =>
        n.Cover (writesInProperties l') (functionsInProperties l')
  | [], st => by
    rw [resolveProperties]
    exact .pure cover_empty
  | (_, e) :: rest, st => by
    rw [resolveProperties]
    refine (Expression.resolve_walks e).bind fun e' n₁ st₁ h₁ => ?_
    exact (resolveProperties_walks rest).last fun rest' n₂ h₂ => h₁.append h₂
termination_by structural l => l

end

end Code

/-! ## Programs -/

/-- A program that resolves is resolved in a walk from the empty tree, which notes the writes
and the definitions of the resolved program.  After the walk every binding is settled. -/
theorem Program.walk_of_resolve {p : Program} {r : ResolvedProgram} (h : p.resolve = .ok r) :
    ∃ st n, Scoping.Walk ⟨ScopeTree.initial, #[], []⟩ n st ∧
      n.Cover r.program.writes r.program.functions ∧
      r.tree = st.tree.finalizeMutability ∧ r.sites = st.sites := by
  have hwalks : ResolveM.Walks (resolveTopLevel p.body) ⟨ScopeTree.initial, #[], []⟩
      fun body n => n.Cover (writesInStatements false body) (functionsInStatements body) := by
    refine (ResolveM.Silent.declareAll _ _).andThen fun _ st₁ _ => ?_
    exact (ResolveM.Silent.declareAll _ _).andThen fun _ st₂ _ => resolveStatements_walks p.body
  obtain ⟨body, st, hrun, rfl⟩ := Program.resolve_eq_ok.1 h
  obtain ⟨n, hwalk, hcover⟩ := hwalks body st hrun
  exact ⟨st, n, hwalk, hcover, rfl, rfl⟩

end ClosureCache
