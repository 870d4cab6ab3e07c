/-
The bodies of a program, and the names of the function statements in them.

Statements stand together in bodies: the statements at top level, those of a block and those
of a function.  A body has a scope of its own, and what stands in the body elaborates what
stood in the body of the program before it was resolved.  A function statement gives its
instance to the name that the scope of its body holds, so its name has to be bound there.
Resolution binds it there, and then resolves the definition, which binds the name of a
function expression once more, inside of the function.
-/
import Mathlib.Data.List.Forall2
import ClosureCache.Proofs.Program.Acceptance
import ClosureCache.Proofs.Program.Occurrences

namespace ClosureCache

/-! ## Pieces of elaborated code -/

section Members

variable {t : ScopeTree} {s : ScopeId}

theorem StatementsElaborate.exists_of_mem {a' : Statement} : ∀ {l l' : List Statement},
    StatementsElaborate t s l l' → a' ∈ l' → ∃ a : Statement, a.Elaborates t s a'
  | _, _, .cons h _, .head _ => ⟨_, h⟩
  | _, _, .cons _ hrest, .tail _ ha => hrest.exists_of_mem ha

theorem ExpressionsElaborate.exists_of_mem {e' : Expression} : ∀ {l l' : List Expression},
    ExpressionsElaborate t s l l' → e' ∈ l' → ∃ e : Expression, e.Elaborates t s e'
  | _, _, .cons h _, .head _ => ⟨_, h⟩
  | _, _, .cons _ hrest, .tail _ he => hrest.exists_of_mem he

theorem PropertiesElaborate.exists_of_mem {p' : String × Expression} :
    ∀ {l l' : List (String × Expression)}, PropertiesElaborate t s l l' → p' ∈ l' →
      ∃ e : Expression, e.Elaborates t s p'.2
  | _, _, .cons h _, .head _ => ⟨_, h⟩
  | _, _, .cons _ hrest, .tail _ hp => hrest.exists_of_mem hp

end Members

namespace Code

/-- A piece of code is another one, or stands somewhere in it. -/
inductive Within : Code → Code → Prop
  | refl (c : Code) : Within c c
  | part {c d e : Code} : Within d c → e ∈ d.parts → Within e c

/-- A piece of code in a scope, and the same piece with its names bound. -/
def Elaborates (t : ScopeTree) (s : ScopeId) : Code → Code → Prop
  | statement a, statement a' => a.Elaborates t s a'
  | block b, block b' => b.Elaborates t s b'
  | definition node, definition node' => ∃ name, node.Elaborates t s name node'
  | expression e, expression e' => e.Elaborates t s e'
  | target i, target i' => i' = { i with resolution := t.meaning s i.name }
  | _, _ => False

section Elaborates

variable {t : ScopeTree} {s : ScopeId} {d' : Code}

/-- What stands in elaborated statements is elaborated. -/
theorem elaborates_of_mem_statements {l l' : List Statement} (h : StatementsElaborate t s l l')
    (hd : d' ∈ l'.map statement) : ∃ d, Elaborates t s d d' := by
  obtain ⟨a', ha, rfl⟩ := List.mem_map.1 hd
  obtain ⟨a, h⟩ := h.exists_of_mem ha
  exact ⟨statement a, h⟩

theorem elaborates_of_mem_expressions {l l' : List Expression} (h : ExpressionsElaborate t s l l')
    (hd : d' ∈ l'.map expression) : ∃ d, Elaborates t s d d' := by
  obtain ⟨e', he, rfl⟩ := List.mem_map.1 hd
  obtain ⟨e, h⟩ := h.exists_of_mem he
  exact ⟨expression e, h⟩

theorem elaborates_of_mem_optional {e e' : Option Expression} (h : OptionalElaborates t s e e')
    (hd : d' ∈ e'.toList.map expression) : ∃ d, Elaborates t s d d' := by
  cases h with
  | none => exact absurd hd List.not_mem_nil
  | @some _ e _ h =>
    obtain rfl := List.mem_singleton.1 hd
    exact ⟨expression e, h⟩

theorem elaborates_statement_part {a a' : Statement} (h : a.Elaborates t s a')
    (hd : d' ∈ (statement a').parts) : ∃ d, Elaborates t s d d' := by
  cases h with
  | declaration hinit _ _ => exact elaborates_of_mem_optional hinit hd
  | @function _ _ node _ _ hnode =>
    obtain rfl := List.mem_singleton.1 hd
    exact ⟨definition node, _, hnode⟩
  | @expression _ e _ h =>
    obtain rfl := List.mem_singleton.1 hd
    exact ⟨expression e, h⟩
  | returning hvalue => exact elaborates_of_mem_optional hvalue hd
  | @block _ b _ h =>
    obtain rfl := List.mem_singleton.1 hd
    exact ⟨block b, h⟩
  | @ifElse _ test _ consequent _ _ _ htest hconsequent halternate =>
    rcases List.mem_cons.1 hd with rfl | hd
    · exact ⟨expression test, htest⟩
    · rcases List.mem_cons.1 hd with rfl | hd
      · exact ⟨block consequent, hconsequent⟩
      · cases halternate with
        | none => exact absurd hd List.not_mem_nil
        | @some _ alternate _ halternate =>
          obtain rfl := List.mem_singleton.1 hd
          exact ⟨block alternate, halternate⟩
  | @whileLoop _ test _ body _ htest hbody =>
    rcases List.mem_cons.1 hd with rfl | hd
    · exact ⟨expression test, htest⟩
    · obtain rfl := List.mem_singleton.1 hd
      exact ⟨block body, hbody⟩

theorem elaborates_expression_part {e e' : Expression} (h : e.Elaborates t s e')
    (hd : d' ∈ (expression e').parts) : ∃ d, Elaborates t s d d' := by
  cases h with
  | object h =>
    obtain ⟨p', hp, rfl⟩ := List.mem_map.1 hd
    obtain ⟨e, h⟩ := h.exists_of_mem hp
    exact ⟨expression e, h⟩
  | array h => exact elaborates_of_mem_expressions h hd
  | @member _ object _ _ h =>
    obtain rfl := List.mem_singleton.1 hd
    exact ⟨expression object, h⟩
  | @setMember _ object _ value _ _ hobject hvalue =>
    rcases List.mem_cons.1 hd with rfl | hd
    · exact ⟨expression object, hobject⟩
    · obtain rfl := List.mem_singleton.1 hd
      exact ⟨expression value, hvalue⟩
  | @call _ callee _ _ _ hcallee harguments =>
    rcases List.mem_cons.1 hd with rfl | hd
    · exact ⟨expression callee, hcallee⟩
    · exact elaborates_of_mem_expressions harguments hd
  | @assign _ name value _ h =>
    rcases List.mem_cons.1 hd with rfl | hd
    · exact ⟨expression value, h⟩
    · obtain rfl := List.mem_singleton.1 hd
      exact ⟨target name, rfl⟩
  | @binary _ _ left _ right _ hleft hright =>
    rcases List.mem_cons.1 hd with rfl | hd
    · exact ⟨expression left, hleft⟩
    · obtain rfl := List.mem_singleton.1 hd
      exact ⟨expression right, hright⟩
  | @function _ node _ h =>
    obtain rfl := List.mem_singleton.1 hd
    exact ⟨definition node, _, h⟩
  | _ => exact absurd hd List.not_mem_nil

/-- The parts of a piece that has its names bound have theirs bound, in the same scope or in one
directly inside of it. -/
theorem Elaborates.part {c c' : Code} (h : Elaborates t s c c') (hd : d' ∈ c'.parts) :
    ∃ inner d, (inner = s ∨ ∃ sc, t.scope? inner = some sc ∧ sc.parent = some s) ∧
      Elaborates t inner d d' := by
  cases c' with
  | statement a' =>
    cases c with
    | statement a =>
      obtain ⟨d, h⟩ := elaborates_statement_part h hd
      exact ⟨s, d, .inl rfl, h⟩
    | _ => exact h.elim
  | block b' =>
    cases c with
    | block b =>
      cases h with
      | intro hinner _ hparent _ _ hbody =>
        obtain ⟨d, h⟩ := elaborates_of_mem_statements hbody hd
        exact ⟨_, d, .inr ⟨_, hinner, hparent⟩, h⟩
    | _ => exact h.elim
  | definition node' =>
    cases c with
    | definition node =>
      obtain ⟨_, ⟨hopens, hbody⟩⟩ := h
      obtain ⟨sc, hown, -, hparent, -⟩ := hopens.opened
      obtain ⟨d, h⟩ := elaborates_of_mem_statements hbody hd
      exact ⟨_, d, .inr ⟨sc, hown, hparent⟩, h⟩
    | _ => exact h.elim
  | expression e' =>
    cases c with
    | expression e =>
      obtain ⟨d, h⟩ := elaborates_expression_part h hd
      exact ⟨s, d, .inl rfl, h⟩
    | _ => exact h.elim
  | target _ => exact absurd hd List.not_mem_nil

end Elaborates

/-- Statements are parts of blocks and of definitions only. -/
theorem mem_body_of_mem_parts {stmt : Statement} {c : Code} (h : statement stmt ∈ c.parts) :
    (∃ b, c = block b ∧ stmt ∈ b.body) ∨ ∃ node, c = definition node ∧ stmt ∈ node.body := by
  have hbody : ∀ l : List Statement, statement stmt ∈ l.map statement → stmt ∈ l := fun l hl =>
    (List.mem_map_of_injective fun _ _ => statement.inj).1 hl
  cases c with
  | block b => exact .inl ⟨b, rfl, hbody _ h⟩
  | definition node => exact .inr ⟨node, rfl, hbody _ h⟩
  | statement a => cases a <;> simp [parts] at h
  | expression e => cases e <;> simp [parts] at h
  | target _ => exact absurd h List.not_mem_nil

end Code

/-! ## Bodies -/

/-- A piece of code stands somewhere in a program. -/
def Program.Contains (p : Program) (c : Code) : Prop :=
  ∃ stmt ∈ p.body, c.Within (.statement stmt)

/-- A list of statements is a body of a resolved program, and a scope is its own. -/
inductive Program.Body (p : Program) : ScopeId → List Statement → Prop
  | top : Body p ScopeTree.global p.body
  | block {b : Block} {s : ScopeId} : p.Contains (.block b) → b.scope = some s → Body p s b.body
  | function {node : FunctionNode} {s : ScopeId} : p.Contains (.definition node) →
    node.scope = some s → Body p s node.body

section Bodies

variable {p : Program} {t : ScopeTree} {source : List Statement}
  (h : StatementsElaborate t ScopeTree.global source p.body)

include h

/-- All code of the program is elaborated. -/
theorem Program.Contains.elaborates {c : Code} (hc : p.Contains c) :
    ∃ s d, Code.Elaborates t s d c := by
  obtain ⟨stmt, hstmt, hin⟩ := hc
  generalize hwhole : Code.statement stmt = whole at hin
  induction hin with
  | refl =>
    obtain ⟨source, hsource⟩ := h.exists_of_mem hstmt
    exact ⟨ScopeTree.global, .statement source, hwhole ▸ hsource⟩
  | part _ hpart ih =>
    obtain ⟨_, _, helaborates⟩ := ih hwhole
    obtain ⟨inner, d, -, h⟩ := helaborates.part hpart
    exact ⟨inner, d, h⟩

/-- So is every body, in its own scope. -/
theorem Program.Body.elaborates {s : ScopeId} {l : List Statement} (hl : p.Body s l) :
    ∃ source, StatementsElaborate t s source l := by
  cases hl with
  | top => exact ⟨_, h⟩
  | block hb hs =>
    obtain ⟨_, d, helaborates⟩ := hb.elaborates h
    cases d with
    | block b =>
      cases helaborates with
      | intro _ _ _ _ _ hbody =>
        obtain rfl := Option.some.inj hs
        exact ⟨_, hbody⟩
    | _ => exact helaborates.elim
  | function hnode hs =>
    obtain ⟨_, d, helaborates⟩ := hnode.elaborates h
    cases d with
    | definition node =>
      obtain ⟨_, ⟨hopens, hbody⟩⟩ := helaborates
      obtain rfl := Option.some.inj (hs.symm.trans hopens.scope)
      exact ⟨_, hbody⟩
    | _ => exact helaborates.elim

/-- Every statement of the program stands in a body. -/
theorem Program.Contains.exists_body {stmt : Statement} (hstmt : p.Contains (.statement stmt)) :
    ∃ s l, p.Body s l ∧ stmt ∈ l := by
  obtain ⟨top, htop, hin⟩ := hstmt
  cases hin with
  | refl => exact ⟨_, _, .top, htop⟩
  | @part _ d _ hin hpart =>
    have hd : p.Contains d := ⟨top, htop, hin⟩
    obtain ⟨_, source, helaborates⟩ := hd.elaborates h
    rcases Code.mem_body_of_mem_parts hpart with ⟨b, rfl, hmem⟩ | ⟨node, rfl, hmem⟩
    · cases source with
      | block _ =>
        cases helaborates with
        | intro => exact ⟨_, _, .block hd rfl, hmem⟩
      | _ => exact helaborates.elim
    · cases source with
      | definition _ =>
        obtain ⟨_, ⟨hopens, _⟩⟩ := helaborates
        exact ⟨_, _, .function hd hopens.scope, hmem⟩
      | _ => exact helaborates.elim

end Bodies

/-! ## Names of function statements -/

section Names

variable {t : ScopeTree} {s own : ScopeId} {i i' : Identifier} {b : BindingId}

/-- A function has its scope inside of the scope in which it stands. -/
theorem FunctionNode.Opens.own_ne {name : Option Identifier} {node node' : FunctionNode}
    (h : node.Opens t s own name node') (ht : t.Proper) : own ≠ s := by
  rintro rfl
  obtain ⟨sc, hsc, -, hparent, -⟩ := h.opened
  exact Nat.lt_irrefl _ (ht.parent_lt own sc own hsc hparent)

/-- Scopes do not hold one another's bindings. -/
theorem ScopeTree.Proper.eq_of_lookupLocal {name name' : String} (ht : t.Proper)
    (hs : t.lookupLocal s name = some b) (hown : t.lookupLocal own name' = some b) : s = own := by
  obtain ⟨d, hd, rfl⟩ := ht.lookupLocal_spec hs
  obtain ⟨d', hd', rfl⟩ := ht.lookupLocal_spec hown
  rw [Option.some.inj (hd.symm.trans hd')]

/-- The own name of a function expression is not bound to what the scope around the function
holds. -/
theorem FunctionNode.BindsOwnName.resolution_ne {node : FunctionNode}
    (h : node.BindsOwnName t own i i') (ht : t.Proper) (hne : own ≠ s)
    (hb : t.lookupLocal s i.name = some b) : i'.name = i.name ∧ i'.resolution ≠ .binding b := by
  rw [BindsOwnName] at h
  split at h
  · subst h
    exact ⟨rfl, fun heq => by cases heq⟩
  · obtain ⟨b', hb', rfl⟩ := h
    refine ⟨rfl, fun heq => hne ?_⟩
    obtain rfl := Resolution.binding.inj heq
    exact ht.eq_of_lookupLocal hb' hb

/-- The name of a function statement is held by the scope of the body that the statement stands
in.  It is bound to what is held there if the definition is no function expression, and only
then: resolving a function expression binds its name again, inside of the function or to
nothing. -/
theorem StatementsElaborate.functionName {source l : List Statement} (ht : t.Proper)
    (h : StatementsElaborate t s source l) {node : FunctionNode} (hnode : .function node ∈ l)
    (hi : node.name = some i) : ∃ b d, t.lookupLocal s i.name = some b ∧
      t.binding? b = some d ∧ d.scope = s ∧
      (i.resolution = .binding b ↔ node.kind ≠ .expression) := by
  obtain ⟨stmt, helaborates⟩ := h.exists_of_mem hnode
  cases helaborates with
  | @function _ name original _ hname hdefinition =>
    obtain ⟨hopens, -⟩ := hdefinition
    rw [hopens.same.1]
    generalize original.name = given at hname
    by_cases hkind : original.kind = .expression
    · have hown := hopens.ownName hkind
      rw [hi] at hown
      cases hown with
      | some hown =>
        cases hname with
        | some hheld =>
          obtain ⟨b, hb, rfl⟩ := hheld
          obtain ⟨hsame, hne⟩ := hown.resolution_ne ht (hopens.own_ne ht) hb
          obtain ⟨d, hd, hscope⟩ := ht.lookupLocal_spec hb
          exact ⟨b, d, hsame ▸ hb, hd, hscope, fun heq => absurd heq hne, fun hk => absurd hkind hk⟩
    · obtain rfl := (hopens.kept hkind).symm.trans hi
      cases hname with
      | some hheld =>
        obtain ⟨b, hb, rfl⟩ := hheld
        obtain ⟨d, hd, hscope⟩ := ht.lookupLocal_spec hb
        exact ⟨b, d, hb, hd, hscope, fun _ => hkind, fun _ => rfl⟩

end Names

end ClosureCache
