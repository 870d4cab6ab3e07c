/-
Well-scoped programs.

Two things make a program's names wrong: a scope that declares a name twice where the
kinds of the declarations do not allow it, and an assignment to a constant or to the own
name of a function expression.  Both are stated here on the text alone.  The scopes around
a place are given as the lists of what each of them declares, the innermost first; no
scope has a number and nothing is bound.
-/
import Mathlib.Data.List.Pairwise
import ClosureCache.Program.Declarations

namespace ClosureCache

/-! ## The declarations of one scope -/

/-- Whether declarations of two kinds may give a scope the same name: `var` and function
declarations may repeat one another, and they may repeat a parameter and the arguments
collection. -/
def BindingKind.mayMeet : BindingKind → BindingKind → Bool
  | .var, .var | .functionDeclaration, .functionDeclaration => true
  | .var, .functionDeclaration | .functionDeclaration, .var => true
  | .var, .parameter | .parameter, .var => true
  | .functionDeclaration, .parameter | .parameter, .functionDeclaration => true
  | .var, .arguments | .arguments, .var => true
  | .functionDeclaration, .arguments | .arguments, .functionDeclaration => true
  | _, _ => false

theorem BindingKind.mayMeet_comm (k l : BindingKind) : k.mayMeet l = l.mayMeet k := by
  cases k <;> cases l <;> rfl

/-- Two declarations may stand in one scope. -/
def Declared.Fits (d e : Declared) : Prop := d.name = e.name → d.kind.mayMeet e.kind = true

instance : Std.Symm Declared.Fits :=
  ⟨fun d e h hname => by rw [BindingKind.mayMeet_comm, h hname.symm]⟩

/-- No name is declared twice among the declarations of a scope, unless their kinds may
meet. -/
def Compatible (ds : List Declared) : Prop := ds.Pairwise Declared.Fits

theorem Compatible.of_append {ds es : List Declared} (h : Compatible (ds ++ es)) :
    Compatible ds := (List.pairwise_append.1 h).1

theorem compatible_append_singleton {ds : List Declared} {d : Declared} :
    Compatible (ds ++ [d]) ↔ Compatible ds ∧ ∀ e ∈ ds, e.Fits d := by
  rw [Compatible, List.pairwise_append]
  simp [Compatible]

/-- Of two different declarations of a name the kinds may meet. -/
theorem Compatible.mayMeet {ds : List Declared} (h : Compatible ds) {d e : Declared} (hd : d ∈ ds)
    (he : e ∈ ds) (hne : d ≠ e) (hname : d.name = e.name) : d.kind.mayMeet e.kind = true :=
  h.forall hd he hne hname

namespace FunctionNode

def parameters (node : FunctionNode) : List Declared :=
  node.params.map (fun p => ⟨p.name, .parameter, .slot⟩) ++
    node.rest.toList.map fun r => ⟨r.name, .rest, .slot⟩

/-- The arguments collection, which a function declares unless it is an arrow or has a
parameter of that name. -/
def implicitArguments (node : FunctionNode) : List Declared :=
  if node.isArrow || node.parameters.any (·.name == "arguments") then []
  else [⟨"arguments", .arguments, .slot⟩]

/-- What a function declares in its own scope, its own name apart. -/
def declarations (node : FunctionNode) : List Declared :=
  node.parameters ++ node.implicitArguments ++ hoistedVars node.body ++ lexicals node.body

def ownName (node : FunctionNode) : List Declared :=
  if node.kind = .expression then node.name.toList.map fun name => ⟨name.name, .functionName, .slot⟩
  else []

/-- The own name of a function expression, unless the function declares it otherwise. -/
def visibleName (node : FunctionNode) : List Declared :=
  node.ownName.filter fun d => !node.declarations.any (·.name == d.name)

end FunctionNode

def Program.declarations (p : Program) : List Declared := hoistedVars p.body ++ lexicals p.body

/-! ## Assignments -/

/-- What a name stands for may be assigned: the innermost scope that declares it declares
neither a constant nor the own name of a function. -/
def Assignable : List (List Declared) → String → Prop
  | [], _ => True
  | frame :: outer, name =>
    if ∃ d ∈ frame, d.name = name then
      ∀ d ∈ frame, d.name = name → d.kind ≠ .constBinding ∧ d.kind ≠ .functionName
    else Assignable outer name

theorem assignable_of_declares {frame : List Declared} {outer : List (List Declared)}
    {name : String} (h : ∃ d ∈ frame, d.name = name) :
    Assignable (frame :: outer) name ↔
      ∀ d ∈ frame, d.name = name → d.kind ≠ .constBinding ∧ d.kind ≠ .functionName := by
  rw [Assignable, if_pos h]

theorem assignable_of_not_declares {frame : List Declared} {outer : List (List Declared)}
    {name : String} (h : ¬∃ d ∈ frame, d.name = name) :
    Assignable (frame :: outer) name ↔ Assignable outer name := by
  rw [Assignable, if_neg h]

theorem BindingKind.isImmutable_eq_false {k : BindingKind} :
    k.isImmutable = false ↔ k ≠ .constBinding ∧ k ≠ .functionName := by
  cases k <;> simp [isImmutable]

/-! ## Own names -/

namespace FunctionNode

variable {node : FunctionNode} {d : Declared} {name : String} {ctx : List (List Declared)}

theorem mayRepeat_of_mem_parameters (hd : d ∈ node.parameters) : d.kind.mayRepeat = false := by
  rw [parameters] at hd
  rcases List.mem_append.1 hd with hd | hd
  · obtain ⟨p, -, rfl⟩ := List.mem_map.1 hd
    rfl
  · obtain ⟨r, -, rfl⟩ := List.mem_map.1 hd
    rfl

theorem kind_of_mem_ownName (hd : d ∈ node.ownName) : d.kind = .functionName := by
  rw [ownName] at hd
  split at hd
  · obtain ⟨i, -, rfl⟩ := List.mem_map.1 hd
    rfl
  · cases hd

theorem mem_visibleName :
    d ∈ node.visibleName ↔ d ∈ node.ownName ∧ ∀ e ∈ node.declarations, e.name ≠ d.name := by
  simp [visibleName]

theorem visibleName_of_ne (h : node.kind ≠ .expression) : node.visibleName = [] := by
  rw [visibleName, ownName, if_neg h]
  rfl

theorem visibleName_of_none (h : node.name = none) : node.visibleName = [] := by
  rw [visibleName, ownName, h]
  split <;> rfl

/-- Whether the own name of a function expression is visible. -/
theorem visibleName_of_some (hkind : node.kind = .expression) {i : Identifier}
    (h : node.name = some i) : node.visibleName =
      if ∃ d ∈ node.declarations, d.name = i.name then []
      else [⟨i.name, .functionName, .slot⟩] := by
  rw [visibleName, ownName, if_pos hkind, h, Option.toList_some, List.map_singleton]
  split
  · next hd => rw [List.filter_eq_nil_iff]; simpa using hd
  · next hd => rw [List.filter_eq_self]; simpa using hd

/-- The own name never collides. -/
theorem compatible_visibleName (h : Compatible node.declarations) :
    Compatible (node.declarations ++ node.visibleName) := by
  refine List.pairwise_append.2 ⟨h, ?_, fun d hd e he hname =>
    absurd hname ((mem_visibleName.1 he).2 d hd)⟩
  have hlength : node.visibleName.length ≤ 1 := by
    refine Nat.le_trans (List.length_filter_le _ _) ?_
    rw [ownName]
    split
    · cases node.name <;> simp
    · exact Nat.zero_le _
  match node.visibleName, hlength with
  | [], _ => exact .nil
  | [_], _ => exact List.pairwise_singleton _ _

/-- An own name that the function declares otherwise is as good as none. -/
theorem assignable_visibleName : Assignable ((node.declarations ++ node.visibleName) :: ctx) name ↔
    Assignable (node.declarations :: node.ownName :: ctx) name := by
  by_cases hd : ∃ d ∈ node.declarations, d.name = name
  · have hboth : ∃ d ∈ node.declarations ++ node.visibleName, d.name = name := by
      obtain ⟨d, hd, hname⟩ := hd
      exact ⟨d, List.mem_append_left _ hd, hname⟩
    rw [assignable_of_declares hd, assignable_of_declares hboth]
    refine ⟨fun h d hd => h d (List.mem_append_left _ hd), fun h e he hname => ?_⟩
    rcases List.mem_append.1 he with he | he
    · exact h e he hname
    · obtain ⟨d, hd, hd'⟩ := hd
      exact absurd (hd'.trans hname.symm) ((mem_visibleName.1 he).2 d hd)
  · rw [assignable_of_not_declares hd]
    have hvisible : ∀ d, d.name = name →
        (d ∈ node.declarations ++ node.visibleName ↔ d ∈ node.ownName) := by
      rintro d rfl
      rw [List.mem_append, mem_visibleName]
      refine ⟨fun h => h.elim (fun h => absurd ⟨d, h, rfl⟩ hd) And.left, fun h => .inr ⟨h, ?_⟩⟩
      exact fun e he hname => hd ⟨e, he, hname⟩
    by_cases ho : ∃ d ∈ node.ownName, d.name = name
    · obtain ⟨d, hown, hname⟩ := ho
      have hin := (hvisible d hname).2 hown
      rw [assignable_of_declares ⟨d, hown, hname⟩, assignable_of_declares ⟨d, hin, hname⟩]
      have hkind := kind_of_mem_ownName hown
      exact ⟨fun h => absurd hkind (h d hin hname).2, fun h => absurd hkind (h d hown hname).2⟩
    · rw [assignable_of_not_declares ho, assignable_of_not_declares]
      rintro ⟨d, hin, hname⟩
      exact ho ⟨d, (hvisible d hname).1 hin, hname⟩

end FunctionNode

/-! ## Kinds of declarations -/

mutual

/-- What is hoisted are `var` declarations. -/
theorem Statement.hoistedVars_kind :
    ∀ stmt : Statement, ∀ v ∈ stmt.hoistedVars, v.kind = .var
  | .declaration .var _ _ _, v, hv => by
    rw [Statement.hoistedVars] at hv
    obtain rfl := List.mem_singleton.1 hv
    rfl
  | .declaration .letDeclaration _ _ _, v, hv => by simp [Statement.hoistedVars] at hv
  | .declaration .constDeclaration _ _ _, v, hv => by simp [Statement.hoistedVars] at hv
  | .function _, v, hv => by simp [Statement.hoistedVars] at hv
  | .expression _, v, hv => by simp [Statement.hoistedVars] at hv
  | .returning _, v, hv => by simp [Statement.hoistedVars] at hv
  | .block b, v, hv => by
    rw [Statement.hoistedVars] at hv
    exact Block.hoistedVars_kind b v hv
  | .ifElse _ consequent none, v, hv => by
    rw [Statement.hoistedVars] at hv
    exact Block.hoistedVars_kind consequent v hv
  | .ifElse _ consequent (some alternate), v, hv => by
    rw [Statement.hoistedVars] at hv
    rcases List.mem_append.1 hv with hv | hv
    · exact Block.hoistedVars_kind consequent v hv
    · exact Block.hoistedVars_kind alternate v hv
  | .whileLoop _ body, v, hv => by
    rw [Statement.hoistedVars] at hv
    exact Block.hoistedVars_kind body v hv

theorem Block.hoistedVars_kind : ∀ b : Block, ∀ v ∈ b.hoistedVars, v.kind = .var
  | ⟨body, _⟩, v, hv => by
    rw [Block.hoistedVars] at hv
    exact hoistedVars_kind body v hv

theorem hoistedVars_kind : ∀ l : List Statement, ∀ v ∈ hoistedVars l, v.kind = .var
  | [], v, hv => by simp [hoistedVars] at hv
  | stmt :: rest, v, hv => by
    rw [hoistedVars] at hv
    rcases List.mem_append.1 hv with hv | hv
    · exact Statement.hoistedVars_kind stmt v hv
    · exact hoistedVars_kind rest v hv

end

/-- What stands directly in a scope declares constants, `let` names and functions. -/
theorem kind_of_mem_lexicals {body : List Statement} {d : Declared} (hd : d ∈ lexicals body) :
    d.kind = .letBinding ∨ d.kind = .constBinding ∨ d.kind = .functionDeclaration := by
  obtain ⟨stmt, -, hd⟩ := List.mem_filterMap.1 hd
  cases stmt with
  | declaration kind name init storage =>
    cases kind with
    | var => cases hd
    | letDeclaration => exact .inl (Option.some.inj hd ▸ rfl)
    | constDeclaration => exact .inr (.inl (Option.some.inj hd ▸ rfl))
  | function node =>
    obtain ⟨i, -, rfl⟩ := Option.map_eq_some_iff.1 hd
    exact .inr (.inr rfl)
  | _ => cases hd

/-- Of the declarations in the text of a body, those that may be repeated may repeat. -/
theorem mayRepeat_of_mem_lexicals {body : List Statement} {d : Declared} (hd : d ∈ lexicals body)
    (h : d.kind.isRepeatable = true) : d.kind.mayRepeat = true := by
  rcases kind_of_mem_lexicals hd with hk | hk | hk <;> rw [hk] at h ⊢ <;> first | rfl | cases h

/-! ## Code -/

mutual

/-- A statement is well scoped inside of scopes that declare what `ctx` lists. -/
def Statement.WellScoped (ctx : List (List Declared)) : Statement → Prop
  | .declaration _ _ none _ => True
  | .declaration _ _ (some init) _ => init.WellScoped ctx
  | .function node => node.WellScoped ctx
  | .expression e => e.WellScoped ctx
  | .returning none => True
  | .returning (some value) => value.WellScoped ctx
  | .block b => b.WellScoped ctx
  | .ifElse test consequent none => test.WellScoped ctx ∧ consequent.WellScoped ctx
  | .ifElse test consequent (some alternate) =>
    test.WellScoped ctx ∧ consequent.WellScoped ctx ∧ alternate.WellScoped ctx
  | .whileLoop test body => test.WellScoped ctx ∧ body.WellScoped ctx

def WellScopedStatements (ctx : List (List Declared)) : List Statement → Prop
  | [] => True
  | s :: rest => s.WellScoped ctx ∧ WellScopedStatements ctx rest

/-- A block declares its `let`, `const` and function names. -/
def Block.WellScoped (ctx : List (List Declared)) : Block → Prop
  | ⟨body, _⟩ => Compatible (lexicals body) ∧ WellScopedStatements (lexicals body :: ctx) body

/-- The own name of a function expression stands behind everything that the function
declares. -/
def FunctionNode.WellScoped (ctx : List (List Declared)) : FunctionNode → Prop
  | node@{ body := body, .. } => Compatible node.declarations ∧
    WellScopedStatements (node.declarations :: node.ownName :: ctx) body

def Expression.WellScoped (ctx : List (List Declared)) : Expression → Prop
  | .literal _ => True
  | .identifier _ => True
  | .this _ => True
  | .object properties => WellScopedProperties ctx properties
  | .array elements => WellScopedExpressions ctx elements
  | .member object _ => object.WellScoped ctx
  | .setMember object _ value => object.WellScoped ctx ∧ value.WellScoped ctx
  | .call callee arguments => callee.WellScoped ctx ∧ WellScopedExpressions ctx arguments
  | .assign target value => value.WellScoped ctx ∧ Assignable ctx target.name
  | .binary _ left right => left.WellScoped ctx ∧ right.WellScoped ctx
  | .function node => node.WellScoped ctx
  | .dynamicEval _ => True

def WellScopedExpressions (ctx : List (List Declared)) : List Expression → Prop
  | [] => True
  | e :: rest => e.WellScoped ctx ∧ WellScopedExpressions ctx rest

def WellScopedProperties (ctx : List (List Declared)) : List (String × Expression) → Prop
  | [] => True
  | (_, e) :: rest => e.WellScoped ctx ∧ WellScopedProperties ctx rest

end

/-- A program whose scopes declare no name twice that may not be repeated, and which
assigns nothing that may not be assigned. -/
def Program.WellScoped (p : Program) : Prop :=
  Compatible p.declarations ∧ WellScopedStatements [p.declarations] p.body

end ClosureCache
