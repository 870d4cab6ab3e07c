/-
Places in the text of a program, and what is referred to at each of them.

`Code` is a piece of a program that has others in it, `parts` are those in the order in
which they are read: the value of an assignment before its target, and the body of a
definition where the definition stands.  A place in a piece of code is the list of
numbers of parts that leads to it, and the lexicographic order of these lists is the
order of the text.  `Enumerated` says that a list of references is what the places of a
piece of code refer to, in order; the references that capture analysis collects are.
-/
import Mathlib.Data.List.Lex
import ClosureCache.Capture.References

namespace ClosureCache

inductive Code where
  | statement (s : Statement)
  | block (b : Block)
  | definition (node : FunctionNode)
  | expression (e : Expression)
  /-- The name that an assignment writes. -/
  | target (i : Identifier)

namespace Code

/-- The pieces that a piece is made of, in the order in which they are read. -/
def parts : Code → List Code
  | statement (.declaration _ _ init _) => init.toList.map expression
  | statement (.function node) => [definition node]
  | statement (.expression e) => [expression e]
  | statement (.returning value) => value.toList.map expression
  | statement (.block b) => [block b]
  | statement (.ifElse test consequent alternate) =>
    expression test :: block consequent :: alternate.toList.map block
  | statement (.whileLoop test body) => [expression test, block body]
  | block b => b.body.map statement
  | definition node => node.body.map statement
  | expression (.object properties) => properties.map fun p => expression p.2
  | expression (.array elements) => elements.map expression
  | expression (.member object _) => [expression object]
  | expression (.setMember object _ value) => [expression object, expression value]
  | expression (.call callee arguments) => expression callee :: arguments.map expression
  | expression (.assign name value) => [expression value, target name]
  | expression (.binary _ left right) => [expression left, expression right]
  | expression (.function node) => [definition node]
  | expression _ => []
  | target _ => []

/-- What a piece of code refers to by itself. -/
def reference? : Code → Option Reference
  | expression (.identifier i) => i.binding?.map .binding
  | expression (.this provider) => provider.map .this
  | expression (.dynamicEval _) => some .dynamic
  | target i => i.binding?.map .binding
  | _ => none

/-- A reference stands at a place in a piece of code. -/
inductive Occurs : Code → List Nat → Reference → Prop
  | here {c : Code} {r : Reference} : c.reference? = some r → Occurs c [] r
  | inside {c d : Code} {i : Nat} {path : List Nat} {r : Reference} :
    c.parts[i]? = some d → Occurs d path r → Occurs c (i :: path) r

/-- The first place at which a reference stands. -/
structure First (c : Code) (path : List Nat) (r : Reference) : Prop where
  occurs : c.Occurs path r
  least : ∀ path', c.Occurs path' r → path ≤ path'

/-! ## References in order -/

/-- Pieces numbered from `k` on refer to a list of references in order. -/
def EnumeratedFrom (k : Nat) (ps : List Code) (refs : List Reference) : Prop :=
  ∃ l : List (List Nat × Reference), l.map Prod.snd = refs ∧
    l.Pairwise (fun a b => a.1 < b.1) ∧
    ∀ path r, (path, r) ∈ l ↔
      ∃ i c rest, ps[i]? = some c ∧ path = (k + i) :: rest ∧ c.Occurs rest r

/-- A piece of code refers to a list of references in order. -/
def Enumerated (c : Code) (refs : List Reference) : Prop :=
  ∃ l : List (List Nat × Reference), l.map Prod.snd = refs ∧
    l.Pairwise (fun a b => a.1 < b.1) ∧ ∀ path r, (path, r) ∈ l ↔ c.Occurs path r

section Enumerated

variable {c : Code} {k : Nat} {ps qs : List Code} {refs refs' : List Reference}

theorem enumeratedFrom_nil (k : Nat) : EnumeratedFrom k [] [] :=
  ⟨[], rfl, .nil, fun _ _ => ⟨fun h => absurd h List.not_mem_nil,
    fun ⟨_, _, _, h, _⟩ => by cases h⟩⟩

/-- The places in a first piece come before those in the others. -/
theorem Enumerated.cons (hc : c.Enumerated refs) (hps : EnumeratedFrom (k + 1) ps refs') :
    EnumeratedFrom k (c :: ps) (refs ++ refs') := by
  obtain ⟨l, rfl, hsorted, hmem⟩ := hc
  obtain ⟨l', rfl, hsorted', hmem'⟩ := hps
  refine ⟨l.map (fun a => (k :: a.1, a.2)) ++ l', ?_, List.pairwise_append.2 ⟨?_, hsorted', ?_⟩,
    fun path r => ?_⟩
  · rw [List.map_append, List.map_map]
    rfl
  · exact List.pairwise_map.2 (hsorted.imp fun h => List.cons_lt_cons_iff.2 (.inr ⟨rfl, h⟩))
  · intro a ha b hb
    obtain ⟨a', -, rfl⟩ := List.mem_map.1 ha
    obtain ⟨i, d, rest, -, hpath, -⟩ := (hmem' b.1 b.2).1 hb
    rw [hpath]
    exact List.cons_lt_cons_iff.2 (.inl (by omega))
  · rw [List.mem_append, hmem', List.mem_map]
    constructor
    · rintro (⟨a, ha, heq⟩ | ⟨i, d, rest, hd, rfl, hocc⟩)
      · obtain ⟨rfl, rfl⟩ := Prod.mk.inj heq
        exact ⟨0, c, a.1, rfl, rfl, (hmem _ _).1 ha⟩
      · exact ⟨i + 1, d, rest, hd, by rw [Nat.add_right_comm, Nat.add_assoc], hocc⟩
    · rintro ⟨i, d, rest, hd, rfl, hocc⟩
      cases i with
      | zero =>
        obtain rfl := Option.some.inj hd
        exact .inl ⟨(rest, r), (hmem _ _).2 hocc, rfl⟩
      | succ i => exact .inr ⟨i, d, rest, hd, by rw [Nat.add_right_comm, Nat.add_assoc], hocc⟩

theorem Enumerated.single (hc : c.Enumerated refs) : EnumeratedFrom k [c] refs := by
  have := hc.cons (enumeratedFrom_nil (k + 1))
  rwa [List.append_nil] at this

/-- A piece that refers to nothing by itself refers to what its parts do. -/
theorem Enumerated.whole (hown : c.reference? = none) (h : EnumeratedFrom 0 c.parts refs) :
    c.Enumerated refs := by
  obtain ⟨l, hl, hsorted, hmem⟩ := h
  refine ⟨l, hl, hsorted, fun path r => (hmem path r).trans ⟨?_, fun hocc => ?_⟩⟩
  · rintro ⟨i, d, rest, hd, rfl, hocc⟩
    rw [Nat.zero_add]
    exact .inside hd hocc
  · cases hocc with
    | here hr =>
      rw [hown] at hr
      cases hr
    | @inside _ d i rest _ hd hocc => exact ⟨i, d, rest, hd, by rw [Nat.zero_add], hocc⟩

/-- A piece without parts refers to what it refers to by itself. -/
theorem enumerated_leaf (hparts : c.parts = []) : c.Enumerated c.reference?.toList := by
  cases hown : c.reference? with
  | none => exact .whole hown (hparts ▸ enumeratedFrom_nil 0)
  | some r =>
    refine ⟨[([], r)], rfl, List.pairwise_singleton _ _, fun path r' => ⟨fun h => ?_, fun h => ?_⟩⟩
    · obtain ⟨rfl, rfl⟩ := Prod.mk.inj (List.mem_singleton.1 h)
      exact .here hown
    · cases h with
      | here hr =>
        obtain rfl := Option.some.inj (hown.symm.trans hr)
        exact List.mem_singleton.2 rfl
      | inside hd =>
        rw [hparts] at hd
        cases hd

theorem Enumerated.mem_iff (h : c.Enumerated refs) {r : Reference} :
    r ∈ refs ↔ ∃ path, c.Occurs path r := by
  obtain ⟨l, rfl, -, hmem⟩ := h
  rw [List.mem_map]
  refine ⟨fun ⟨a, ha, hr⟩ => ⟨a.1, hr ▸ (hmem a.1 a.2).1 ha⟩, fun ⟨path, hocc⟩ => ?_⟩
  exact ⟨(path, r), (hmem path r).2 hocc, rfl⟩

/-- A reference that a list has for the first time stands at its first place, and what
the list has only later stands further on. -/
theorem Enumerated.first_of_split {l₁ l₂ : List Reference} {r : Reference}
    (h : c.Enumerated (l₁ ++ r :: l₂)) (hr : r ∉ l₁) : ∃ path, c.First path r ∧
      ∀ r', r' ∉ l₁ → r' ≠ r → ∀ path', c.Occurs path' r' → path < path' := by
  obtain ⟨l, hl, hsorted, hmem⟩ := h
  obtain ⟨m₁, m, rfl, rfl, hm⟩ := List.map_eq_append_iff.1 hl
  obtain ⟨⟨path, r⟩, m₂, rfl, rfl, -⟩ := List.map_eq_cons_iff.1 hm
  -- a place of what is not in the first part is this one or further on
  have hplace : ∀ r', r' ∉ m₁.map Prod.snd → ∀ path', c.Occurs path' r' →
      (path', r') = (path, r) ∨ path < path' := by
    intro r' hr' path' hocc
    rcases List.mem_append.1 ((hmem path' r').2 hocc) with hin | hin
    · exact absurd (List.mem_map.2 ⟨_, hin, rfl⟩) hr'
    · rcases List.mem_cons.1 hin with heq | hin
      · exact .inl heq
      · have hcons := (List.pairwise_append.1 hsorted).2.1
        exact .inr ((List.pairwise_cons.1 hcons).1 _ hin)
  refine ⟨path, ⟨(hmem _ _).1 (List.mem_append_right _ List.mem_cons_self), fun path' hocc => ?_⟩,
    fun r' hr' hne path' hocc => ?_⟩
  · rcases hplace r hr path' hocc with heq | hlt
    · exact le_of_eq (Prod.mk.inj heq).1.symm
    · exact le_of_lt hlt
  · exact (hplace r' hr' path' hocc).resolve_left fun heq => hne (Prod.mk.inj heq).2

theorem Enumerated.exists_first (h : c.Enumerated refs) {r : Reference} (hr : r ∈ refs) :
    ∃ path, c.First path r := by
  obtain ⟨l₁, l₂, rfl, hnew⟩ := List.eq_append_cons_of_mem hr
  obtain ⟨path, hfirst, -⟩ := h.first_of_split hnew
  exact ⟨path, hfirst⟩

end Enumerated

theorem toList_reference?_of_name (i : Identifier) :
    (i.binding?.map Reference.binding).toList = i.resolution.references := by
  obtain ⟨name, resolution⟩ := i
  cases resolution with
  | _ => rfl

mutual

theorem enumerated_statement :
    ∀ s : Statement, (statement s).Enumerated s.references
  | .declaration _ _ none _ => by
    rw [Statement.references]
    exact .whole rfl (enumeratedFrom_nil 0)
  | .declaration _ _ (some init) _ => by
    rw [Statement.references]
    exact .whole rfl (enumerated_expression init).single
  | .function node => by
    rw [Statement.references]
    exact .whole rfl (enumerated_definition node).single
  | .expression e => by
    rw [Statement.references]
    exact .whole rfl (enumerated_expression e).single
  | .returning none => by
    rw [Statement.references]
    exact .whole rfl (enumeratedFrom_nil 0)
  | .returning (some value) => by
    rw [Statement.references]
    exact .whole rfl (enumerated_expression value).single
  | .block b => by
    rw [Statement.references]
    exact .whole rfl (enumerated_block b).single
  | .ifElse test consequent none => by
    rw [Statement.references]
    exact .whole rfl ((enumerated_expression test).cons (enumerated_block consequent).single)
  | .ifElse test consequent (some alternate) => by
    rw [Statement.references, List.append_assoc]
    exact .whole rfl ((enumerated_expression test).cons
      ((enumerated_block consequent).cons (enumerated_block alternate).single))
  | .whileLoop test body => by
    rw [Statement.references]
    exact .whole rfl ((enumerated_expression test).cons (enumerated_block body).single)

theorem enumerated_statements :
    ∀ (k : Nat) (l : List Statement),
      EnumeratedFrom k (l.map statement) (referencesInStatements l)
  | k, [] => by
    rw [referencesInStatements]
    exact enumeratedFrom_nil k
  | k, s :: rest => by
    rw [referencesInStatements]
    exact (enumerated_statement s).cons (enumerated_statements (k + 1) rest)

theorem enumerated_block : ∀ b : Block, (block b).Enumerated b.references
  | ⟨body, _⟩ => by
    rw [Block.references]
    exact .whole rfl (enumerated_statements 0 body)

/-- The references of a body are what stands in its text, in the order of the text. -/
theorem enumerated_definition : ∀ node : FunctionNode, (definition node).Enumerated node.references
  | { body := body, .. } => by
    rw [FunctionNode.references]
    exact .whole rfl (enumerated_statements 0 body)

theorem enumerated_expression : ∀ e : Expression, (expression e).Enumerated e.references
  | .literal _ => by
    rw [Expression.references]
    exact enumerated_leaf rfl
  | .identifier i => by
    rw [Expression.references, ← toList_reference?_of_name]
    exact enumerated_leaf rfl
  | .this none => by
    rw [Expression.references]
    exact enumerated_leaf rfl
  | .this (some _) => by
    rw [Expression.references]
    exact enumerated_leaf rfl
  | .object properties => by
    rw [Expression.references]
    exact .whole rfl (enumerated_properties 0 properties)
  | .array elements => by
    rw [Expression.references]
    exact .whole rfl (enumerated_expressions 0 elements)
  | .member object _ => by
    rw [Expression.references]
    exact .whole rfl (enumerated_expression object).single
  | .setMember object _ value => by
    rw [Expression.references]
    exact .whole rfl ((enumerated_expression object).cons (enumerated_expression value).single)
  | .call callee arguments => by
    rw [Expression.references]
    exact .whole rfl ((enumerated_expression callee).cons (enumerated_expressions 1 arguments))
  | .assign name value => by
    rw [Expression.references, ← toList_reference?_of_name]
    have hname : (target name).Enumerated _ := enumerated_leaf rfl
    exact .whole rfl ((enumerated_expression value).cons hname.single)
  | .binary _ left right => by
    rw [Expression.references]
    exact .whole rfl ((enumerated_expression left).cons (enumerated_expression right).single)
  | .function node => by
    rw [Expression.references]
    exact .whole rfl (enumerated_definition node).single
  | .dynamicEval _ => by
    rw [Expression.references]
    exact enumerated_leaf rfl

theorem enumerated_expressions :
    ∀ (k : Nat) (l : List Expression),
      EnumeratedFrom k (l.map expression) (referencesInExpressions l)
  | k, [] => by
    rw [referencesInExpressions]
    exact enumeratedFrom_nil k
  | k, e :: rest => by
    rw [referencesInExpressions]
    exact (enumerated_expression e).cons (enumerated_expressions (k + 1) rest)

theorem enumerated_properties :
    ∀ (k : Nat) (l : List (String × Expression)),
      EnumeratedFrom k (l.map fun p => expression p.2) (referencesInProperties l)
  | k, [] => by
    rw [referencesInProperties]
    exact enumeratedFrom_nil k
  | k, (_, e) :: rest => by
    rw [referencesInProperties]
    exact (enumerated_expression e).cons (enumerated_properties (k + 1) rest)

end

end Code

end ClosureCache
