/-
The JSON form of programs loses nothing.

`InRange` says that the numbers in a program fit the words they are held in: 32 bits
for scopes, bindings and definitions, 64 bits for the ends of spans.  A program whose
form is no deeper than readers go is read back from its text, and any two programs
have different texts.

The readers count the levels that are left, so reading back is shown for all forms of
at most `n` levels by induction on `n`: what a reader meets one level further down
has one level less.
-/
import ClosureCache.Program.Json
import ClosureCache.Proofs.Json.Parts
import ClosureCache.Proofs.Json.RoundTrip

namespace ClosureCache

open Json hiding object array string null bool

/-! ## Numbers in a program -/

def SourceSpan.InRange (s : SourceSpan) : Prop :=
  s.startOffset < UInt64.size ∧ s.endOffset < UInt64.size ∧ s.startLine < UInt64.size ∧
    s.startColumn < UInt64.size ∧ s.endLine < UInt64.size ∧ s.endColumn < UInt64.size

def Identifier.InRange (i : Identifier) : Prop := ∀ b ∈ i.binding?, b.index < UInt32.size

/-- The numbers that resolution has put into a definition fit 32 bits. -/
def FunctionNode.NumbersInRange (node : FunctionNode) : Prop :=
  (∀ i ∈ node.name, i.InRange) ∧ (∀ i ∈ node.params, i.InRange) ∧
    (∀ i ∈ node.rest, i.InRange) ∧ node.span.InRange ∧ (∀ s ∈ node.site, s.index < UInt32.size) ∧
    (∀ s ∈ node.scope, s.index < UInt32.size) ∧ ∀ b ∈ node.arguments, b.index < UInt32.size

mutual

def Statement.InRange : Statement → Prop
  | .declaration _ name init _ => name.InRange ∧ OptionalInRange init
  | .function node => node.InRange
  | .expression e => e.InRange
  | .returning value => OptionalInRange value
  | .block b => b.InRange
  | .ifElse test consequent alternate =>
    test.InRange ∧ consequent.InRange ∧ AlternateInRange alternate
  | .whileLoop test body => test.InRange ∧ body.InRange

def StatementsInRange : List Statement → Prop
  | [] => True
  | s :: rest => s.InRange ∧ StatementsInRange rest

def Block.InRange : Block → Prop
  | ⟨body, scope⟩ => StatementsInRange body ∧ ∀ s ∈ scope, s.index < UInt32.size

def AlternateInRange : Option Block → Prop
  | none => True
  | some b => b.InRange

def FunctionNode.InRange : FunctionNode → Prop
  | ⟨name, kind, flavor, memoized, params, rest, body, span, site, scope, arguments⟩ =>
    FunctionNode.NumbersInRange
      ⟨name, kind, flavor, memoized, params, rest, body, span, site, scope, arguments⟩ ∧
    StatementsInRange body

def Expression.InRange : Expression → Prop
  | .literal _ => True
  | .identifier i => i.InRange
  | .this provider => ∀ s ∈ provider, s.index < UInt32.size
  | .object properties => PropertiesInRange properties
  | .array elements => ExpressionsInRange elements
  | .member object _ => object.InRange
  | .setMember object _ value => object.InRange ∧ value.InRange
  | .call callee arguments => callee.InRange ∧ ExpressionsInRange arguments
  | .assign target value => target.InRange ∧ value.InRange
  | .binary _ left right => left.InRange ∧ right.InRange
  | .function node => node.InRange
  | .dynamicEval _ => True

def OptionalInRange : Option Expression → Prop
  | none => True
  | some e => e.InRange

def ExpressionsInRange : List Expression → Prop
  | [] => True
  | e :: rest => e.InRange ∧ ExpressionsInRange rest

def PropertiesInRange : List (String × Expression) → Prop
  | [] => True
  | (_, e) :: rest => e.InRange ∧ PropertiesInRange rest

end

/-- All numbers in a program fit the words they are held in. -/
def Program.InRange (p : Program) : Prop := StatementsInRange p.body

section Lists

theorem statementsInRange_iff {l : List Statement} :
    StatementsInRange l ↔ ∀ s ∈ l, s.InRange := by
  induction l with
  | nil => simp [StatementsInRange]
  | cons s l ih => rw [StatementsInRange, ih, List.forall_mem_cons]

theorem expressionsInRange_iff {l : List Expression} :
    ExpressionsInRange l ↔ ∀ e ∈ l, e.InRange := by
  induction l with
  | nil => simp [ExpressionsInRange]
  | cons e l ih => rw [ExpressionsInRange, ih, List.forall_mem_cons]

theorem propertiesInRange_iff {l : List (String × Expression)} :
    PropertiesInRange l ↔ ∀ p ∈ l, p.2.InRange := by
  induction l with
  | nil => simp [PropertiesInRange]
  | cons p l ih => rw [PropertiesInRange, ih, List.forall_mem_cons]

theorem optionalInRange_iff {x : Option Expression} :
    OptionalInRange x ↔ ∀ e ∈ x, e.InRange := by
  cases x <;> simp [OptionalInRange]

theorem alternateInRange_iff {x : Option Block} : AlternateInRange x ↔ ∀ b ∈ x, b.InRange := by
  cases x <;> simp [AlternateInRange]

/-! ## Forms of lists and of optional parts -/

theorem statementsToJson_eq (l : List Statement) :
    statementsToJson l = l.map Statement.toJson := by
  induction l with
  | nil => rfl
  | cons s l ih => rw [statementsToJson, ih, List.map_cons]

theorem expressionsToJson_eq (l : List Expression) :
    expressionsToJson l = l.map Expression.toJson := by
  induction l with
  | nil => rfl
  | cons e l ih => rw [expressionsToJson, ih, List.map_cons]

def propertyToJson (p : String × Expression) : Json := .array [.str p.1, p.2.toJson]

theorem propertiesToJson_eq (l : List (String × Expression)) :
    propertiesToJson l = l.map propertyToJson := by
  induction l with
  | nil => rfl
  | cons p l ih => rw [propertiesToJson, ih, List.map_cons, propertyToJson]

theorem optionalToJson_eq (x : Option Expression) :
    optionalToJson x = .nullable Expression.toJson x := by
  cases x <;> rfl

theorem alternateToJson_eq (x : Option Block) :
    alternateToJson x = .nullable Block.toJson x := by
  cases x <;> rfl

end Lists

/-! ## Every form has a text -/

theorem Identifier.spelt_toJson (i : Identifier) : i.toJson.Spelt := by
  obtain ⟨name, resolution⟩ := i
  cases resolution <;>
    simp [toJson, Resolution.toJson, spelt_record, spelt_case, Spelt, Json.str, BindingId.toJson,
      Json.nat]

theorem SourceSpan.spelt_toJson (s : SourceSpan) : s.toJson.Spelt := by
  simp [toJson, spelt_record, Spelt, Json.nat]

theorem Literal.spelt_toJson (l : Literal) : l.toJson.Spelt := by
  cases l <;> simp [toJson, spelt_case, Spelt, Json.str, Json.int]

mutual

theorem Statement.spelt_toJson : ∀ s : Statement, s.toJson.Spelt
  | .declaration kind name init storage => by
    simp [Statement.toJson, spelt_case, spelt_record, Spelt, Json.str, name.spelt_toJson,
      spelt_optionalToJson init]
  | .function node => spelt_case.2 node.spelt_toJson
  | .expression e => spelt_case.2 e.spelt_toJson
  | .returning value => spelt_case.2 (spelt_optionalToJson value)
  | .block b => spelt_case.2 b.spelt_toJson
  | .ifElse test consequent alternate => by
    simp [Statement.toJson, spelt_case, spelt_record, test.spelt_toJson, consequent.spelt_toJson,
      spelt_alternateToJson alternate]
  | .whileLoop test body => by
    simp [Statement.toJson, spelt_case, spelt_record, test.spelt_toJson, body.spelt_toJson]

theorem spelt_statementsToJson : ∀ l : List Statement, ∀ j ∈ statementsToJson l, j.Spelt
  | [] => by simp [statementsToJson]
  | s :: rest => by
    simpa [statementsToJson] using ⟨s.spelt_toJson, spelt_statementsToJson rest⟩

theorem Block.spelt_toJson : ∀ b : Block, b.toJson.Spelt
  | ⟨body, scope⟩ => by
    simp [Block.toJson, spelt_record, spelt_nullable, Spelt, Json.nat, ScopeId.toJson]
    exact speltItems_iff.2 (spelt_statementsToJson body)

theorem spelt_alternateToJson : ∀ x : Option Block, (alternateToJson x).Spelt
  | none => trivial
  | some b => b.spelt_toJson

theorem FunctionNode.spelt_toJson : ∀ node : FunctionNode, node.toJson.Spelt
  | ⟨name, kind, flavor, memoized, params, rest, body, span, site, scope, arguments⟩ => by
    simp [FunctionNode.toJson, spelt_record, spelt_nullable, speltItems_iff, Spelt, Json.nat,
      Json.str, ScopeId.toJson, SiteId.toJson, BindingId.toJson, Identifier.spelt_toJson,
      span.spelt_toJson]
    exact spelt_statementsToJson body

theorem Expression.spelt_toJson : ∀ e : Expression, e.toJson.Spelt
  | .literal l => spelt_case.2 l.spelt_toJson
  | .identifier i => spelt_case.2 i.spelt_toJson
  | .this provider => by
    simp [Expression.toJson, spelt_case, spelt_record, spelt_nullable, Spelt, Json.nat,
      ScopeId.toJson]
  | .object properties => spelt_case.2 (spelt_array.2 (spelt_propertiesToJson properties))
  | .array elements => spelt_case.2 (spelt_array.2 (spelt_expressionsToJson elements))
  | .member object property => by
    simp [Expression.toJson, spelt_case, spelt_record, Spelt, Json.str, object.spelt_toJson]
  | .setMember object property value => by
    simp [Expression.toJson, spelt_case, spelt_record, Spelt, Json.str, object.spelt_toJson,
      value.spelt_toJson]
  | .call callee arguments => by
    simp [Expression.toJson, spelt_case, spelt_record, spelt_array, callee.spelt_toJson]
    exact spelt_expressionsToJson arguments
  | .assign target value => by
    simp [Expression.toJson, spelt_case, spelt_record, target.spelt_toJson, value.spelt_toJson]
  | .binary op left right => by
    simp [Expression.toJson, spelt_case, spelt_record, Spelt, Json.str, left.spelt_toJson,
      right.spelt_toJson]
  | .function node => spelt_case.2 node.spelt_toJson
  | .dynamicEval source => spelt_case.2 rfl

theorem spelt_optionalToJson : ∀ x : Option Expression, (optionalToJson x).Spelt
  | none => trivial
  | some e => e.spelt_toJson

theorem spelt_expressionsToJson : ∀ l : List Expression, ∀ j ∈ expressionsToJson l, j.Spelt
  | [] => by simp [expressionsToJson]
  | e :: rest => by
    simpa [expressionsToJson] using ⟨e.spelt_toJson, spelt_expressionsToJson rest⟩

theorem spelt_propertiesToJson :
    ∀ l : List (String × Expression), ∀ j ∈ propertiesToJson l, j.Spelt
  | [] => by simp [propertiesToJson]
  | (key, e) :: rest => by
    simpa [propertiesToJson, speltItems_iff, Spelt, Json.str] using
      ⟨e.spelt_toJson, spelt_propertiesToJson rest⟩

end

/-! ## Parts that are not nested -/

section Flat

theorem kindOfJson?_str {α : Type} {ofName? : String → Option α} {name : α → String}
    (hname : ∀ a, ofName? (name a) = some a) (n : Nat) (a : α) :
    kindOfJson? ofName? n (.str (name a)) = some a := by
  rw [kindOfJson?, show unitCase? n (.str (name a)) = some (name a) by cases n <;> rfl]
  exact hname a

theorem Storage.ofName?_name (s : Storage) : ofName? s.name = some s := by cases s <;> rfl

theorem FunctionKind.ofName?_name (k : FunctionKind) : ofName? k.name = some k := by
  cases k <;> rfl

theorem FunctionFlavor.ofName?_name (f : FunctionFlavor) : ofName? f.name = some f := by
  cases f <;> rfl

theorem DeclarationKind.ofName?_name (k : DeclarationKind) : ofName? k.name = some k := by
  cases k <;> rfl

theorem BinaryOp.ofName?_name (op : BinaryOp) : ofName? op.name = some op := by
  cases op <;> rfl

theorem ScopeId.ofJson?_toJson {s : ScopeId} (hs : s.index < UInt32.size) :
    ofJson? s.toJson = some s := by
  rw [ofJson?, toJson, asIndex?, asNatBelow?_nat hs]
  rfl

theorem SiteId.ofJson?_toJson {s : SiteId} (hs : s.index < UInt32.size) :
    ofJson? s.toJson = some s := by
  rw [ofJson?, toJson, asIndex?, asNatBelow?_nat hs]
  rfl

theorem BindingId.ofJson?_toJson {b : BindingId} (hb : b.index < UInt32.size) :
    ofJson? b.toJson = some b := by
  rw [ofJson?, toJson, asIndex?, asNatBelow?_nat hb]
  rfl

theorem SourceSpan.ofJson?_toJson {s : SourceSpan} (hs : s.InRange) {n : Nat}
    (hn : s.toJson.depth ≤ n) : ofJson? n s.toJson = some s := by
  obtain ⟨k, rfl, -⟩ := depth_record_le.1 hn
  obtain ⟨h₁, h₂, h₃, h₄, h₅, h₆⟩ := hs
  have hfields := fields?_record [("start_offset", .nat s.startOffset),
    ("end_offset", .nat s.endOffset), ("start_line", .nat s.startLine),
    ("start_column", .nat s.startColumn), ("end_line", .nat s.endLine),
    ("end_column", .nat s.endColumn)] (by simp)
  simp only [List.map_cons, List.map_nil] at hfields
  simp only [ofJson?, toJson, hfields, required?, Option.bind_some, asWord?, asNatBelow?_nat h₁,
    asNatBelow?_nat h₂, asNatBelow?_nat h₃, asNatBelow?_nat h₄, asNatBelow?_nat h₅,
    asNatBelow?_nat h₆]
  rfl

theorem Identifier.ofJson?_toJson {i : Identifier} (hi : i.InRange) {n : Nat}
    (hn : i.toJson.depth ≤ n) : ofJson? n i.toJson = some i := by
  obtain ⟨name, resolution⟩ := i
  obtain ⟨k, rfl, hk⟩ := depth_record_le.1 hn
  have hresolution : Resolution.ofJson? k resolution.toJson = some resolution := by
    cases resolution with
    | unresolved => cases k <;> rfl
    | global => cases k <;> rfl
    | binding b =>
      obtain ⟨l, rfl, -⟩ := depth_case_le.1
        (hk ("resolution", .case "Binding" b.toJson) (by simp [Resolution.toJson]))
      show (BindingId.ofJson? b.toJson).map Resolution.binding = _
      rw [BindingId.ofJson?_toJson (hi b rfl)]
      rfl
  rw [ofJson?, toJson, record2?_record (by decide) (asString?_str name) hresolution]
  rfl

theorem identifiersOfJson?_map {l : List Identifier} (hl : ∀ i ∈ l, i.InRange) {n : Nat}
    (hn : (Json.array (l.map Identifier.toJson)).depth ≤ n) :
    identifiersOfJson? n (.array (l.map Identifier.toJson)) = some l := by
  obtain ⟨k, rfl, hk⟩ := depth_array_le.1 hn
  exact asList?_map fun i hi =>
    Identifier.ofJson?_toJson (hl i hi) (hk _ (List.mem_map_of_mem hi))

theorem Literal.ofJson?_toJson (l : Literal) {n : Nat} (hn : l.toJson.depth ≤ n) :
    ofJson? n l.toJson = some l := by
  cases l with
  | undefined => cases n <;> rfl
  | null => cases n <;> rfl
  | bool b =>
    obtain ⟨k, rfl, -⟩ := depth_case_le.1 hn
    rfl
  | number i =>
    obtain ⟨k, rfl, -⟩ := depth_case_le.1 hn
    show (asInt64? (.int i.toInt)).map Literal.number = _
    rw [asInt64?_int]
    rfl
  | str s =>
    obtain ⟨k, rfl, -⟩ := depth_case_le.1 hn
    rfl

end Flat

/-! ## Statements and expressions -/

/-- Parts of programs whose forms have at most `n` levels are read back. -/
structure Reads (n : Nat) : Prop where
  statement : ∀ s : Statement, s.InRange → s.toJson.depth ≤ n →
    Statement.ofJson? n s.toJson = some s
  block : ∀ b : Block, b.InRange → b.toJson.depth ≤ n → Block.ofJson? n b.toJson = some b
  function : ∀ f : FunctionNode, f.InRange → f.toJson.depth ≤ n →
    FunctionNode.ofJson? n f.toJson = some f
  expression : ∀ e : Expression, e.InRange → e.toJson.depth ≤ n →
    Expression.ofJson? n e.toJson = some e

section Nested

variable {n : Nat}

theorem Reads.optional (hr : Reads n) {x : Option Expression} (hx : OptionalInRange x)
    (hn : (optionalToJson x).depth ≤ n) :
    asNullable? (Expression.ofJson? n) (optionalToJson x) = some x := by
  rw [optionalToJson_eq] at hn ⊢
  refine asNullable?_nullable (by cases n <;> rfl) fun e he => ?_
  exact hr.expression e (optionalInRange_iff.1 hx e he) (depth_nullable_le.1 hn e he)

theorem Reads.alternate (hr : Reads n) {x : Option Block} (hx : AlternateInRange x)
    (hn : (alternateToJson x).depth ≤ n) :
    asNullable? (Block.ofJson? n) (alternateToJson x) = some x := by
  rw [alternateToJson_eq] at hn ⊢
  refine asNullable?_nullable (by cases n <;> rfl) fun b hb => ?_
  exact hr.block b (alternateInRange_iff.1 hx b hb) (depth_nullable_le.1 hn b hb)

/-- Lists open a level of their own. -/
theorem statementsOfJson?_toJson (hr : ∀ m < n, Reads m) {l : List Statement}
    (hl : StatementsInRange l) (hn : (Json.array (statementsToJson l)).depth ≤ n) :
    statementsOfJson? n (.array (statementsToJson l)) = some l := by
  rw [statementsToJson_eq] at hn ⊢
  obtain ⟨k, rfl, hk⟩ := depth_array_le.1 hn
  exact asList?_map fun s hs => (hr k (Nat.lt_succ_self k)).statement s
    (statementsInRange_iff.1 hl s hs) (hk _ (List.mem_map_of_mem hs))

theorem expressionsOfJson?_toJson (hr : ∀ m < n, Reads m) {l : List Expression}
    (hl : ExpressionsInRange l) (hn : (Json.array (expressionsToJson l)).depth ≤ n) :
    expressionsOfJson? n (.array (expressionsToJson l)) = some l := by
  rw [expressionsToJson_eq] at hn ⊢
  obtain ⟨k, rfl, hk⟩ := depth_array_le.1 hn
  exact asList?_map fun e he => (hr k (Nat.lt_succ_self k)).expression e
    (expressionsInRange_iff.1 hl e he) (hk _ (List.mem_map_of_mem he))

theorem propertiesOfJson?_toJson (hr : ∀ m < n, Reads m) {l : List (String × Expression)}
    (hl : PropertiesInRange l) (hn : (Json.array (propertiesToJson l)).depth ≤ n) :
    propertiesOfJson? n (.array (propertiesToJson l)) = some l := by
  rw [propertiesToJson_eq] at hn ⊢
  obtain ⟨k, rfl, hk⟩ := depth_array_le.1 hn
  refine asList?_map fun p hp => ?_
  obtain ⟨k', rfl, hk'⟩ := depth_array_le.1 (hk _ (List.mem_map_of_mem hp))
  have he := (hr k' (by omega)).expression p.2 (propertiesInRange_iff.1 hl p hp)
    (hk' _ (by simp))
  rw [propertyToJson, propertyOfJson?, asPair?, he]
  rfl

theorem Block.ofJson?_toJson (hr : ∀ m < n, Reads m) {b : Block} (hb : b.InRange)
    (hn : b.toJson.depth ≤ n) : Block.ofJson? n b.toJson = some b := by
  obtain ⟨body, scope⟩ := b
  obtain ⟨k, rfl, hk⟩ := depth_record_le.1 hn
  have hbody := statementsOfJson?_toJson (fun m hm => hr m (by omega)) hb.1
    (hk ("body", _) (by simp))
  have hscope : optional? ScopeId.ofJson? (some (nullable ScopeId.toJson scope)) = some scope :=
    asNullable?_nullable rfl fun s hs => ScopeId.ofJson?_toJson (hb.2 s hs)
  have hfields := fields?_record [("body", .array (statementsToJson body)),
    ("scope", .nullable ScopeId.toJson scope)] (by simp)
  simp only [List.map_cons, List.map_nil] at hfields
  simp only [Block.ofJson?, Block.toJson, hfields, required?, Option.bind_some, hbody, hscope]
  rfl

theorem FunctionNode.ofJson?_toJson (hr : ∀ m < n, Reads m) {f : FunctionNode} (hf : f.InRange)
    (hn : f.toJson.depth ≤ n) : FunctionNode.ofJson? n f.toJson = some f := by
  obtain ⟨name, kind, flavor, memoized, params, rest, body, span, site, scope, arguments⟩ := f
  obtain ⟨k, rfl, hk⟩ := depth_record_le.1 hn
  obtain ⟨⟨hname, hparams, hrest, hspan, hsite, hscope, harguments⟩, hbody⟩ := hf
  have hname := asNullable?_nullable (f := Identifier.ofJson? k) (by cases k <;> rfl) fun i hi =>
    Identifier.ofJson?_toJson (hname i hi)
      (depth_nullable_le.1 (hk ("name", nullable _ name) (by simp)) i hi)
  have hparams := identifiersOfJson?_map hparams (hk ("params", .array _) (by simp))
  have hrest := asNullable?_nullable (f := Identifier.ofJson? k) (by cases k <;> rfl) fun i hi =>
    Identifier.ofJson?_toJson (hrest i hi)
      (depth_nullable_le.1 (hk ("rest", nullable _ rest) (by simp)) i hi)
  have hbody := statementsOfJson?_toJson (fun m hm => hr m (by omega)) hbody
    (hk ("body", .array _) (by simp))
  have hspan := SourceSpan.ofJson?_toJson hspan (hk ("span", span.toJson) (by simp))
  have hsite := asNullable?_nullable (f := SiteId.ofJson?) rfl fun s hs =>
    SiteId.ofJson?_toJson (hsite s hs)
  have hscope := asNullable?_nullable (f := ScopeId.ofJson?) rfl fun s hs =>
    ScopeId.ofJson?_toJson (hscope s hs)
  have harguments := asNullable?_nullable (f := BindingId.ofJson?) rfl fun b hb =>
    BindingId.ofJson?_toJson (harguments b hb)
  have hfields := fields?_record [("name", .nullable Identifier.toJson name),
    ("kind", .str kind.name), ("flavor", .str flavor.name), ("memoized", .bool memoized),
    ("params", .array (params.map Identifier.toJson)),
    ("rest", .nullable Identifier.toJson rest), ("body", .array (statementsToJson body)),
    ("span", span.toJson), ("site", .nullable SiteId.toJson site),
    ("scope", .nullable ScopeId.toJson scope),
    ("arguments", .nullable BindingId.toJson arguments)] (by simp)
  simp only [List.map_cons, List.map_nil] at hfields
  simp only [FunctionNode.ofJson?, FunctionNode.toJson, hfields, required?, optional?,
    Option.bind_some, hname, hparams, hrest, hbody, hspan, hsite, hscope, harguments, asBool?,
    kindOfJson?_str FunctionKind.ofName?_name, kindOfJson?_str FunctionFlavor.ofName?_name]
  rfl

theorem Statement.ofJson?_toJson (hr : ∀ m < n, Reads m) {s : Statement} (hs : s.InRange)
    (hn : s.toJson.depth ≤ n) : Statement.ofJson? n s.toJson = some s := by
  cases s with
  | declaration kind name init storage =>
    obtain ⟨_, rfl, hrecord⟩ := depth_case_le.1 hn
    obtain ⟨k, rfl, hk⟩ := depth_record_le.1 hrecord
    have hname := Identifier.ofJson?_toJson hs.1 (hk ("name", name.toJson) (by simp))
    have hinit := (hr k (by omega)).optional hs.2 (hk ("init", _) (by simp))
    have hfields := fields?_record [("kind", .str kind.name), ("name", name.toJson),
      ("init", optionalToJson init), ("storage", .str storage.name)] (by simp)
    simp only [List.map_cons, List.map_nil] at hfields
    have hcase (c : Json) : Statement.ofJson? (k + 1 + 1) (.case "Declaration" c) =
      declarationOfJson? (k + 1) c := rfl
    rw [Statement.toJson, hcase]
    simp only [declarationOfJson?, hfields, required?, optional?, Option.bind_some, hname, hinit,
      kindOfJson?_str DeclarationKind.ofName?_name, kindOfJson?_str Storage.ofName?_name]
    rfl
  | function node =>
    obtain ⟨k, rfl, hk⟩ := depth_case_le.1 hn
    show (FunctionNode.ofJson? k node.toJson).map Statement.function = _
    rw [(hr k (by omega)).function node hs hk]
    rfl
  | expression e =>
    obtain ⟨k, rfl, hk⟩ := depth_case_le.1 hn
    show (Expression.ofJson? k e.toJson).map Statement.expression = _
    rw [(hr k (by omega)).expression e hs hk]
    rfl
  | returning value =>
    obtain ⟨k, rfl, hk⟩ := depth_case_le.1 hn
    show (asNullable? (Expression.ofJson? k) (optionalToJson value)).map Statement.returning = _
    rw [(hr k (by omega)).optional hs hk]
    rfl
  | block b =>
    obtain ⟨k, rfl, hk⟩ := depth_case_le.1 hn
    show (Block.ofJson? k b.toJson).map Statement.block = _
    rw [(hr k (by omega)).block b hs hk]
    rfl
  | ifElse test consequent alternate =>
    obtain ⟨_, rfl, hrecord⟩ := depth_case_le.1 hn
    obtain ⟨k, rfl, hk⟩ := depth_record_le.1 hrecord
    have hk' := hr k (by omega)
    have htest := hk'.expression test hs.1 (hk ("test", _) (by simp))
    have hconsequent := hk'.block consequent hs.2.1 (hk ("consequent", _) (by simp))
    have halternate := hk'.alternate hs.2.2 (hk ("alternate", _) (by simp))
    have hfields := fields?_record [("test", test.toJson),
      ("consequent", consequent.toJson), ("alternate", alternateToJson alternate)] (by simp)
    simp only [List.map_cons, List.map_nil] at hfields
    have hcase (c : Json) : Statement.ofJson? (k + 1 + 1) (.case "If" c) =
      conditionalOfJson? (k + 1) c := rfl
    rw [Statement.toJson, hcase]
    simp only [conditionalOfJson?, hfields, required?, optional?, Option.bind_some, htest,
      hconsequent, halternate]
    rfl
  | whileLoop test body =>
    obtain ⟨_, rfl, hrecord⟩ := depth_case_le.1 hn
    obtain ⟨k, rfl, hk⟩ := depth_record_le.1 hrecord
    have htest := (hr k (by omega)).expression test hs.1 (hk ("test", _) (by simp))
    have hbody := (hr k (by omega)).block body hs.2 (hk ("body", _) (by simp))
    show loopOfJson? (k + 1) _ = _
    rw [loopOfJson?, record2?_record (by decide) htest hbody]
    rfl

theorem Expression.ofJson?_toJson (hr : ∀ m < n, Reads m) {e : Expression} (he : e.InRange)
    (hn : e.toJson.depth ≤ n) : Expression.ofJson? n e.toJson = some e := by
  cases e with
  | literal l =>
    obtain ⟨k, rfl, hk⟩ := depth_case_le.1 hn
    show (Literal.ofJson? k l.toJson).map Expression.literal = _
    rw [l.ofJson?_toJson hk]
    rfl
  | identifier i =>
    obtain ⟨k, rfl, hk⟩ := depth_case_le.1 hn
    show (Identifier.ofJson? k i.toJson).map Expression.identifier = _
    rw [Identifier.ofJson?_toJson he hk]
    rfl
  | this provider =>
    obtain ⟨_, rfl, hrecord⟩ := depth_case_le.1 hn
    obtain ⟨k, rfl, -⟩ := depth_record_le.1 hrecord
    have hprovider := asNullable?_nullable (f := ScopeId.ofJson?) rfl fun s hs =>
      ScopeId.ofJson?_toJson (he s hs)
    have hfields := fields?_record
      [("provider", .nullable ScopeId.toJson provider)] (by simp)
    simp only [List.map_cons, List.map_nil] at hfields
    have hcase (c : Json) : Expression.ofJson? (k + 1 + 1) (.case "This" c) =
      thisOfJson? (k + 1) c := rfl
    rw [Expression.toJson, hcase]
    simp only [thisOfJson?, hfields, optional?, hprovider]
    rfl
  | object properties =>
    obtain ⟨k, rfl, hk⟩ := depth_case_le.1 hn
    show (propertiesOfJson? k (.array (propertiesToJson properties))).map Expression.object = _
    rw [propertiesOfJson?_toJson (fun m hm => hr m (by omega)) he hk]
    rfl
  | array elements =>
    obtain ⟨k, rfl, hk⟩ := depth_case_le.1 hn
    show (expressionsOfJson? k (.array (expressionsToJson elements))).map Expression.array = _
    rw [expressionsOfJson?_toJson (fun m hm => hr m (by omega)) he hk]
    rfl
  | member object property =>
    obtain ⟨_, rfl, hrecord⟩ := depth_case_le.1 hn
    obtain ⟨k, rfl, hk⟩ := depth_record_le.1 hrecord
    have hobject := (hr k (by omega)).expression object he (hk ("object", _) (by simp))
    show memberOfJson? (k + 1) _ = _
    rw [memberOfJson?, record2?_record (by decide) hobject (asString?_str property)]
    rfl
  | setMember object property value =>
    obtain ⟨_, rfl, hrecord⟩ := depth_case_le.1 hn
    obtain ⟨k, rfl, hk⟩ := depth_record_le.1 hrecord
    have hobject := (hr k (by omega)).expression object he.1 (hk ("object", _) (by simp))
    have hvalue := (hr k (by omega)).expression value he.2 (hk ("value", _) (by simp))
    show setMemberOfJson? (k + 1) _ = _
    rw [setMemberOfJson?, record3?_record (by decide) hobject (asString?_str property) hvalue]
    rfl
  | call callee arguments =>
    obtain ⟨_, rfl, hrecord⟩ := depth_case_le.1 hn
    obtain ⟨k, rfl, hk⟩ := depth_record_le.1 hrecord
    have hcallee := (hr k (by omega)).expression callee he.1 (hk ("callee", _) (by simp))
    have harguments := expressionsOfJson?_toJson (fun m hm => hr m (by omega)) he.2
      (hk ("arguments", _) (by simp))
    show callOfJson? (k + 1) _ = _
    rw [callOfJson?, record2?_record (by decide) hcallee harguments]
    rfl
  | assign target value =>
    obtain ⟨_, rfl, hrecord⟩ := depth_case_le.1 hn
    obtain ⟨k, rfl, hk⟩ := depth_record_le.1 hrecord
    have htarget := Identifier.ofJson?_toJson he.1 (hk ("target", target.toJson) (by simp))
    have hvalue := (hr k (by omega)).expression value he.2 (hk ("value", _) (by simp))
    show assignOfJson? (k + 1) _ = _
    rw [assignOfJson?, record2?_record (by decide) htarget hvalue]
    rfl
  | binary op left right =>
    obtain ⟨_, rfl, hrecord⟩ := depth_case_le.1 hn
    obtain ⟨k, rfl, hk⟩ := depth_record_le.1 hrecord
    have hleft := (hr k (by omega)).expression left he.1 (hk ("left", _) (by simp))
    have hright := (hr k (by omega)).expression right he.2 (hk ("right", _) (by simp))
    show binaryOfJson? (k + 1) _ = _
    rw [binaryOfJson?, record3?_record (by decide) (kindOfJson?_str BinaryOp.ofName?_name k op)
      hleft hright]
    rfl
  | function node =>
    obtain ⟨k, rfl, hk⟩ := depth_case_le.1 hn
    show (FunctionNode.ofJson? k node.toJson).map Expression.function = _
    rw [(hr k (by omega)).function node he hk]
    rfl
  | dynamicEval source =>
    obtain ⟨k, rfl, -⟩ := depth_case_le.1 hn
    rfl

/-- Parts of programs are read back, however many levels there are. -/
theorem reads (n : Nat) : Reads n := by
  induction n using Nat.strongRecOn with
  | ind n ih =>
    exact ⟨fun _ => Statement.ofJson?_toJson ih, fun _ => Block.ofJson?_toJson ih,
      fun _ => FunctionNode.ofJson?_toJson ih, fun _ => Expression.ofJson?_toJson ih⟩

end Nested

/-! ## Programs -/

namespace Program

theorem spelt_toJson (p : Program) : p.toJson.Spelt := by
  rw [toJson, spelt_record]
  simpa using spelt_array.2 (spelt_statementsToJson p.body)

theorem ofJson?_toJson {p : Program} (hp : p.InRange) {n : Nat} (hn : p.toJson.depth ≤ n) :
    ofJson? n p.toJson = some p := by
  obtain ⟨k, rfl, hk⟩ := depth_record_le.1 hn
  have hbody := statementsOfJson?_toJson (fun m _ => reads m) hp (hk ("body", _) (by simp))
  rw [ofJson?, toJson, record1?_record hbody]
  rfl

/-- Different programs have different forms, at any depth. -/
theorem toJson_injective {p q : Program} (hp : p.InRange) (hq : q.InRange)
    (hpq : p.toJson = q.toJson) : p = q := by
  have hread := ofJson?_toJson hp (Nat.le_refl _)
  rw [hpq, ofJson?_toJson hq (Nat.le_refl _)] at hread
  exact (Option.some.inj hread).symm

/-- A program whose form is no deeper than readers go is read back from its text, and
different programs have different texts. -/
theorem read?_write {p : Program} (hp : p.InRange) :
    (p.toJson.depth ≤ nestingLimit → read? p.write = some p) ∧
      ∀ q : Program, q.InRange → p.write = q.write → p = q := by
  refine ⟨fun hn => ?_, fun q hq hpq => toJson_injective hp hq ?_⟩
  · rw [read?, write, read?_render p.spelt_toJson, Option.bind_some, ofJson?_toJson hp hn]
  · have hread := read?_render p.spelt_toJson
    rw [show p.toJson.render = q.toJson.render from hpq, read?_render q.spelt_toJson] at hread
    exact (Option.some.inj hread).symm

/-- A definition with the largest numbers there are, a name that needs escapes and the
given initial value of its variable. -/
def extreme (init : Option Expression) : Program :=
  ⟨[.function
    { name := some ⟨"quote \" and \u0007 and 😀", .binding ⟨4294967295⟩⟩, kind := .declaration
      flavor := .asyncGenerator, memoized := true, params := [⟨"x", .global⟩], rest := none
      body := [.declaration .constDeclaration ⟨"y", .unresolved⟩ init .cell]
      span := ⟨0, 18446744073709551615, 1, 1, 18446744073709551615, 0⟩, site := some ⟨0⟩
      scope := some ⟨4294967295⟩, arguments := none }]⟩

theorem read?_write_extreme :
    (extreme none).InRange ∧ (extreme none).toJson.depth ≤ nestingLimit ∧
      read? (extreme none).write = some (extreme none) ∧
      (extreme none).write ≠ (extreme (some (.literal .null))).write := by
  have hrange : ∀ init, OptionalInRange init → (extreme init).InRange := fun init hinit => by
    simp [extreme, InRange, StatementsInRange, Statement.InRange, FunctionNode.InRange,
      FunctionNode.NumbersInRange, Identifier.InRange, Identifier.binding?, SourceSpan.InRange,
      UInt32.size, UInt64.size, hinit]
  have hround := read?_write (hrange none trivial)
  have hdepth : (extreme none).toJson.depth ≤ nestingLimit := by decide
  refine ⟨hrange none trivial, hdepth, hround.1 hdepth, fun heq => ?_⟩
  have hsame := hround.2 _ (hrange (some (.literal .null)) trivial) heq
  simp [extreme] at hsame

end Program

end ClosureCache
