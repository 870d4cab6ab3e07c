/-
The JSON form of programs, annotations included.

Programs are nested, and the readers count the levels of arrays and objects that
may still be opened: each level that the form of a part opens takes one.  A
program nested more deeply than the limit is not read.
-/
import ClosureCache.Json.Identity
import ClosureCache.Json.Reader
import ClosureCache.Program.Basic

namespace ClosureCache

/-! ## Names of kinds -/

def Storage.name : Storage → String
  | slot => "slot"
  | cell => "cell"

def Storage.ofName? : String → Option Storage
  | "slot" => some slot
  | "cell" => some cell
  | _ => none

def FunctionKind.name : FunctionKind → String
  | declaration => "declaration"
  | expression => "expression"
  | arrow => "arrow"

def FunctionKind.ofName? : String → Option FunctionKind
  | "declaration" => some declaration
  | "expression" => some expression
  | "arrow" => some arrow
  | _ => none

def FunctionFlavor.name : FunctionFlavor → String
  | plain => "plain"
  | generator => "generator"
  | async => "async"
  | asyncGenerator => "async_generator"

def FunctionFlavor.ofName? : String → Option FunctionFlavor
  | "plain" => some plain
  | "generator" => some generator
  | "async" => some async
  | "async_generator" => some asyncGenerator
  | _ => none

def DeclarationKind.name : DeclarationKind → String
  | var => "var"
  | letDeclaration => "let"
  | constDeclaration => "const"

def DeclarationKind.ofName? : String → Option DeclarationKind
  | "var" => some var
  | "let" => some letDeclaration
  | "const" => some constDeclaration
  | _ => none

def BinaryOp.name : BinaryOp → String
  | add => "add"
  | sub => "sub"
  | lt => "lt"
  | strictEq => "strict_eq"
  | strictNe => "strict_ne"

def BinaryOp.ofName? : String → Option BinaryOp
  | "add" => some add
  | "sub" => some sub
  | "lt" => some lt
  | "strict_eq" => some strictEq
  | "strict_ne" => some strictNe
  | _ => none

/-! ## Writing -/

def SourceSpan.toJson (s : SourceSpan) : Json :=
  .record [("start_offset", .nat s.startOffset), ("end_offset", .nat s.endOffset),
    ("start_line", .nat s.startLine), ("start_column", .nat s.startColumn),
    ("end_line", .nat s.endLine), ("end_column", .nat s.endColumn)]

def Resolution.toJson : Resolution → Json
  | unresolved => .str "Unresolved"
  | binding id => .case "Binding" id.toJson
  | global => .str "Global"

def Identifier.toJson (i : Identifier) : Json :=
  .record [("name", .str i.name), ("resolution", i.resolution.toJson)]

def Literal.toJson : Literal → Json
  | undefined => .str "Undefined"
  | null => .str "Null"
  | bool b => .case "Bool" (.bool b)
  | number n => .case "Number" (.int n.toInt)
  | str s => .case "Str" (.str s)

mutual

def Statement.toJson : Statement → Json
  | .declaration kind name init storage =>
    .case "Declaration" (.record [("kind", .str kind.name), ("name", name.toJson),
      ("init", optionalToJson init), ("storage", .str storage.name)])
  | .function node => .case "Function" node.toJson
  | .expression e => .case "Expression" e.toJson
  | .returning value => .case "Return" (optionalToJson value)
  | .block b => .case "Block" b.toJson
  | .ifElse test consequent alternate =>
    .case "If" (.record [("test", test.toJson), ("consequent", consequent.toJson),
      ("alternate", alternateToJson alternate)])
  | .whileLoop test body => .case "While" (.record [("test", test.toJson), ("body", body.toJson)])

def statementsToJson : List Statement → List Json
  | [] => []
  | s :: rest => s.toJson :: statementsToJson rest

def Block.toJson : Block → Json
  | ⟨body, scope⟩ =>
    .record [("body", .array (statementsToJson body)), ("scope", .nullable ScopeId.toJson scope)]

def alternateToJson : Option Block → Json
  | none => .null
  | some b => b.toJson

def FunctionNode.toJson : FunctionNode → Json
  | ⟨name, kind, flavor, memoized, params, rest, body, span, site, scope, arguments⟩ =>
    .record [("name", .nullable Identifier.toJson name), ("kind", .str kind.name),
      ("flavor", .str flavor.name), ("memoized", .bool memoized),
      ("params", .array (params.map Identifier.toJson)),
      ("rest", .nullable Identifier.toJson rest), ("body", .array (statementsToJson body)),
      ("span", span.toJson), ("site", .nullable SiteId.toJson site),
      ("scope", .nullable ScopeId.toJson scope),
      ("arguments", .nullable BindingId.toJson arguments)]

def Expression.toJson : Expression → Json
  | .literal l => .case "Literal" l.toJson
  | .identifier i => .case "Identifier" i.toJson
  | .this provider => .case "This" (.record [("provider", .nullable ScopeId.toJson provider)])
  | .object properties => .case "Object" (.array (propertiesToJson properties))
  | .array elements => .case "Array" (.array (expressionsToJson elements))
  | .member object property =>
    .case "Member" (.record [("object", object.toJson), ("property", .str property)])
  | .setMember object property value =>
    .case "SetMember" (.record [("object", object.toJson), ("property", .str property),
      ("value", value.toJson)])
  | .call callee arguments =>
    .case "Call" (.record [("callee", callee.toJson),
      ("arguments", .array (expressionsToJson arguments))])
  | .assign target value =>
    .case "Assign" (.record [("target", target.toJson), ("value", value.toJson)])
  | .binary op left right =>
    .case "Binary" (.record [("op", .str op.name), ("left", left.toJson),
      ("right", right.toJson)])
  | .function node => .case "Function" node.toJson
  | .dynamicEval source => .case "DynamicEval" (.str source)

def optionalToJson : Option Expression → Json
  | none => .null
  | some e => e.toJson

def expressionsToJson : List Expression → List Json
  | [] => []
  | e :: rest => e.toJson :: expressionsToJson rest

def propertiesToJson : List (String × Expression) → List Json
  | [] => []
  | (key, e) :: rest => .array [.str key, e.toJson] :: propertiesToJson rest

end

def Program.toJson (p : Program) : Json :=
  .record [("body", .array (statementsToJson p.body))]

def Program.write (p : Program) : String := p.toJson.render

/-! ## Reading the parts that are not nested

The first argument of a reader is the number of levels that it may open. -/

def SourceSpan.ofJson? : Nat → Json → Option SourceSpan
  | 0, _ => none
  | _ + 1, j =>
    match j.fields? ["start_offset", "end_offset", "start_line", "start_column", "end_line",
        "end_column"] with
    | some [a, b, c, d, e, f] => do
      let startOffset ← Json.required? Json.asWord? a
      let endOffset ← Json.required? Json.asWord? b
      let startLine ← Json.required? Json.asWord? c
      let startColumn ← Json.required? Json.asWord? d
      let endLine ← Json.required? Json.asWord? e
      let endColumn ← Json.required? Json.asWord? f
      return { startOffset, endOffset, startLine, startColumn, endLine, endColumn }
    | _ => none

def Resolution.ofJson? (levels : Nat) (j : Json) : Option Resolution :=
  match j.unitCase? levels, levels, j.case? with
  | some "Unresolved", _, _ => some unresolved
  | some "Global", _, _ => some global
  | none, _ + 1, some ("Binding", c) => (BindingId.ofJson? c).map binding
  | _, _, _ => none

def Identifier.ofJson? : Nat → Json → Option Identifier
  | 0, _ => none
  | levels + 1, j =>
    (j.record2? "name" Json.asString? "resolution" (Resolution.ofJson? levels)).map
      fun (name, resolution) => { name, resolution }

def identifiersOfJson? : Nat → Json → Option (List Identifier)
  | 0, _ => none
  | levels + 1, j => j.asList? (Identifier.ofJson? levels)

def Literal.ofCase? : String × Json → Option Literal
  | ("Bool", c) => c.asBool?.map bool
  | ("Number", c) => c.asInt64?.map number
  | ("Str", c) => c.asString?.map str
  | _ => none

def Literal.ofJson? (levels : Nat) (j : Json) : Option Literal :=
  match j.unitCase? levels, levels with
  | some "Undefined", _ => some undefined
  | some "Null", _ => some null
  | none, _ + 1 => j.case?.bind ofCase?
  | _, _ => none

def kindOfJson? {α : Type} (ofName? : String → Option α) (levels : Nat) (j : Json) : Option α :=
  (j.unitCase? levels).bind ofName?

/-! ## Reading statements and expressions -/

mutual

def Statement.ofJson? : Nat → Json → Option Statement
  | 0, _ => none
  | levels + 1, j =>
    match j.case? with
    | some ("Declaration", c) => declarationOfJson? levels c
    | some ("Function", c) => (FunctionNode.ofJson? levels c).map .function
    | some ("Expression", c) => (Expression.ofJson? levels c).map .expression
    | some ("Return", c) => (c.asNullable? (Expression.ofJson? levels)).map .returning
    | some ("Block", c) => (Block.ofJson? levels c).map .block
    | some ("If", c) => conditionalOfJson? levels c
    | some ("While", c) => loopOfJson? levels c
    | _ => none

def declarationOfJson? : Nat → Json → Option Statement
  | 0, _ => none
  | levels + 1, j =>
    match j.fields? ["kind", "name", "init", "storage"] with
    | some [kind, name, init, storage] => do
      let kind ← Json.required? (kindOfJson? DeclarationKind.ofName? levels) kind
      let name ← Json.required? (Identifier.ofJson? levels) name
      let init ← Json.optional? (Expression.ofJson? levels) init
      let storage ← Json.required? (kindOfJson? Storage.ofName? levels) storage
      return .declaration kind name init storage
    | _ => none

def conditionalOfJson? : Nat → Json → Option Statement
  | 0, _ => none
  | levels + 1, j =>
    match j.fields? ["test", "consequent", "alternate"] with
    | some [test, consequent, alternate] => do
      let test ← Json.required? (Expression.ofJson? levels) test
      let consequent ← Json.required? (Block.ofJson? levels) consequent
      let alternate ← Json.optional? (Block.ofJson? levels) alternate
      return .ifElse test consequent alternate
    | _ => none

def loopOfJson? : Nat → Json → Option Statement
  | 0, _ => none
  | levels + 1, j =>
    (j.record2? "test" (Expression.ofJson? levels) "body" (Block.ofJson? levels)).map
      fun (test, body) => .whileLoop test body

def statementsOfJson? : Nat → Json → Option (List Statement)
  | 0, _ => none
  | levels + 1, j => j.asList? (Statement.ofJson? levels)

def Block.ofJson? : Nat → Json → Option Block
  | 0, _ => none
  | levels + 1, j =>
    match j.fields? ["body", "scope"] with
    | some [body, scope] => do
      let body ← Json.required? (statementsOfJson? levels) body
      let scope ← Json.optional? ScopeId.ofJson? scope
      return { body, scope }
    | _ => none

def FunctionNode.ofJson? : Nat → Json → Option FunctionNode
  | 0, _ => none
  | levels + 1, j =>
    match j.fields? ["name", "kind", "flavor", "memoized", "params", "rest", "body", "span",
        "site", "scope", "arguments"] with
    | some [name, kind, flavor, memoized, params, rest, body, span, site, scope, arguments] => do
      let name ← Json.optional? (Identifier.ofJson? levels) name
      let kind ← Json.required? (kindOfJson? FunctionKind.ofName? levels) kind
      let flavor ← Json.required? (kindOfJson? FunctionFlavor.ofName? levels) flavor
      let memoized ← Json.required? Json.asBool? memoized
      let params ← Json.required? (identifiersOfJson? levels) params
      let rest ← Json.optional? (Identifier.ofJson? levels) rest
      let body ← Json.required? (statementsOfJson? levels) body
      let span ← Json.required? (SourceSpan.ofJson? levels) span
      let site ← Json.optional? SiteId.ofJson? site
      let scope ← Json.optional? ScopeId.ofJson? scope
      let arguments ← Json.optional? BindingId.ofJson? arguments
      return { name, kind, flavor, memoized, params, rest, body, span, site, scope, arguments }
    | _ => none

def Expression.ofJson? : Nat → Json → Option Expression
  | 0, _ => none
  | levels + 1, j =>
    match j.case? with
    | some ("Literal", c) => (Literal.ofJson? levels c).map .literal
    | some ("Identifier", c) => (Identifier.ofJson? levels c).map .identifier
    | some ("This", c) => thisOfJson? levels c
    | some ("Object", c) => (propertiesOfJson? levels c).map .object
    | some ("Array", c) => (expressionsOfJson? levels c).map .array
    | some ("Member", c) => memberOfJson? levels c
    | some ("SetMember", c) => setMemberOfJson? levels c
    | some ("Call", c) => callOfJson? levels c
    | some ("Assign", c) => assignOfJson? levels c
    | some ("Binary", c) => binaryOfJson? levels c
    | some ("Function", c) => (FunctionNode.ofJson? levels c).map .function
    | some ("DynamicEval", c) => c.asString?.map .dynamicEval
    | _ => none

def thisOfJson? : Nat → Json → Option Expression
  | 0, _ => none
  | _ + 1, j =>
    match j.fields? ["provider"] with
    | some [provider] => (Json.optional? ScopeId.ofJson? provider).map .this
    | _ => none

def memberOfJson? : Nat → Json → Option Expression
  | 0, _ => none
  | levels + 1, j =>
    (j.record2? "object" (Expression.ofJson? levels) "property" Json.asString?).map
      fun (object, property) => .member object property

def setMemberOfJson? : Nat → Json → Option Expression
  | 0, _ => none
  | levels + 1, j =>
    (j.record3? "object" (Expression.ofJson? levels) "property" Json.asString? "value"
      (Expression.ofJson? levels)).map
      fun (object, property, value) => .setMember object property value

def callOfJson? : Nat → Json → Option Expression
  | 0, _ => none
  | levels + 1, j =>
    (j.record2? "callee" (Expression.ofJson? levels) "arguments"
      (expressionsOfJson? levels)).map fun (callee, arguments) => .call callee arguments

def assignOfJson? : Nat → Json → Option Expression
  | 0, _ => none
  | levels + 1, j =>
    (j.record2? "target" (Identifier.ofJson? levels) "value" (Expression.ofJson? levels)).map
      fun (target, value) => .assign target value

def binaryOfJson? : Nat → Json → Option Expression
  | 0, _ => none
  | levels + 1, j =>
    (j.record3? "op" (kindOfJson? BinaryOp.ofName? levels) "left" (Expression.ofJson? levels)
      "right" (Expression.ofJson? levels)).map fun (op, left, right) => .binary op left right

def expressionsOfJson? : Nat → Json → Option (List Expression)
  | 0, _ => none
  | levels + 1, j => j.asList? (Expression.ofJson? levels)

def propertiesOfJson? : Nat → Json → Option (List (String × Expression))
  | 0, _ => none
  | levels + 1, j => j.asList? (propertyOfJson? levels)

def propertyOfJson? : Nat → Json → Option (String × Expression)
  | 0, _ => none
  | levels + 1, j => j.asPair? Json.asString? (Expression.ofJson? levels)

end

def Program.ofJson? : Nat → Json → Option Program
  | 0, _ => none
  | levels + 1, j => (j.record1? "body" (statementsOfJson? levels)).map mk

def Program.read? (text : String) : Option Program :=
  (Json.read? text).bind (ofJson? Json.nestingLimit)

end ClosureCache
