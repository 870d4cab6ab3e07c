/-
The JSON forms of errors.  An error is a case named for its cause with the facts
as fields; an error that comes from another part holds the error of that part.
-/
import ClosureCache.Evaluation.Error
import ClosureCache.Json.Identity

namespace ClosureCache

def Json.cause (name : String) (fields : List (String × Json)) : Json := .case name (.record fields)

/-! ## Scopes and resolution -/

def ScopeError.toJson : ScopeError → Json
  | duplicateBinding name scope =>
    .cause "DuplicateBinding" [("name", .str name), ("scope", scope.toJson)]
  | unknownScope scope => .cause "UnknownScope" [("scope", scope.toJson)]
  | unknownBinding binding => .cause "UnknownBinding" [("binding", binding.toJson)]

def ScopeError.ofJson? (j : Json) : Option ScopeError :=
  match j.case? with
  | some ("DuplicateBinding", c) =>
    (c.record2? "name" Json.asString? "scope" ScopeId.ofJson?).map fun (name, scope) =>
      duplicateBinding name scope
  | some ("UnknownScope", c) => (c.record1? "scope" ScopeId.ofJson?).map unknownScope
  | some ("UnknownBinding", c) => (c.record1? "binding" BindingId.ofJson?).map unknownBinding
  | _ => none

def ResolveError.toJson : ResolveError → Json
  | scope e => .case "Scope" e.toJson
  | assignToConstant name binding =>
    .cause "AssignToConstant" [("name", .str name), ("binding", binding.toJson)]
  | assignToFunctionName name binding =>
    .cause "AssignToFunctionName" [("name", .str name), ("binding", binding.toJson)]
  | missingDeclaration name => .cause "MissingDeclaration" [("name", .str name)]

def ResolveError.ofJson? (j : Json) : Option ResolveError :=
  match j.case? with
  | some ("Scope", c) => (ScopeError.ofJson? c).map scope
  | some ("AssignToConstant", c) =>
    (c.record2? "name" Json.asString? "binding" BindingId.ofJson?).map fun (name, binding) =>
      assignToConstant name binding
  | some ("AssignToFunctionName", c) =>
    (c.record2? "name" Json.asString? "binding" BindingId.ofJson?).map fun (name, binding) =>
      assignToFunctionName name binding
  | some ("MissingDeclaration", c) =>
    (c.record1? "name" Json.asString?).map missingDeclaration
  | _ => none

/-! ## Analysis -/

def AnalysisError.toJson : AnalysisError → Json
  | mutableCapture site name binding =>
    .cause "MutableCapture"
      [("site", site.toJson), ("name", .str name), ("binding", binding.toJson)]
  | unresolved name => .cause "Unresolved" [("name", .str name)]
  | scope e => .case "Scope" e.toJson

def AnalysisError.ofJson? (j : Json) : Option AnalysisError :=
  match j.case? with
  | some ("MutableCapture", c) =>
    (c.record3? "site" SiteId.ofJson? "name" Json.asString? "binding" BindingId.ofJson?).map
      fun (site, name, binding) => mutableCapture site name binding
  | some ("Unresolved", c) => (c.record1? "name" Json.asString?).map unresolved
  | some ("Scope", c) => (ScopeError.ofJson? c).map scope
  | _ => none

def AnalysisReport.toJson (r : AnalysisReport) : Json :=
  .record [("errors", .array (r.errors.map AnalysisError.toJson))]

def AnalysisReport.ofJson? (j : Json) : Option AnalysisReport :=
  (j.record1? "errors" (Json.asList? AnalysisError.ofJson?)).map mk

/-! ## Keys, heap and caches -/

def KeyError.toJson : KeyError → Json
  | missingBinding binding => .cause "MissingBinding" [("binding", binding.toJson)]
  | notACell name binding => .cause "NotACell" [("name", .str name), ("binding", binding.toJson)]
  | missingCaptureBinding name => .cause "MissingCaptureBinding" [("name", .str name)]
  | missingThis => .str "MissingThis"

def KeyError.ofJson? (j : Json) : Option KeyError :=
  match j.unitCase? Json.nestingLimit, j.case? with
  | some "MissingThis", _ => some missingThis
  | _, some ("MissingBinding", c) =>
    (c.record1? "binding" BindingId.ofJson?).map missingBinding
  | _, some ("NotACell", c) =>
    (c.record2? "name" Json.asString? "binding" BindingId.ofJson?).map fun (name, binding) =>
      notACell name binding
  | _, some ("MissingCaptureBinding", c) =>
    (c.record1? "name" Json.asString?).map missingCaptureBinding
  | _, _ => none

def HeapError.toJson : HeapError → Json
  | objectNotFound object => .cause "ObjectNotFound" [("object_id", object.toJson)]
  | kindMismatch object expected actual =>
    .cause "KindMismatch"
      [("object_id", object.toJson), ("expected", .str expected), ("actual", .str actual)]
  | indexOutOfBounds object index =>
    .cause "IndexOutOfBounds" [("object_id", object.toJson), ("index", .nat index)]
  | notRooted object => .cause "NotRooted" [("object_id", object.toJson)]

def HeapError.ofJson? (j : Json) : Option HeapError :=
  match j.case? with
  | some ("ObjectNotFound", c) => (c.record1? "object_id" ObjectId.ofJson?).map objectNotFound
  | some ("KindMismatch", c) =>
    (c.record3? "object_id" ObjectId.ofJson? "expected" Json.asString? "actual"
      Json.asString?).map fun (object, expected, actual) => kindMismatch object expected actual
  | some ("IndexOutOfBounds", c) =>
    (c.record2? "object_id" ObjectId.ofJson? "index" Json.asWord?).map fun (object, index) =>
      indexOutOfBounds object index
  | some ("NotRooted", c) => (c.record1? "object_id" ObjectId.ofJson?).map notRooted
  | _ => none

def CacheError.toJson : CacheError → Json
  | arityMismatch site expected actual =>
    .cause "ArityMismatch"
      [("site", site.toJson), ("expected", .nat expected), ("actual", .nat actual)]
  | consistencyViolation site detail =>
    .cause "ConsistencyViolation" [("site", site.toJson), ("detail", .str detail)]
  | host e => .case "Host" e.toJson

def CacheError.ofJson? (j : Json) : Option CacheError :=
  match j.case? with
  | some ("ArityMismatch", c) =>
    (c.record3? "site" SiteId.ofJson? "expected" Json.asWord? "actual" Json.asWord?).map
      fun (site, expected, actual) => arityMismatch site expected actual
  | some ("ConsistencyViolation", c) =>
    (c.record2? "site" SiteId.ofJson? "detail" Json.asString?).map fun (site, detail) =>
      consistencyViolation site detail
  | some ("Host", c) => (HeapError.ofJson? c).map host
  | _ => none

/-! ## Evaluation and configuration -/

def EvalError.toJson : EvalError → Json
  | reference name => .cause "ReferenceError" [("name", .str name)]
  | uninitialized name => .cause "Uninitialized" [("name", .str name)]
  | notCallable detail => .cause "NotCallable" [("detail", .str detail)]
  | notAnObject detail => .cause "NotAnObject" [("detail", .str detail)]
  | wrongType detail => .cause "TypeError" [("detail", .str detail)]
  | unknownSite site => .cause "UnknownSite" [("site", site.toJson)]
  | unannotated what => .cause "Unannotated" [("what", .str what)]
  | dynamicEvalUnsupported => .str "DynamicEvalUnsupported"
  | immutableCapture name => .cause "ImmutableCapture" [("name", .str name)]
  | alreadyRan => .str "AlreadyRan"
  | key e => .case "Key" e.toJson
  | cache e => .case "Cache" e.toJson
  | heap e => .case "Heap" e.toJson
  | scope e => .case "Scope" e.toJson

def EvalError.ofCase? : String × Json → Option EvalError
  | ("ReferenceError", c) => (c.record1? "name" Json.asString?).map reference
  | ("Uninitialized", c) => (c.record1? "name" Json.asString?).map uninitialized
  | ("NotCallable", c) => (c.record1? "detail" Json.asString?).map notCallable
  | ("NotAnObject", c) => (c.record1? "detail" Json.asString?).map notAnObject
  | ("TypeError", c) => (c.record1? "detail" Json.asString?).map wrongType
  | ("UnknownSite", c) => (c.record1? "site" SiteId.ofJson?).map unknownSite
  | ("Unannotated", c) => (c.record1? "what" Json.asString?).map unannotated
  | ("ImmutableCapture", c) => (c.record1? "name" Json.asString?).map immutableCapture
  | ("Key", c) => (KeyError.ofJson? c).map key
  | ("Cache", c) => (CacheError.ofJson? c).map cache
  | ("Heap", c) => (HeapError.ofJson? c).map heap
  | ("Scope", c) => (ScopeError.ofJson? c).map scope
  | _ => none

def EvalError.ofJson? (j : Json) : Option EvalError :=
  match j.unitCase? Json.nestingLimit with
  | some "DynamicEvalUnsupported" => some dynamicEvalUnsupported
  | some "AlreadyRan" => some alreadyRan
  | some _ => none
  | none => j.case?.bind ofCase?

def ConfigError.toJson : ConfigError → Json
  | parse message => .cause "Parse" [("message", .str message)]
  | emptyTraceId => .str "EmptyTraceId"

def ConfigError.ofJson? (j : Json) : Option ConfigError :=
  match j.unitCase? Json.nestingLimit, j.case? with
  | some "EmptyTraceId", _ => some emptyTraceId
  | _, some ("Parse", c) => (c.record1? "message" Json.asString?).map parse
  | _, _ => none

end ClosureCache
