/-
The JSON form of capture specs.
-/
import ClosureCache.Capture.Spec
import ClosureCache.Json.Identity

namespace ClosureCache

def CaptureMode.name : CaptureMode → String
  | value => "value"
  | cell => "cell"
  | thisValue => "this_value"

def CaptureMode.ofName? : String → Option CaptureMode
  | "value" => some value
  | "cell" => some cell
  | "this_value" => some thisValue
  | _ => none

def CaptureMode.ofJson? (j : Json) : Option CaptureMode :=
  (j.unitCase? Json.nestingLimit).bind ofName?

def Capture.toJson (c : Capture) : Json :=
  .record [("binding", .nullable BindingId.toJson c.binding), ("name", .str c.name),
    ("mode", .str c.mode.name), ("source_scope", c.source.toJson)]

def Capture.ofJson? (j : Json) : Option Capture :=
  match j.fields? ["binding", "name", "mode", "source_scope"] with
  | some [binding, name, mode, source] => do
    let binding ← Json.optional? BindingId.ofJson? binding
    let name ← Json.required? Json.asString? name
    let mode ← Json.required? CaptureMode.ofJson? mode
    let source ← Json.required? ScopeId.ofJson? source
    return { binding, name, mode, source }
  | _ => none

def CaptureSpec.toJson (s : CaptureSpec) : Json :=
  .record [("site", s.site.toJson), ("captures", .array (s.captures.map Capture.toJson))]

def CaptureSpec.ofJson? (j : Json) : Option CaptureSpec :=
  (j.record2? "site" SiteId.ofJson? "captures" (Json.asList? Capture.ofJson?)).map
    fun (site, captures) => { site, captures }

end ClosureCache
