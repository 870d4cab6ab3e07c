/-
The JSON forms of values, primitives and keys: a case is named for its kind, and
a key is the list of its components.
-/
import ClosureCache.Json.Identity
import ClosureCache.Key.Basic

namespace ClosureCache

/-! ## Values -/

def Value.toJson : Value → Json
  | undefined => .str "Undefined"
  | null => .str "Null"
  | bool b => .case "Bool" (.bool b)
  | number n => .case "Number" (.int n.toInt)
  | str s => .case "Str" (.str s)
  | object id => .case "Object" id.toJson

def Value.ofCase? : String × Json → Option Value
  | ("Bool", c) => c.asBool?.map bool
  | ("Number", c) => c.asInt64?.map number
  | ("Str", c) => c.asString?.map str
  | ("Object", c) => (ObjectId.ofJson? c).map object
  | _ => none

def Value.ofJson? (j : Json) : Option Value :=
  match j.unitCase? Json.nestingLimit with
  | some "Undefined" => some undefined
  | some "Null" => some null
  | some _ => none
  | none => j.case?.bind ofCase?

/-! ## Primitives -/

def Primitive.toJson : Primitive → Json
  | undefined => .str "Undefined"
  | null => .str "Null"
  | bool b => .case "Bool" (.bool b)
  | number n => .case "Number" (.int n.toInt)
  | str s => .case "Str" (.str s)
  | uninitialized => .str "Uninitialized"

def Primitive.ofCase? : String × Json → Option Primitive
  | ("Bool", c) => c.asBool?.map bool
  | ("Number", c) => c.asInt64?.map number
  | ("Str", c) => c.asString?.map str
  | _ => none

def Primitive.ofJson? (j : Json) : Option Primitive :=
  match j.unitCase? Json.nestingLimit with
  | some "Undefined" => some undefined
  | some "Null" => some null
  | some "Uninitialized" => some uninitialized
  | some _ => none
  | none => j.case?.bind ofCase?

/-! ## Keys -/

def KeyComponent.toJson : KeyComponent → Json
  | primitive p => .case "Primitive" p.toJson
  | objectRef id => .case "ObjectRef" id.toJson
  | cellRef id => .case "CellRef" id.toJson

def KeyComponent.ofJson? (j : Json) : Option KeyComponent :=
  match j.case? with
  | some ("Primitive", c) => (Primitive.ofJson? c).map primitive
  | some ("ObjectRef", c) => (ObjectId.ofJson? c).map objectRef
  | some ("CellRef", c) => (ObjectId.ofJson? c).map cellRef
  | _ => none

def Key.toJson (k : Key) : Json := .array (k.components.map KeyComponent.toJson)

def Key.ofJson? (j : Json) : Option Key := (j.asList? KeyComponent.ofJson?).map mk

end ClosureCache
