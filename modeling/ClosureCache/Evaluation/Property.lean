/-
Properties of values, and the operators.

The elements of an array are its properties under decimal numerals, which may
have a plus sign and leading zeros.  Writing beyond the end makes the array
longer and fills the gap with `undefined`.
-/
import ClosureCache.Evaluation.Error
import ClosureCache.Program.Basic
import ClosureCache.Text.Decimal

namespace ClosureCache

def Object.property (object : Object) (name : String) : Value :=
  match object with
  | .ordinary properties => (properties.get? name).getD .undefined
  | .array elements =>
    if name = "length" then .number (Int64.ofNat elements.size)
    else ((Text.readWord? name).bind fun index => elements[index]?).getD .undefined
  | _ => .undefined

/-- A property of a value.  Only `undefined` and `null` have none at all. -/
def Heap.getProperty (h : Heap) (target : Value) (name : String) : Except EvalError Value :=
  match target with
  | .object id =>
    match h.object id with
    | .error e => .error (.heap e)
    | .ok object => .ok (object.property name)
  | .str s => .ok (if name = "length" then .number (Int64.ofNat s.length) else .undefined)
  | .undefined | .null =>
    .error (.notAnObject ("cannot read '" ++ name ++ "' of " ++ target.typeName))
  | .bool _ | .number _ => .ok .undefined

/-- An array with an element written. -/
def writeElement (elements : Array Value) (index : Nat) (value : Value) : Array Value :=
  let gap := Array.replicate (index + 1 - elements.size) Value.undefined
  (elements ++ gap).setIfInBounds index value

def Heap.setProperty (target : Value) (name : String) (value : Value) :
    HeapM (Stop EvalError) Unit := fun h =>
  match target.object? with
  | none =>
    (.error (.error (.notAnObject ("cannot set '" ++ name ++ "' on " ++ target.typeName))), h)
  | some id =>
    match h.object id with
    | .error e => (.error (.error (.heap e)), h)
    | .ok (.ordinary properties) =>
      (.ok (), h.setObject id (.ordinary (properties.insert name value)))
    | .ok (.array elements) =>
      match Text.readWord? name with
      | none => (.error (.error (.wrongType ("'" ++ name ++ "' is not an array index"))), h)
      | some index =>
        if index + 1 < UInt64.size then
          (.ok (), h.setObject id (.array (writeElement elements index value)))
        else (.error .overflow, h)
    | .ok other =>
      (.error (.error (.wrongType ("cannot set '" ++ name ++ "' on a " ++ other.kindName))), h)

/-! ## Operators -/

def BinaryOp.text : BinaryOp → String
  | add => "Add"
  | sub => "Sub"
  | lt => "Lt"
  | strictEq => "StrictEq"
  | strictNe => "StrictNe"

/-- The error of an operator that does not take its operands. -/
def BinaryOp.mismatch (op : BinaryOp) (left right : Value) : EvalError :=
  .wrongType ("unsupported operands " ++ left.typeName ++ " and " ++ right.typeName ++ " for " ++
    op.text)

/-- The value of an operator.  Sums and differences of numbers wrap; a string
takes the text of whatever is added to it. -/
def BinaryOp.apply (op : BinaryOp) (left right : Value) : Except EvalError Value :=
  match op with
  | add =>
    match left, right with
    | .number a, .number b => .ok (.number (a + b))
    | .str a, b => .ok (.str (a ++ b.text))
    | a, .str b => .ok (.str (a.text ++ b))
    | _, _ => .error (op.mismatch left right)
  | sub =>
    match left, right with
    | .number a, .number b => .ok (.number (a - b))
    | _, _ => .error (op.mismatch left right)
  | lt =>
    match left, right with
    | .number a, .number b => .ok (.bool (a < b))
    | .str a, .str b => .ok (.bool (a < b))
    | _, _ => .error (op.mismatch left right)
  | strictEq => .ok (.bool (left == right))
  | strictNe => .ok (.bool (left != right))

end ClosureCache
