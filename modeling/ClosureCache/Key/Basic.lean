/-
Cache keys: what a closure captured, one component a capture.

A primitive enters a key as what it is, an object or a cell as its identity.
Keys are ordered component by component, primitives first, then objects, then
cells.
-/
import ClosureCache.Value

namespace ClosureCache

/-- One captured thing in a key. -/
inductive KeyComponent where
  | primitive (p : Primitive)
  | objectRef (id : ObjectId)
  | cellRef (id : ObjectId)
deriving DecidableEq, Repr

namespace KeyComponent

/-- The object that the component names by its identity. -/
def object? : KeyComponent → Option ObjectId
  | primitive _ => none
  | objectRef id => some id
  | cellRef id => some id

/-- Whether the component names an object, which it does not keep alive. -/
def isWeak (c : KeyComponent) : Bool := c.object?.isSome

def ofValue : Value → KeyComponent
  | .undefined => primitive .undefined
  | .null => primitive .null
  | .bool b => primitive (.bool b)
  | .number n => primitive (.number n)
  | .str s => primitive (.str s)
  | .object id => objectRef id

/-- Different values have different components. -/
theorem ofValue_inj {v w : Value} (h : ofValue v = ofValue w) : v = w := by
  cases v <;> cases w <;> simp_all [ofValue]

def text : KeyComponent → String
  | primitive p => p.text
  | objectRef id => "&" ++ id.text
  | cellRef id => "cell&" ++ id.text

def rank : KeyComponent → Nat
  | primitive _ => 0
  | objectRef _ => 1
  | cellRef _ => 2

/-- The primitive in a component, and `undefined` for every other component. -/
def primitivePart : KeyComponent → Primitive
  | primitive p => p
  | _ => .undefined

/-- The number of the object in a component, and zero for a primitive. -/
def idPart : KeyComponent → Nat
  | primitive _ => 0
  | objectRef id => id.index
  | cellRef id => id.index

instance : Ord KeyComponent :=
  ⟨compareLex (compareOn rank) (compareLex (compareOn primitivePart) (compareOn idPart))⟩

end KeyComponent

/-- What a closure captured, in the order of the captures. -/
structure Key where
  components : List KeyComponent
deriving DecidableEq, Repr

namespace Key

def arity (k : Key) : Nat := k.components.length

/-- Whether no component names an object. -/
def isAllPrimitive (k : Key) : Bool := k.components.all fun c => !c.isWeak

def weakObjects (k : Key) : List ObjectId := k.components.filterMap KeyComponent.object?

def text (k : Key) : String := "(" ++ ", ".intercalate (k.components.map KeyComponent.text) ++ ")"

instance : Ord Key := ⟨compareOn Key.components⟩

def sort (keys : List Key) : List Key := keys.mergeSort fun a b => (compare a b).isLE

end Key

end ClosureCache
