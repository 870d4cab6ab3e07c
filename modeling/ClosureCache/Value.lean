/-
Values of the evaluated language, and the primitive half of cache keys.

A primitive is compared by what it is, an object by its identity.  `Primitive`
repeats the primitive values and adds one element for a binding that is read
before its declaration has run: it equals no value, so a closure created that
early is never shared with one created later.

The order on primitives is the order of map entries: first by the kind of the
primitive, then by value, strings by code point.
-/
import ClosureCache.Identity

namespace ClosureCache

/-- A value held by a variable, a property or an array element.  Numbers are
64-bit integers whose sums and differences wrap. -/
inductive Value where
  | undefined
  | null
  | bool (b : Bool)
  | number (n : Int64)
  | str (s : String)
  | object (id : ObjectId)
deriving DecidableEq, Repr, Inhabited

/-- A primitive as it stands in a cache key. -/
inductive Primitive where
  | undefined
  | null
  | bool (b : Bool)
  | number (n : Int64)
  | str (s : String)
  /-- The contents of a binding whose declaration has not run yet. -/
  | uninitialized
deriving DecidableEq, Repr, Inhabited

namespace Value

def object? : Value → Option ObjectId
  | object id => some id
  | _ => none

def isTruthy : Value → Bool
  | undefined => false
  | null => false
  | bool b => b
  | number n => n != 0
  | str s => !s.isEmpty
  | object _ => true

/-- The primitive in a cache key that stands for this value; an object has
none. -/
def toPrimitive? : Value → Option Primitive
  | undefined => some .undefined
  | null => some .null
  | bool b => some (.bool b)
  | number n => some (.number n)
  | str s => some (.str s)
  | object _ => none

def typeName : Value → String
  | undefined => "undefined"
  | null => "null"
  | bool _ => "boolean"
  | number _ => "number"
  | str _ => "string"
  | object _ => "object"

/-- The value as text: what joining it to a string appends. -/
def text : Value → String
  | undefined => "undefined"
  | null => "null"
  | bool b => if b then "true" else "false"
  | number n => n.toInt.repr
  | str s => s
  | object id => "[object " ++ id.text ++ "]"

end Value

namespace Primitive

/-- The value this primitive was made from; the uninitialised one was made from
none. -/
def toValue? : Primitive → Option Value
  | undefined => some .undefined
  | null => some .null
  | bool b => some (.bool b)
  | number n => some (.number n)
  | str s => some (.str s)
  | uninitialized => none

/-- The primitive as text: a string stands between quotation marks, without
escapes. -/
def text : Primitive → String
  | undefined => "undefined"
  | null => "null"
  | bool b => if b then "true" else "false"
  | number n => n.toInt.repr
  | str s => "\"" ++ s ++ "\""
  | uninitialized => "<uninitialized>"

/-! ## Order

The order compares the kinds first and then the contents, each kind of contents
in its own place: of two primitives of one kind all places but one agree. -/

def rank : Primitive → Nat
  | undefined => 0
  | null => 1
  | bool _ => 2
  | number _ => 3
  | str _ => 4
  | uninitialized => 5

/-- The contents of a Boolean, and `false` for every other primitive. -/
def boolPart : Primitive → Bool
  | bool b => b
  | _ => false

/-- The contents of a number, and zero for every other primitive. -/
def numberPart : Primitive → Int64
  | number n => n
  | _ => 0

/-- The contents of a string, and the empty text for every other primitive. -/
def strPart : Primitive → String
  | str s => s
  | _ => ""

/-- Order by kind, and within one kind by contents. -/
def order : Primitive → Primitive → Ordering :=
  compareLex (compareOn rank)
    (compareLex (compareOn boolPart) (compareLex (compareOn numberPart) (compareOn strPart)))

instance : Ord Primitive := ⟨order⟩

instance : Std.TransOrd Primitive :=
  inferInstanceAs (Std.TransCmp (compareLex (compareOn rank)
    (compareLex (compareOn boolPart) (compareLex (compareOn numberPart) (compareOn strPart)))))

/-- Kind and contents together determine the primitive. -/
theorem order_eq_eq_iff {p q : Primitive} : order p q = .eq ↔ p = q := by
  simp only [order, compareLex_eq_eq, compareOn, Std.compare_eq_iff_eq]
  constructor
  · cases p <;> cases q <;> simp_all [rank, boolPart, numberPart, strPart]
  · rintro rfl
    simp

instance : Std.LawfulEqOrd Primitive where
  compare_self := order_eq_eq_iff.2 rfl
  eq_of_compare h := order_eq_eq_iff.1 h

end Primitive

end ClosureCache
