/-
Taking JSON values apart into the parts of a domain type.

A record is spelt as an object with named members or as an array of its fields
in their order.  Unknown members are passed over, whatever they hold; a known
one stands at most once.  A case is spelt as an object with one member, named
for the case; a case without contents may also be spelt as its bare name.

Each function opens one level of nesting at most.  Where a value may be nested
deeply its reader counts the levels that are left.
-/
import ClosureCache.Json.Basic

namespace ClosureCache
namespace Json

/-- Number of levels of arrays and objects that may stand inside each other in
the parts of a value that are read. -/
def nestingLimit : Nat := 127

/-! ## Scalars -/

def asBool? : Json → Option Bool
  | bool b => some b
  | _ => none

def asString? : Json → Option String
  | string text => text
  | _ => none

def asNatBelow? (bound : Nat) : Json → Option Nat
  | integer false n => if n < bound then some n else none
  | _ => none

def asIndex? : Json → Option Nat := asNatBelow? UInt32.size

def asWord? : Json → Option Nat := asNatBelow? UInt64.size

/-- A signed number of 64 bits; zero has no sign. -/
def asInt64? : Json → Option Int64
  | integer false n => if n < 0x8000000000000000 then some (Int64.ofNat n) else none
  | integer true n => if 0 < n ∧ n ≤ 0x8000000000000000 then some (Int64.ofInt (-n)) else none
  | _ => none

/-- An optional part: `null` stands for its absence. -/
def asNullable? {α : Type} (f : Json → Option α) : Json → Option (Option α)
  | null => some none
  | j => (f j).map some

/-! ## Arrays and objects -/

/-- An array with every item of one kind. -/
def asList? {α : Type} (f : Json → Option α) : Json → Option (List α)
  | array items => items.mapM f
  | _ => none

def asPair? {α β : Type} (f : Json → Option α) (g : Json → Option β) : Json → Option (α × β)
  | array [a, b] => do return (← f a, ← g b)
  | _ => none

/-- The value of the one member with a name; absent if there is none, and
refused if there are several. -/
def member? (members : List (Option String × Json)) (name : String) : Option (Option Json) :=
  match members.filter fun m => m.1 == some name with
  | [] => some none
  | [m] => some (some m.2)
  | _ => none

/-- The fields of a record in the order of their names, absent members left
out.  As an array the record is complete. -/
def fields? (names : List String) : Json → Option (List (Option Json))
  | object members =>
    if members.all fun m => m.1.isSome then names.mapM (member? members) else none
  | array items => if items.length = names.length then some (items.map some) else none
  | _ => none

/-- The fields of a record all of whose fields have defaults: as an array it
may also end early. -/
def fieldsWithDefaults? (names : List String) : Json → Option (List (Option Json))
  | array items =>
    if items.length ≤ names.length then
      some (items.map some ++ List.replicate (names.length - items.length) none)
    else none
  | j => fields? names j

def required? {α : Type} (f : Json → Option α) (field : Option Json) : Option α :=
  field.bind f

/-- A field whose absence means the same as `null`. -/
def optional? {α : Type} (f : Json → Option α) : Option Json → Option (Option α)
  | none => some none
  | some j => asNullable? f j

def defaulted? {α : Type} (default : α) (f : Json → Option α) : Option Json → Option α
  | none => some default
  | some j => f j

def record1? {α : Type} (name : String) (f : Json → Option α) (j : Json) : Option α :=
  match j.fields? [name] with
  | some [a] => required? f a
  | _ => none

def record2? {α β : Type} (name : String) (f : Json → Option α) (name' : String)
    (g : Json → Option β) (j : Json) : Option (α × β) :=
  match j.fields? [name, name'] with
  | some [a, b] => do return (← required? f a, ← required? g b)
  | _ => none

def record3? {α β γ : Type} (name : String) (f : Json → Option α) (name' : String)
    (g : Json → Option β) (name'' : String) (k : Json → Option γ) (j : Json) :
    Option (α × β × γ) :=
  match j.fields? [name, name', name''] with
  | some [a, b, c] => do return (← required? f a, ← required? g b, ← required? k c)
  | _ => none

def case? : Json → Option (String × Json)
  | object [(some name, contents)] => some (name, contents)
  | _ => none

/-- The name of a case without contents: a bare string, or, where a level is
left, an object whose one member is `null`. -/
def unitCase? : Nat → Json → Option String
  | _, string text => text
  | _ + 1, object [(some name, null)] => some name
  | _, _ => none

end Json
end ClosureCache
