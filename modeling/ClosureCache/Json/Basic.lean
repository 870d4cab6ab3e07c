/-
JSON values and their compact text.

An object keeps its members in the order of the text, repeated names included.
Escapes can spell half of a surrogate pair, which is no character: a string with
such an escape is a JSON string all the same and has no text, and the same goes
for the name of a member.

The text of a value has no blanks.  Inside a string only quotation marks,
backslashes and control characters are escaped.
-/
namespace ClosureCache

inductive Json where
  | null
  | bool (b : Bool)
  /-- A number without fraction and exponent. -/
  | integer (negative : Bool) (magnitude : Nat)
  /-- A number with a fraction or an exponent, as it was spelt. -/
  | decimal (spelling : String)
  /-- A string; it has no text if an escape names half of a surrogate pair. -/
  | string (text : Option String)
  | array (items : List Json)
  /-- The members with their names, in the order of the text. -/
  | object (members : List (Option String × Json))
deriving Inhabited

namespace Json

def str (s : String) : Json := string (some s)

def nat (n : Nat) : Json := integer false n

def int (i : Int) : Json := integer (i < 0) i.natAbs

def record (members : List (String × Json)) : Json :=
  object (members.map fun m => (some m.1, m.2))

/-- An object with one member: the form of a case and its contents. -/
def case (name : String) (contents : Json) : Json := record [(name, contents)]

/-- The form of an optional part: `null` stands for its absence. -/
def nullable {α : Type} (f : α → Json) : Option α → Json
  | none => null
  | some a => f a

/-! ## Text -/

def controlDigits (c : Char) : List Char :=
  [Nat.digitChar (c.toNat / 16), Nat.digitChar (c.toNat % 16)]

/-- A character as it stands inside a string. -/
def escape (c : Char) : List Char :=
  match c with
  | '"' => ['\\', '"']
  | '\\' => ['\\', '\\']
  | '\x08' => ['\\', 'b']
  | '\t' => ['\\', 't']
  | '\n' => ['\\', 'n']
  | '\x0c' => ['\\', 'f']
  | '\r' => ['\\', 'r']
  | c => if c.toNat < 0x20 then '\\' :: 'u' :: '0' :: '0' :: controlDigits c else [c]

def quote (s rest : List Char) : List Char := '"' :: (s.flatMap escape ++ '"' :: rest)

def digits (negative : Bool) (magnitude : Nat) (rest : List Char) : List Char :=
  let unsigned := Nat.toDigits 10 magnitude ++ rest
  if negative then '-' :: unsigned else unsigned

mutual

/-- The compact text of a value, in front of a text. -/
def spell : Json → List Char → List Char
  | null, rest => 'n' :: 'u' :: 'l' :: 'l' :: rest
  | bool true, rest => 't' :: 'r' :: 'u' :: 'e' :: rest
  | bool false, rest => 'f' :: 'a' :: 'l' :: 's' :: 'e' :: rest
  | integer negative magnitude, rest => digits negative magnitude rest
  | decimal spelling, rest => spelling.toList ++ rest
  | string text, rest => quote (text.getD "").toList rest
  | array [], rest => '[' :: ']' :: rest
  | array (item :: items), rest => '[' :: item.spell (spellMoreItems items rest)
  | object [], rest => '\x7b' :: '\x7d' :: rest
  | object ((name, value) :: members), rest =>
    '\x7b' :: quote (name.getD "").toList (':' :: value.spell (spellMoreMembers members rest))

/-- The items after the first and the closing bracket, in front of a text. -/
def spellMoreItems : List Json → List Char → List Char
  | [], rest => ']' :: rest
  | item :: items, rest => ',' :: item.spell (spellMoreItems items rest)

/-- The members after the first and the closing brace, in front of a text. -/
def spellMoreMembers : List (Option String × Json) → List Char → List Char
  | [], rest => '\x7d' :: rest
  | (name, value) :: members, rest =>
    ',' :: quote (name.getD "").toList (':' :: value.spell (spellMoreMembers members rest))

end

def render (j : Json) : String := String.ofList (j.spell [])

end Json

end ClosureCache
