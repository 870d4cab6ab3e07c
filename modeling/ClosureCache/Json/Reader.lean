/-
Reading JSON text.

The syntax is strict: blanks are the space, the tab and the two line ends,
control characters do not stand in strings, numbers have no leading zeros, and
nothing follows the value but blanks.  Values may be nested to any depth.

A string is read in two steps, first into the numbers of its characters, which
may be halves of surrogate pairs, then into text.
-/
import ClosureCache.Json.Basic
import ClosureCache.Text.Decimal

namespace ClosureCache
namespace Json

/-- Whether a character may stand between two tokens. -/
def isSeparator (c : Char) : Bool := c == ' ' || c == '\t' || c == '\n' || c == '\r'

def skipBlanks (cs : List Char) : List Char := cs.dropWhile isSeparator

/-! ## Strings -/

def hexValue? (c : Char) : Option Nat :=
  if '0' ≤ c ∧ c ≤ '9' then some (c.toNat - '0'.toNat)
  else if 'a' ≤ c ∧ c ≤ 'f' then some (c.toNat - 'a'.toNat + 10)
  else if 'A' ≤ c ∧ c ≤ 'F' then some (c.toNat - 'A'.toNat + 10)
  else none

def hexUnit? (a b c d : Char) : Option Nat :=
  match hexValue? a, hexValue? b, hexValue? c, hexValue? d with
  | some a, some b, some c, some d => some (((a * 16 + b) * 16 + c) * 16 + d)
  | _, _, _, _ => none

/-- The character that a one-letter escape stands for. -/
def unescape? (c : Char) : Option Char :=
  match c with
  | '"' => some '"'
  | '\\' => some '\\'
  | '/' => some '/'
  | 'b' => some '\x08'
  | 'f' => some '\x0c'
  | 'n' => some '\n'
  | 'r' => some '\r'
  | 't' => some '\t'
  | _ => none

/-- The numbers of the characters up to the closing quotation mark, and the
text after it. -/
def readUnits : List Char → Option (List Nat × List Char)
  | [] => none
  | '"' :: rest => some ([], rest)
  | '\\' :: 'u' :: a :: b :: c :: d :: rest =>
    match hexUnit? a b c d, readUnits rest with
    | some unit, some (units, rest) => some (unit :: units, rest)
    | _, _ => none
  | '\\' :: c :: rest =>
    match unescape? c, readUnits rest with
    | some c, some (units, rest) => some (c.toNat :: units, rest)
    | _, _ => none
  | c :: rest =>
    if c = '\\' ∨ c.toNat < 0x20 then none
    else
      match readUnits rest with
      | some (units, rest) => some (c.toNat :: units, rest)
      | none => none

/-- Whether a number is the first half of a surrogate pair. -/
def isHighHalf (unit : Nat) : Bool := 0xD800 ≤ unit && unit ≤ 0xDBFF

/-- Whether a number is the second half of a surrogate pair. -/
def isLowHalf (unit : Nat) : Bool := 0xDC00 ≤ unit && unit ≤ 0xDFFF

/-- The character with a number that is no half of a pair. -/
def charOfUnit? (unit : Nat) : Option Char :=
  if isHighHalf unit || isLowHalf unit then none else some (Char.ofNat unit)

/-- The characters with the given numbers, two halves making one character.
There are none if a half is left over. -/
def charsOfUnits? : List Nat → Option (List Char)
  | [] => some []
  | [unit] => (charOfUnit? unit).map fun c => [c]
  | high :: low :: rest =>
    if isHighHalf high && isLowHalf low then
      let c := Char.ofNat (0x10000 + (high - 0xD800) * 0x400 + (low - 0xDC00))
      (charsOfUnits? rest).map (c :: ·)
    else
      match charOfUnit? high, charsOfUnits? (low :: rest) with
      | some c, some cs => some (c :: cs)
      | _, _ => none

/-- The text of a string after its opening quotation mark, if it has one, and
what follows the string. -/
def readText (cs : List Char) : Option (Option String × List Char) :=
  (readUnits cs).map fun (units, rest) => ((charsOfUnits? units).map String.ofList, rest)

/-! ## Numbers -/

def isDigit (c : Char) : Bool := (Text.digit? c).isSome

/-- The digits of a fraction, after its point. -/
def readFraction : List Char → Option (List Char × List Char)
  | '.' :: rest =>
    match rest.takeWhile isDigit with
    | [] => none
    | digits => some ('.' :: digits, rest.dropWhile isDigit)
  | cs => some ([], cs)

/-- The sign of an exponent, if it has one. -/
def readSign : List Char → List Char × List Char
  | '+' :: rest => (['+'], rest)
  | '-' :: rest => (['-'], rest)
  | cs => ([], cs)

def readExponent : List Char → Option (List Char × List Char)
  | [] => some ([], [])
  | c :: rest =>
    if c = 'e' ∨ c = 'E' then
      let (sign, rest) := readSign rest
      match rest.takeWhile isDigit with
      | [] => none
      | digits => some (c :: sign ++ digits, rest.dropWhile isDigit)
    else some ([], c :: rest)

/-- Whether digits may begin a number: at least one, and no zero before another
digit. -/
def isWhole : List Char → Bool
  | [] => false
  | ['0'] => true
  | c :: _ => c != '0'

def readMagnitude (negative : Bool) (cs : List Char) : Option (Json × List Char) :=
  let digits := cs.takeWhile isDigit
  if isWhole digits then
    match readFraction (cs.dropWhile isDigit) with
    | none => none
    | some (fraction, rest) =>
      match readExponent rest with
      | none => none
      | some (exponent, rest) =>
        if fraction.isEmpty && exponent.isEmpty then
          (Text.readDigits 0 digits).map fun n => (integer negative n, rest)
        else
          let sign := if negative then ['-'] else []
          some (decimal (String.ofList (sign ++ digits ++ fraction ++ exponent)), rest)
  else none

def readNumber : List Char → Option (Json × List Char)
  | '-' :: rest => readMagnitude true rest
  | cs => readMagnitude false cs

/-! ## Values -/

/-- The name of a member and the colon after it. -/
def readName (cs : List Char) : Option (Option String × List Char) :=
  match skipBlanks cs with
  | '"' :: rest =>
    match readText rest with
    | none => none
    | some (name, rest) =>
      match skipBlanks rest with
      | ':' :: rest => some (name, rest)
      | _ => none
  | _ => none

mutual

/-- One value and the text after it.  Every unit of fuel pays for a character
that the value takes. -/
def readValue : Nat → List Char → Option (Json × List Char)
  | 0, _ => none
  | fuel + 1, cs =>
    match skipBlanks cs with
    | 'n' :: 'u' :: 'l' :: 'l' :: rest => some (null, rest)
    | 't' :: 'r' :: 'u' :: 'e' :: rest => some (bool true, rest)
    | 'f' :: 'a' :: 'l' :: 's' :: 'e' :: rest => some (bool false, rest)
    | '"' :: rest => (readText rest).map fun (text, rest) => (string text, rest)
    | '[' :: rest =>
      match skipBlanks rest with
      | ']' :: rest => some (array [], rest)
      | cs =>
        match readValue fuel cs with
        | none => none
        | some (item, rest) =>
          (readMoreItems fuel rest).map fun (items, rest) => (array (item :: items), rest)
    | '\x7b' :: rest =>
      match skipBlanks rest with
      | '\x7d' :: rest => some (object [], rest)
      | cs =>
        match readName cs with
        | none => none
        | some (name, rest) =>
          match readValue fuel rest with
          | none => none
          | some (value, rest) =>
            (readMoreMembers fuel rest).map fun (members, rest) =>
              (object ((name, value) :: members), rest)
    | cs => readNumber cs

/-- The items after one item of an array, and the text after the array. -/
def readMoreItems : Nat → List Char → Option (List Json × List Char)
  | 0, _ => none
  | fuel + 1, cs =>
    match skipBlanks cs with
    | ']' :: rest => some ([], rest)
    | ',' :: rest =>
      match readValue fuel rest with
      | none => none
      | some (item, rest) =>
        (readMoreItems fuel rest).map fun (items, rest) => (item :: items, rest)
    | _ => none

/-- The members after one member of an object, and the text after the object. -/
def readMoreMembers : Nat → List Char → Option (List (Option String × Json) × List Char)
  | 0, _ => none
  | fuel + 1, cs =>
    match skipBlanks cs with
    | '\x7d' :: rest => some ([], rest)
    | ',' :: rest =>
      match readName rest with
      | none => none
      | some (name, rest) =>
        match readValue fuel rest with
        | none => none
        | some (value, rest) =>
          (readMoreMembers fuel rest).map fun (members, rest) => ((name, value) :: members, rest)
    | _ => none

end

/-- The value that a whole text spells. -/
def read? (s : String) : Option Json :=
  let cs := s.toList
  match readValue (cs.length + 1) cs with
  | some (j, rest) => if (skipBlanks rest).isEmpty then some j else none
  | none => none

end Json
end ClosureCache
