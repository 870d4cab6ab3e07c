/-
Unsigned decimal numerals as they are read from text.

`readDigits` is the value of a run of digits; `readWord` reads a numeral of at
most 64 bits, which may carry a plus sign.  Array elements are addressed by such
numerals.
-/
namespace ClosureCache
namespace Text

def digit? (c : Char) : Option Nat :=
  if '0' ≤ c ∧ c ≤ '9' then some (c.toNat - '0'.toNat) else none

/-- The value of a run of digits read after `acc`, or nothing if another
character occurs. -/
def readDigits (acc : Nat) : List Char → Option Nat
  | [] => some acc
  | c :: rest =>
    match digit? c with
    | some d => readDigits (10 * acc + d) rest
    | none => none

def readNumeral? : List Char → Option Nat
  | [] => none
  | cs => readDigits 0 cs

def dropPlus : List Char → List Char
  | '+' :: rest => rest
  | cs => cs

/-- The numeral of a 64-bit unsigned number: an optional plus sign, then one or
more digits.  Leading zeros are allowed, and a larger value is no numeral. -/
def readWord? (s : String) : Option Nat :=
  (readNumeral? (dropPlus s.toList)).filter (· < UInt64.size)

/-- A numeral names a 64-bit number. -/
theorem lt_of_readWord? {s : String} {n : Nat} (h : readWord? s = some n) : n < UInt64.size := by
  simpa using (Option.filter_eq_some_iff.1 h).2

end Text
end ClosureCache
