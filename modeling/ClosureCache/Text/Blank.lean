/-
The characters with the Unicode property White_Space, and texts that consist of
them alone.
-/
namespace ClosureCache
namespace Text

/-- The code points of White_Space outside the ranges U+0009 to U+000D and
U+2000 to U+200A. -/
def scatteredBlanks : List Nat :=
  [0x20, 0x85, 0xA0, 0x1680, 0x2028, 0x2029, 0x202F, 0x205F, 0x3000]

/-- Whether a character has the property White_Space. -/
def isBlank (c : Char) : Bool :=
  (0x09 ≤ c.toNat && c.toNat ≤ 0x0D) || (0x2000 ≤ c.toNat && c.toNat ≤ 0x200A) ||
    scatteredBlanks.contains c.toNat

/-- Whether nothing is left of a text when blanks are removed. -/
def isBlankText (s : String) : Bool := s.toList.all isBlank

end Text
end ClosureCache
