/-
Why a computation ends without a value.
-/
namespace ClosureCache

/-- Why a computation ends without a value. -/
inductive Stop (ε : Type) where
  /-- It fails. -/
  | error (e : ε)
  /-- It has no end, or none within the steps it was given. -/
  | endless
  /-- A size would leave the range of 64-bit numbers. -/
  | overflow
deriving DecidableEq, Repr

end ClosureCache
