import TieredStore.Text.Digits

/-!
# Columns and amounts

Text is set in columns by adding spaces up to a least width, counted in
characters.  Amounts of bytes are shown in the largest unit that they reach,
with two places; a half goes to the even neighbour.
-/

namespace TieredStore
namespace Text

def spaces (count : Nat) : String := String.ofList (List.replicate count ' ')

def atRight (width : Nat) (text : String) : String := spaces (width - text.length) ++ text

def atLeft (width : Nat) (text : String) : String := text ++ spaces (width - text.length)

/-- The nearest whole number to `amount / unit`; a half goes to the even neighbour. -/
def roundedQuotient (amount unit : Nat) : Nat :=
  let quotient := amount / unit
  let twice := 2 * (amount % unit)
  if unit < twice ∨ (twice = unit ∧ quotient % 2 = 1) then quotient + 1 else quotient

def twoPlaces (amount unit : Nat) : String :=
  let hundredths := roundedQuotient (100 * amount) unit
  toString (hundredths / 100) ++ "." ++ decimal 2 (hundredths % 100)

def kilobyte : Nat := 1024

def megabyte : Nat := 1024 * kilobyte

def gigabyte : Nat := 1024 * megabyte

/-- An amount of bytes in the largest unit of which there is at least one. -/
def byteCount (count : Nat) : String :=
  if gigabyte ≤ count then twoPlaces count gigabyte ++ " GB"
  else if megabyte ≤ count then twoPlaces count megabyte ++ " MB"
  else if kilobyte ≤ count then twoPlaces count kilobyte ++ " KB"
  else s!"{count} bytes"

end Text
end TieredStore
