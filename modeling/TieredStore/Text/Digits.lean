/-!
# Numbers of fixed width

A number is shown by a fixed count of digits; higher digits are cut off and
missing ones are zeros.  Hexadecimal digits are in lower case.  A decimal number
is read from any count of digits, with or without a plus sign in front.
-/

namespace TieredStore
namespace Text

def digit (n : Nat) : Char :=
  if n < 10 then Char.ofNat ('0'.toNat + n) else Char.ofNat ('a'.toNat + (n - 10))

/-- The lowest `width` digits of `n`, most significant first. -/
def digits (base : Nat) : (width n : Nat) → List Char
  | 0, _ => []
  | width + 1, n => digits base width (n / base) ++ [digit (n % base)]

def hex (width n : Nat) : String := String.ofList (digits 16 width n)

def decimal (width n : Nat) : String := String.ofList (digits 10 width n)

/-- The number that decimal digits stand for, if there is a digit and nothing else. -/
def digitsValue? : List Char → Option Nat
  | [] => none
  | cs => if cs.all Char.isDigit then some (cs.foldl (fun n c => n * 10 + (c.toNat - 48)) 0) else none

/-- The number that decimal digits stand for, when a plus sign may come first. -/
def decimalValue? : List Char → Option Nat
  | '+' :: cs => digitsValue? cs
  | cs => digitsValue? cs

@[simp] theorem length_digits (base width n : Nat) : (digits base width n).length = width := by
  induction width generalizing n with
  | zero => rfl
  | succ width ih => simp [digits, ih]

end Text
end TieredStore
