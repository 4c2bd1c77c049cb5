import Mathlib.Tactic.IntervalCases
import TieredStore.Ledger.Directory

/-!
# Names of ledger files

The name of a ledger file is read back as the id that it was made from.  Twenty
digits are enough for every id, so that no digit is cut off and two ledgers never
share a file.  The lock file is no ledger.
-/

namespace TieredStore
namespace Text

/-!
## Decimal digits
-/

theorem digit_of_lt_ten {n : Nat} (h : n < 10) :
    (digit n).isDigit = true ∧ (digit n).toNat - 48 = n := by
  interval_cases n <;> decide

theorem isDigit_of_mem_digits (width n : Nat) : ∀ c ∈ digits 10 width n, c.isDigit = true := by
  induction width generalizing n with
  | zero =>
      intro c hc
      cases hc
  | succ width ih =>
      intro c hc
      rw [digits] at hc
      rcases List.mem_append.mp hc with hhigher | hlast
      · exact ih (n / 10) c hhigher
      · rw [List.mem_singleton.mp hlast]
        exact (digit_of_lt_ten (Nat.mod_lt n (by decide))).1

theorem foldl_digits (width n : Nat) :
    (digits 10 width n).foldl (fun n c => n * 10 + (c.toNat - 48)) 0 = n % 10 ^ width := by
  induction width generalizing n with
  | zero => simp [digits, Nat.mod_one]
  | succ width ih =>
      have hdigit := (digit_of_lt_ten (Nat.mod_lt n (by decide : 0 < 10))).2
      rw [digits, List.foldl_append, ih, List.foldl_cons, List.foldl_nil, hdigit,
        Nat.pow_succ', Nat.mod_mul]
      omega

theorem decimalValue?_digits {width n : Nat} (hwidth : 0 < width) (h : n < 10 ^ width) :
    decimalValue? (digits 10 width n) = some n := by
  have hdigits := isDigit_of_mem_digits width n
  have hvalue := foldl_digits width n
  rw [Nat.mod_eq_of_lt h] at hvalue
  cases hcs : digits 10 width n with
  | nil =>
      have hlength := length_digits 10 width n
      rw [hcs] at hlength
      exact absurd hlength (Nat.ne_of_lt hwidth)
  | cons c rest =>
      rw [hcs] at hdigits hvalue
      have hplus : c ≠ '+' := by
        rintro rfl
        exact absurd (hdigits '+' List.mem_cons_self) (by decide)
      have hplain : decimalValue? (c :: rest) = digitsValue? (c :: rest) := by
        unfold decimalValue?
        split
        · rename_i heq
          cases heq
          exact absurd rfl hplus
        · rfl
      rw [hplain, digitsValue?, if_pos (List.all_eq_true.mpr hdigits), hvalue]
      simp

end Text

namespace Ledgers

/-!
## Ledger files
-/

theorem endsWith_iff {name ending : String} :
    name.endsWith ending = true ↔ ending.toList <:+ name.toList := by
  rw [← String.endsWith_toSlice, String.Slice.endsWith_string_iff, String.copy_toSlice]

theorem toList_fileName (id : LedgerId) :
    (fileName id).toList = Text.digits 10 nameDigits id ++ nameEnding.toList := by
  unfold fileName Text.decimal
  rw [String.toList_append, String.toList_ofList]

theorem idOfName?_fileName {id : LedgerId} (h : id ≤ maxWord) : idOfName? (fileName id) = some id := by
  have hends : (fileName id).endsWith nameEnding = true := by
    rw [endsWith_iff, toList_fileName]
    exact List.suffix_append _ _
  have hstem : (fileName id).toList.take ((fileName id).length - nameEnding.length) =
      Text.digits 10 nameDigits id := by
    have hlength : (fileName id).length - nameEnding.length = nameDigits := by
      rw [← String.length_toList, toList_fileName, List.length_append, Text.length_digits,
        String.length_toList, Nat.add_sub_cancel]
    rw [hlength, toList_fileName]
    exact List.take_left' (Text.length_digits 10 nameDigits id)
  have hlt : id < 10 ^ nameDigits := Nat.lt_of_le_of_lt h (by decide)
  unfold idOfName?
  rw [if_pos hends]
  show ((Text.decimalValue? ((fileName id).toList.take _)).filter _) = _
  rw [hstem, Text.decimalValue?_digits (by decide) hlt]
  simp [h]

theorem fileName_inj {id other : LedgerId} (h : id ≤ maxWord) (hother : other ≤ maxWord) :
    fileName id = fileName other ↔ id = other := by
  constructor
  · intro heq
    have hid := idOfName?_fileName h
    rw [heq, idOfName?_fileName hother] at hid
    exact (Option.some.inj hid).symm
  · intro heq
    rw [heq]

theorem idOfName?_lockName : idOfName? lockName = none := by
  have hends : ¬lockName.endsWith nameEnding = true := by
    rw [endsWith_iff]
    decide
  unfold idOfName?
  rw [if_neg hends]

theorem fileName_ne_lockName {id : LedgerId} (h : id ≤ maxWord) : fileName id ≠ lockName := by
  intro heq
  have hid := idOfName?_fileName h
  rw [heq, idOfName?_lockName] at hid
  cases hid

end Ledgers
end TieredStore
