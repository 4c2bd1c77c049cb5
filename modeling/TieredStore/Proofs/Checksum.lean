import TieredStore.Checksum

/-!
# A changed byte changes the checksum

Taking a byte into the register loses nothing: the byte can be told from the
register before and the register after it, and the register before from the byte
and the register after it.  So registers that differ once differ to the end, and
byte strings that differ in one byte have different checksums.
-/

namespace TieredStore
namespace Checksum

theorem low_bit_iff (r : UInt32) : r &&& 1 = 1 ↔ 2147483648 ≤ (shift r).toNat := by
  have hhalf : (r >>> 1).toNat < 2 ^ 31 := by
    have hlt := r.toNat_lt
    rw [UInt32.toNat_shiftRight]
    simp only [UInt32.reduceToNat, Nat.reduceMod, Nat.shiftRight_succ, Nat.shiftRight_zero]
    omega
  unfold shift
  by_cases hlow : r &&& 1 = 1
  · rw [if_pos hlow]
    refine iff_of_true hlow ?_
    -- the polynomial has the highest bit and a half of a word does not
    have htop : ((r >>> 1) ^^^ 0xEDB88320).toNat.testBit 31 = true := by
      rw [UInt32.toNat_xor, Nat.testBit_xor, Nat.testBit_lt_two_pow hhalf]
      rfl
    exact Nat.ge_two_pow_of_testBit htop
  · rw [if_neg hlow]
    exact iff_of_false hlow (Nat.not_le.mpr hhalf)

theorem low_bit_eq (r : UInt32) : r &&& 1 = 1 ↔ r.toNat % 2 = 1 := by
  rw [← UInt32.toNat_inj, UInt32.toNat_and]
  show r.toNat &&& 1 = 1 ↔ _
  rw [Nat.and_one_is_mod]

theorem eq_of_shift_eq {a b : UInt32} (h : shift a = shift b) : a = b := by
  have hlow : a &&& 1 = 1 ↔ b &&& 1 = 1 := by rw [low_bit_iff, low_bit_iff, h]
  have hhalf : a >>> 1 = b >>> 1 := by
    unfold shift at h
    by_cases hset : a &&& 1 = 1
    · rw [if_pos hset, if_pos (hlow.mp hset)] at h
      exact UInt32.xor_left_inj _ |>.mp h
    · rw [if_neg hset, if_neg (hset ∘ hlow.mpr)] at h
      exact h
  have hdiv : a.toNat / 2 = b.toNat / 2 := by
    have hnat := congrArg UInt32.toNat hhalf
    rw [UInt32.toNat_shiftRight, UInt32.toNat_shiftRight] at hnat
    exact hnat
  rw [low_bit_eq, low_bit_eq] at hlow
  apply UInt32.toNat_inj.mp
  omega

theorem absorb_eq_iff {a b : UInt32} {x y : UInt8} :
    absorb a x = absorb b y ↔ a ^^^ x.toUInt32 = b ^^^ y.toUInt32 := by
  constructor
  · intro h
    unfold absorb at h
    iterate 8 replace h := eq_of_shift_eq h
    exact h
  · intro h
    unfold absorb
    rw [h]

theorem eq_of_foldl_absorb_eq {a b : UInt32} {bytes : Bytes}
    (h : bytes.foldl absorb a = bytes.foldl absorb b) : a = b := by
  induction bytes generalizing a b with
  | nil => exact h
  | cons x rest ih => exact UInt32.xor_left_inj _ |>.mp (absorb_eq_iff.mp (ih h))

/-- Byte strings that differ in one byte have different checksums. -/
theorem crc32_changed {before after : Bytes} {x y : UInt8} (h : x ≠ y) :
    crc32 (before ++ x :: after) ≠ crc32 (before ++ y :: after) := by
  intro heq
  unfold crc32 at heq
  have hfold := UInt32.xor_left_inj _ |>.mp heq
  rw [List.foldl_append, List.foldl_append, List.foldl_cons, List.foldl_cons] at hfold
  have hbyte := UInt32.xor_right_inj _ |>.mp (absorb_eq_iff.mp (eq_of_foldl_absorb_eq hfold))
  have hnat := congrArg UInt32.toNat hbyte
  rw [UInt8.toNat_toUInt32, UInt8.toNat_toUInt32] at hnat
  exact h (UInt8.toNat_inj.mp hnat)

end Checksum
end TieredStore
