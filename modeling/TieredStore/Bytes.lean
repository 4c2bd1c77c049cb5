/-!
# Bytes and big-endian words

A byte string is a list of bytes, so that every law of lists is a law of byte
strings.  A word of fixed width is written with its most significant byte
first; reading a written word gives the number back when the width can hold it.
-/

namespace TieredStore

abbrev Bytes := List UInt8

namespace Bytes

/-- The lowest `width` base-256 digits of `n`, most significant first. -/
def ofNat : (width n : Nat) → Bytes
  | 0, _ => []
  | width + 1, n => ofNat width (n / 256) ++ [UInt8.ofNat n]

def toNat (bytes : Bytes) : Nat :=
  bytes.foldl (fun n b => n * 256 + b.toNat) 0

/-- `length` bytes of `bytes` starting at `offset`, fewer if `bytes` ends sooner. -/
def slice (bytes : Bytes) (offset length : Nat) : Bytes :=
  (bytes.drop offset).take length

/-- `bytes` cut or filled up with zeros to exactly `size` bytes. -/
def resize (bytes : Bytes) (size : Nat) : Bytes :=
  bytes.take size ++ List.replicate (size - bytes.length) 0

/--
`data` written over `bytes` from `offset` on.  A gap between the end of `bytes`
and `offset` is filled with zeros.
-/
def overwrite (bytes : Bytes) (offset : Nat) (data : Bytes) : Bytes :=
  resize bytes offset ++ (data ++ bytes.drop (offset + data.length))

@[simp] theorem length_ofNat (width n : Nat) : (ofNat width n).length = width := by
  induction width generalizing n with
  | zero => rfl
  | succ width ih => simp [ofNat, ih]

@[simp] theorem toNat_nil : toNat [] = 0 := rfl

@[simp] theorem toNat_append_singleton (bytes : Bytes) (b : UInt8) :
    toNat (bytes ++ [b]) = toNat bytes * 256 + b.toNat := by
  simp [toNat]

theorem toNat_ofNat (width n : Nat) : toNat (ofNat width n) = n % Nat.pow 256 width := by
  induction width generalizing n with
  | zero => simp [ofNat, Nat.mod_one]
  | succ width ih =>
      simp only [Nat.pow_eq] at ih ⊢
      rw [ofNat, toNat_append_singleton, ih, Nat.pow_succ', Nat.mod_mul]
      simp [Nat.mul_comm, Nat.add_comm]

@[simp] theorem length_resize (bytes : Bytes) (size : Nat) :
    (resize bytes size).length = size := by
  simp [resize]
  omega

end Bytes
end TieredStore
