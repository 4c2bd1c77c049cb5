import TieredStore.Bytes

/-!
# Slices of byte strings

What a slice of a slice, of a prefix and of two byte strings in a row is.
-/

namespace TieredStore
namespace Bytes

theorem length_slice (bytes : Bytes) (offset length : Nat) :
    (slice bytes offset length).length = min length (bytes.length - offset) := by
  rw [slice, List.length_take, List.length_drop]

theorem length_slice_of_le {bytes : Bytes} {offset length : Nat}
    (h : offset + length ≤ bytes.length) : (slice bytes offset length).length = length := by
  rw [length_slice]
  omega

theorem slice_slice {bytes : Bytes} {offset length from_ count : Nat}
    (h : from_ + count ≤ length) :
    slice (slice bytes offset length) from_ count = slice bytes (offset + from_) count := by
  unfold slice
  rw [List.drop_take, List.take_take, List.drop_drop, Nat.min_eq_left (by omega)]

theorem slice_append_left {first second : Bytes} {offset length : Nat}
    (h : offset + length ≤ first.length) :
    slice (first ++ second) offset length = slice first offset length := by
  unfold slice
  rw [List.drop_append_of_le_length (by omega),
    List.take_append_of_le_length (by rw [List.length_drop]; omega)]

theorem slice_append_right (first second : Bytes) :
    slice (first ++ second) first.length second.length = second := by
  unfold slice
  rw [List.drop_left, List.take_length]

theorem slice_of_prefix {first bytes : Bytes} {offset length : Nat} (hstarts : first <+: bytes)
    (h : offset + length ≤ first.length) :
    slice first offset length = slice bytes offset length := by
  rcases hstarts with ⟨rest, rfl⟩
  rw [slice_append_left h]

theorem getElem?_of_slice {bytes : Bytes} {offset : Nat} {byte : UInt8}
    (h : slice bytes offset 1 = [byte]) : bytes[offset]? = some byte := by
  have hhead : (slice bytes offset 1).head? = some byte := by
    rw [h]
    rfl
  unfold slice at hhead
  rw [List.head?_take, if_neg Nat.one_ne_zero, List.head?_drop] at hhead
  exact hhead

theorem take_append_slice (bytes : Bytes) (offset length : Nat) :
    bytes.take offset ++ slice bytes offset length = bytes.take (offset + length) := by
  unfold slice
  rw [List.take_add]

theorem slice_append_slice (bytes : Bytes) (offset first second : Nat) :
    slice bytes offset first ++ slice bytes (offset + first) second =
      slice bytes offset (first + second) := by
  unfold slice
  rw [List.take_add, List.drop_drop]

theorem le_of_length_slice {bytes : Bytes} {offset length : Nat}
    (h : (slice bytes offset length).length = length) (hpos : 0 < length) :
    offset + length ≤ bytes.length := by
  rw [length_slice] at h
  omega

theorem slice_of_length_le {bytes : Bytes} {offset length : Nat}
    (h : bytes.length ≤ offset + length) : slice bytes offset length = bytes.drop offset := by
  unfold slice
  rw [List.take_of_length_le]
  rw [List.length_drop]
  omega

end Bytes
end TieredStore
