import TieredStore.Bytes

/-!
# UTF-8

Names are text, written as UTF-8.  Reading accepts exactly what writing
produces; a refusal says where the first ill-formed sequence starts and how
many of its bytes could still have begun a well-formed one.
-/

namespace TieredStore
namespace Text
namespace Utf8

structure Fault where
  /-- Length of the longest well-formed start. -/
  valid : Nat
  /-- Length of the ill-formed piece; none if the bytes end inside a sequence. -/
  length : Option Nat
  deriving Repr, DecidableEq

def Fault.message (fault : Fault) : String :=
  match fault.length with
  | some length => s!"invalid utf-8 sequence of {length} bytes from index {fault.valid}"
  | none => s!"incomplete utf-8 byte sequence from index {fault.valid}"

/--
Checks the bytes after the first one of a sequence against the ranges they must
lie in.  Returns how many there are, or the length of the piece up to the first
byte that does not fit.
-/
def follow : (seen : Nat) → List (UInt8 × UInt8) → Bytes → Except (Option Nat) Nat
  | seen, [], _ => .ok seen
  | _, _ :: _, [] => .error none
  | seen, (low, high) :: ranges, b :: rest =>
      if low ≤ b ∧ b ≤ high then follow (seen + 1) ranges rest else .error (some (seen + 1))

def continuation : UInt8 × UInt8 := (0x80, 0xBF)

/--
The ranges of the bytes after `first`; none if no sequence starts with `first`.
The second byte is bounded more tightly where overlong forms, surrogates or
numbers past the last code point would begin.
-/
def ranges (first : UInt8) : Option (List (UInt8 × UInt8)) :=
  if first < 0x80 then some []
  else if first < 0xC2 then none
  else if first < 0xE0 then some [continuation]
  else if first = 0xE0 then some [(0xA0, 0xBF), continuation]
  else if first = 0xED then some [(0x80, 0x9F), continuation]
  else if first < 0xF0 then some [continuation, continuation]
  else if first = 0xF0 then some [(0x90, 0xBF), continuation, continuation]
  else if first < 0xF4 then some [continuation, continuation, continuation]
  else if first = 0xF4 then some [(0x80, 0x8F), continuation, continuation]
  else none

def locate (index : Nat) : Bytes → Option Fault
  | [] => none
  | first :: rest =>
      match ranges first with
      | none => some ⟨index, some 1⟩
      | some expected =>
          match follow 0 expected rest with
          | .error length => some ⟨index, length⟩
          | .ok count => locate (index + 1 + count) (rest.drop count)
  termination_by bytes => bytes.length
  decreasing_by
    simp only [List.length_drop, List.length_cons]
    omega

def encode (text : String) : Bytes :=
  text.toByteArray.data.toList

def decode (bytes : Bytes) : Except Fault String :=
  match String.fromUTF8? ⟨bytes.toArray⟩ with
  | some text => .ok text
  | none => .error ((locate 0 bytes).getD ⟨bytes.length, none⟩)

@[simp] theorem length_encode (text : String) : (encode text).length = text.utf8ByteSize := rfl

@[simp] theorem decode_encode (text : String) : decode (encode text) = .ok text := by
  have h : text.toByteArray.IsValidUTF8 := text.isValidUTF8
  simp [decode, encode, String.fromUTF8?, h, String.fromUTF8]

theorem encode_of_decode {bytes : Bytes} {text : String} (h : decode bytes = .ok text) :
    encode text = bytes := by
  simp only [decode, String.fromUTF8?] at h
  split at h
  · rename_i found eq
    split at eq
    · cases eq
      cases h
      rfl
    · cases eq
  · cases h

end Utf8
end Text
end TieredStore
