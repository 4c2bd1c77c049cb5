import TieredStore.Text.Digits

/-!
# Identifiers and bounds

Segments, log records, ledgers and clients are named by numbers.  Segment ids
and sequence numbers are natural numbers that the wire format bounds; a client
id always has 128 bits.
-/

namespace TieredStore

def maxWord : Nat := 18446744073709551615

/-- The largest id, offset, length or sequence number that a record can hold: 63 bits. -/
def maxOffset : Nat := 9223372036854775807

/-- Names a segment within a container; ids are handed out upwards from one. -/
abbrev SegmentId := Nat

def SegmentId.text (id : SegmentId) : String := s!"seg:{id}"

/-- Position of a record in the log; zero stands for no position. -/
abbrev SequenceNumber := Nat

namespace SequenceNumber

def first : SequenceNumber := 1

def next (seq : SequenceNumber) : SequenceNumber := seq + 1

def prev (seq : SequenceNumber) : SequenceNumber := seq - 1

def text (seq : SequenceNumber) : String := s!"#{seq}"

end SequenceNumber

abbrev LedgerId := Nat

abbrev Word128 := Fin 340282366920938463463374607431768211456

/-- Numerals are read as numbers of 128 bits in the same way wherever they stand. -/
instance instNeZeroWord128 : @NeZero Nat Zero.ofOfNat0 340282366920938463463374607431768211456 :=
  Nat.instNeZeroSucc

abbrev ClientId := Word128

/-- The 32 hexadecimal digits of a client id in groups of 8, 4, 4, 4 and 12. -/
def ClientId.text (client : ClientId) : String :=
  let n := client.val
  let part := fun (shift width : Nat) => Text.hex width (n >>> shift)
  "-".intercalate [part 96 8, part 80 4, part 64 4, part 48 4, part 0 12]

end TieredStore
