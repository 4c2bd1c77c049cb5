import TieredStore.Checksum
import TieredStore.Error

/-!
# Frames

A ledger is a run of frames.  A frame is the magic `SSLG`, the length of its
record in four bytes, the record, and the CRC-32 of all bytes before it.
-/

namespace TieredStore
namespace Frame

def magic : Bytes := [0x53, 0x53, 0x4C, 0x47]

def headerSize : Nat := 8

def checksumSize : Nat := 4

def overhead : Nat := headerSize + checksumSize

def header (length : Nat) : Bytes := magic ++ Bytes.ofNat 4 length

/-- The frame around a record whose length fits four bytes. -/
def bytes (record : Bytes) : Bytes :=
  let body := header record.length ++ record
  body ++ Bytes.ofNat 4 (Checksum.crc32 body).toNat

def maxRecordLength : Nat := 4294967295

def encode (record : Bytes) : Except EncodeError Bytes :=
  if maxRecordLength < record.length then .error ⟨.record, .recordTooLong⟩ else .ok (bytes record)

/-- The length of the record behind a frame header that was found at `offset`. -/
def recordLength (header : Bytes) (offset : Nat) : Except Error Nat :=
  if header.take 4 = magic then .ok (Bytes.toNat (header.drop 4))
  else .error (.corrupt (.badMagic offset))

/-- The record of a complete frame whose checksum matches. -/
def verify (frame : Bytes) : Except Error Bytes :=
  if frame.length < overhead then .error (.corrupt .shortFrame)
  else
    let body := frame.take (frame.length - checksumSize)
    let expected := UInt32.ofNat (Bytes.toNat (frame.drop (frame.length - checksumSize)))
    let actual := Checksum.crc32 body
    if expected ≠ actual then .error (.checksumMismatch expected actual)
    else .ok (body.drop headerSize)

end Frame
end TieredStore
