import TieredStore.Medium.NameMap
import TieredStore.Medium.Path
import TieredStore.Tier.Basic

/-!
# The tier of files

Each object is one file of a directory.  A segment name becomes a file name by
writing the percent sign and both slashes as a percent sign and two digits, so
that different names are different files and none leads out of the directory.
The file system takes no name longer than 255 bytes.

Joining two objects takes four steps, each of which sees what the one before it
has done: the source is read, the target's length is looked up, the bytes are
added, and the source is removed.
-/

namespace TieredStore

structure FileTier where
  files : NameMap Bytes := {}
  deriving Repr, DecidableEq, Inhabited

namespace FileTier

def escapeChar (c : Char) : List Char :=
  if c = '%' then ['%', '2', '5']
  else if c = '/' then ['%', '2', 'F']
  else if c = '\\' then ['%', '5', 'C']
  else [c]

def escape (name : List Char) : List Char := name.flatMap escapeChar

def fileName (name : String) : String := String.ofList (escape name.toList) ++ ".seg"

/-- The file of an object, refused if no file can have the name. -/
def locate (name : String) : TierM FileTier String :=
  let file := fileName name
  if name.toList.contains '\x00' then throw (.rejected .zeroInName)
  else if Path.maxName < file.utf8ByteSize then throw (.system "File name too long (os error 36)")
  else return file

/-!
## Calls

What a call does is the same for every way to find the file of an object.
-/

section

variable (find : String → TierM FileTier String)

def length (name : String) : TierM FileTier (Option Nat) := do
  let file ← find name
  return ((← get).files.get? file).map (·.length)

def read (name : String) (offset length : Nat) : TierM FileTier Bytes := do
  let file ← find name
  match (← get).files.get? file with
  | none => throw (.notFound name)
  | some bytes =>
      if bytes.length < offset + length then throw (.readPastEnd offset length bytes.length)
      else return bytes.slice offset length

def write (name : String) (offset : Nat) (data : Bytes) : TierM FileTier Nat := do
  let current := (← length find name).getD 0
  if current ≠ offset then throw (.invalidOffset name current offset)
  else
    let file ← find name
    modify fun tier =>
      { tier with files := tier.files.set file ((tier.files.get? file).getD [] ++ data) }
    return current + data.length

def delete (name : String) : TierM FileTier Unit := do
  let file ← find name
  if (← get).files.contains file then
    modify fun tier => { tier with files := tier.files.erase file }
  else throw (.notFound name)

def concat (target source : String) : TierM FileTier Nat := do
  let file ← find source
  match (← get).files.get? file with
  | none => throw (.notFound source)
  | some bytes =>
      let current := (← length find target).getD 0
      let committed ← write find target current bytes
      modify fun tier => { tier with files := tier.files.erase file }
      return committed

@[reducible] def calls : Tier FileTier :=
  ⟨read find, write find, concat find, length find, delete find⟩

end

instance : Tier FileTier := calls locate

end FileTier
end TieredStore
