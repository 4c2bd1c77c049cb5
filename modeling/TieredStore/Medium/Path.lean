import TieredStore.Error

/-!
# Paths

A path is followed one step at a time, where a step is what stands between two
slashes.  A name leads to what the folder holds under it, two dots lead to the
folder above, and one dot or nothing at all stays, which only a folder allows.
A path that does not start with a slash starts from the root all the same.
-/

namespace TieredStore

/-- A place in the file system: the names that lead to it from the root, last name first. -/
abbrev Place := List String

inductive Tenant
  | folder
  | file
  deriving Repr, DecidableEq

inductive Destination
  | folder (place : Place)
  | file (place : Place)
  | vacant (place : Place)
  | nowhere
  | barred (cause : MediumError)
  deriving Repr, DecidableEq

namespace Path

def maxName : Nat := 255

def maxLength : Nat := 4095

/-- A path that starts from where another one leads; one with a slash in front stands for itself. -/
def join (base path : String) : String :=
  if path.startsWith "/" then path
  else if base = "" ∨ base.endsWith "/" then base ++ path
  else base ++ "/" ++ path

/-! ## Steps -/

def parts : List Char → List (List Char)
  | [] => [[]]
  | '/' :: rest => [] :: parts rest
  | c :: rest =>
      match parts rest with
      | [] => [[c]]
      | part :: others => (c :: part) :: others

def steps (path : String) : List String := (parts path.toList).map String.ofList

/-- The place that a step leads to if every place on the way is a folder. -/
def climb (place : Place) (step : String) : Place :=
  if step = "" ∨ step = "." then place
  else if step = ".." then place.tail
  else step :: place

def place (path : String) : Place := (steps path).foldl climb []

def arrive (tenant : Place → Option Tenant) (place : Place) : Destination :=
  match tenant place with
  | some .folder => .folder place
  | some .file => .file place
  | none => .vacant place

def advance (tenant : Place → Option Tenant) : Destination → String → Destination
  | .folder place, step =>
      if step = "" ∨ step = "." ∨ step = ".." then .folder (climb place step)
      else if maxName < step.utf8ByteSize then .barred (.system "File name too long")
      else arrive tenant (step :: place)
  | .file _, _ => .barred (.system "Not a directory")
  | .vacant _, _ => .nowhere
  | .nowhere, _ => .nowhere
  | .barred cause, _ => .barred cause

def follow (tenant : Place → Option Tenant) (path : String) : Destination :=
  if path.toList.contains '\x00' then .barred (.rejected .zeroInName)
  else if maxLength < path.utf8ByteSize then .barred (.system "File name too long")
  else (steps path).foldl (advance tenant) (.folder [])

end Path
end TieredStore
