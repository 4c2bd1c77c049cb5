import TieredStore.Report.CommandLine

/-!
# The program

Reads the ledgers that a command line names and prints the report on them.  A
command line that breaks the rules ends with status two, and a command that
fails with status one.
-/

namespace TieredStore
namespace Program

def readFolder (path : String) : IO (Option Ledgers) := do
  let place := (← IO.currentDir) / path
  if !(← place.isDir) then return none
  let mut files := #[]
  for entry in ← place.readDir do
    if !(← entry.path.isDir) then
      files := files.push (entry.fileName, (← IO.FS.readBinFile entry.path).toList)
  return some (Ledgers.ofFiles path files.toList)

def lockFolder (path : String) : IO (IO.FS.Handle × Bool) := do
  let handle ← IO.FS.Handle.mk ((← IO.currentDir) / path / Ledgers.lockName) .append
  return (handle, ← handle.tryLock)

/-- Carries out a command on the folder that it names, which is locked as long as that takes. -/
def execute (command : Command) : IO CommandLine.Ending := do
  let path := command.ledgerDirectory
  match ← readFolder path with
  | none => return .ofOutcome (command.run none).1
  | some _ =>
      let (handle, free) ← lockFolder path
      if free then
        let outcome := (command.run (← readFolder path)).1
        handle.unlock
        return .ofOutcome outcome
      else return .ofOutcome (command.report (.error (.medium (.locked path))))

def run (arguments : List String) : IO UInt32 := do
  let ending ← match CommandLine.parse arguments with
    | .error stop => pure (.ofStop stop)
    | .ok command => execute command
  ending.printed.forM IO.println
  ending.complaint.forM IO.eprintln
  return ending.status.toUInt32

end Program
end TieredStore

def main (arguments : List String) : IO UInt32 := TieredStore.Program.run arguments
