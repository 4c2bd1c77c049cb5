import TieredStore.Report.Inspection
import TieredStore.Report.Listing
import TieredStore.Report.Verification

/-!
# Report commands

A command names the directory of a store, whose ledgers are in the folder `log`
below it, and says which report is wanted.  The ledgers are held while the
report is made, so that nobody changes them.
-/

namespace TieredStore

inductive Format
  | text
  | json
  deriving Repr, DecidableEq

inductive Command
  | inspect (directory : String) (segments : Bool) (format : Format)
  | verify (directory : String) (replay : Bool)
  | list (directory : String) (start : SequenceNumber) (limit : Option Nat) (format : Format)
  deriving Repr, DecidableEq

namespace Command

structure Outcome where
  printed : List String
  result : Except ReportError Unit

def directory : Command → String
  | inspect directory _ _ => directory
  | verify directory _ => directory
  | list directory _ _ _ => directory

def ledgerDirectory (command : Command) : String := Path.join command.directory "log"

/-- Prints the whole report, or nothing and the reason. -/
def printing : Except ReportError (List String) → Outcome
  | .ok lines => { printed := lines, result := .ok () }
  | .error e => { printed := [], result := .error e }

def inspectLedgers (directory : String) (segments : Bool) (ledgers : Ledgers) :
    Except ReportError Inspection := do
  let inspection ← Inspection.run ledgers
  let inspection := { inspection with path := directory }
  if segments then
    let replay ← Replay.run ledgers
    return { inspection with segments := some replay.table.list }
  else return inspection

/-- Verifies the ledgers; the head of the report is printed in any case. -/
def verifyLedgers (directory : String) (replay : Bool) (ledgers : Except ReportError Ledgers) :
    Outcome :=
  let head := Verification.headLines directory
  match ledgers.bind fun ledgers => Verification.run ledgers replay with
  | .error e => { printed := head, result := .error e }
  | .ok found =>
      { printed := head ++ found.lines replay,
        result := if found.passed then .ok () else .error .unverified }

def report (command : Command) (ledgers : Except ReportError Ledgers) : Outcome :=
  match command with
  | inspect directory segments format =>
      printing do
        let inspection ← inspectLedgers directory segments (← ledgers)
        match format with
        | .text => return inspection.lines
        | .json => return [inspection.json.print]
  | verify directory replay => verifyLedgers directory replay ledgers
  | list _ start limit format =>
      printing do
        let records ← Listing.run (← ledgers) start limit
        match format with
        | .text => return Listing.lines records
        | .json => return [(Listing.json records).print]

/-- Makes the report on the ledgers that are there, held for as long as that takes. -/
def run (command : Command) (found : Option Ledgers) : Outcome × Option Ledgers :=
  match found with
  | none => (command.report (.error (.noLog command.ledgerDirectory)), none)
  | some ledgers =>
      match Ledgers.acquire.run ledgers with
      | .error cause ledgers => (command.report (.error (.medium cause)), some ledgers)
      | .ok () ledgers => (command.report (.ok ledgers), some ledgers.release)

end Command
end TieredStore
