import TieredStore.Ledger.Directory
import TieredStore.Ledger.Scan

/-!
# Reports on the ledgers

A report looks at the ledgers of a log without opening the log.  It takes the
ledgers in the order of their ids and ends at the first thing that it cannot
make sense of.
-/

namespace TieredStore

inductive ReportError
  | noLog (directory : String)
  | medium (cause : MediumError)
  | core (cause : Error)
  /-- A record does not fit the segments that the records before it give. -/
  | inapplicable (seq : SequenceNumber) (cause : Refusal)
  | unverified
  deriving Repr, DecidableEq

def ReportError.message : ReportError → String
  | noLog directory => s!"No operation log found at {directory}"
  | medium cause => cause.message
  | core cause => cause.message
  | inapplicable seq cause => s!"{SequenceNumber.text seq} cannot be applied: {cause.message}"
  | unverified => "Verification failed"

structure LoggedRecord where
  ledger : LedgerId
  offset : Nat
  header : Record.Header
  operation : Operation
  deriving DecidableEq

namespace Ledgers

def reach (ledgers : Ledgers) (id : LedgerId) : Except ReportError Handle :=
  (ledgers.attach id).mapError .medium

def walk (ledgers : Ledgers) (handle : Handle) : List (Except Error FrameItem) :=
  ((Walk.whole handle ledgers.objects).items ledgers.objects).1

/-- What a walk comes upon, as a record.  An incomplete frame counts for nothing. -/
def logged? (id : LedgerId) : Except Error FrameItem → Option (Except ReportError LoggedRecord)
  | .error cause => some (.error (.core cause))
  | .ok (.torn _) => none
  | .ok (.frame offset record) =>
      match Record.decode record with
      | .error cause => some (.error (.core (.decode cause)))
      | .ok (header, operation) => some (.ok { ledger := id, offset, header, operation })

/-- The records of a ledger, with an error where something else is found. -/
def loggedIn (ledgers : Ledgers) (id : LedgerId) : List (Except ReportError LoggedRecord) :=
  match ledgers.reach id with
  | .error e => [.error e]
  | .ok handle => (ledgers.walk handle).filterMap (logged? id)

def logged (ledgers : Ledgers) : List (Except ReportError LoggedRecord) :=
  ledgers.list.flatMap ledgers.loggedIn

end Ledgers
end TieredStore
