import TieredStore.Report.Basic
import TieredStore.Text.Column
import TieredStore.Text.Json

/-!
# Listing records

A listing shows the records from a sequence number on, at most a given number of
them.  It is complete when one record more than that has been found.
-/

namespace TieredStore

namespace Listing

/--
The records from `start` on, at most `limit` of them.  An error that comes before
one record more than the limit prevents the listing.
-/
def select (start : SequenceNumber) :
    (limit : Option Nat) → List (Except ReportError LoggedRecord) →
      Except ReportError (List LoggedRecord)
  | _, [] => .ok []
  | _, .error e :: _ => .error e
  | limit, .ok record :: rest =>
      if record.header.seq < start then select start limit rest
      else
        match limit with
        | some 0 => .ok []
        | limit => do
            return record :: (← select start (limit.map (· - 1)) rest)

def run (ledgers : Ledgers) (start : SequenceNumber) (limit : Option Nat) :
    Except ReportError (List LoggedRecord) :=
  select start limit ledgers.logged

end Listing

def Operation.details : Operation → String
  | .append _ offset client event _ => s!"offset={offset} client={client.text} event={event}"
  | .seal _ length => s!"length={length}"
  | .merge _ batch length offset => s!"batch={batch} parent_offset={offset} length={length}"
  | .checkpoint table => s!"segments={table.size} next_id={table.nextId}"
  | .create _ name => s!"name={name}"
  | .createBatch _ name parent => s!"name={name} parent={parent}"
  | .truncate _ offset => s!"start_offset={offset}"

def Operation.payloadSize? : Operation → Option Nat
  | .append _ _ _ _ data => some data.length
  | _ => none

namespace LoggedRecord

def json (record : LoggedRecord) : Text.Json :=
  .object <|
    [("ledger", .number record.ledger), ("offset", .number record.offset),
      ("sequence", .number record.header.seq), ("record_type", .string record.header.kind.name),
      ("version", .number record.header.version.toNat)] ++
    Text.Json.optional "segment" record.operation.target? ++
    [("details", .string record.operation.details)] ++
    Text.Json.optional "payload_size" record.operation.payloadSize?

def line (record : LoggedRecord) : String :=
  let seq := Text.atRight 8 (toString record.header.seq)
  let offset := Text.atLeft 8 (toString record.offset)
  let kind := Text.atLeft 18 record.header.kind.name
  let segment := (record.operation.target?.map fun id => s!" segment={id}").getD ""
  let payload := (record.operation.payloadSize?.map fun n => s!" payload={n} bytes").getD ""
  s!"[{seq}] ledger={record.ledger} @{offset} {kind} v{record.header.version.toNat}" ++
    segment ++ " " ++ record.operation.details ++ payload

end LoggedRecord

namespace Listing

def json (records : List LoggedRecord) : Text.Json := .array (records.map (·.json))

def lines (records : List LoggedRecord) : List String :=
  [s!"Log Records ({records.length} total)", "================", ""] ++ records.map (·.line)

end Listing
end TieredStore
