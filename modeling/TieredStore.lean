import TieredStore.Bytes
import TieredStore.Cache
import TieredStore.Checksum
import TieredStore.Config
import TieredStore.Container.Basic
import TieredStore.Container.Flush
import TieredStore.Container.Lookup
import TieredStore.Container.Recovery
import TieredStore.Error
import TieredStore.Frame
import TieredStore.Identifier
import TieredStore.Ledger.Directory
import TieredStore.Ledger.Scan
import TieredStore.Ledger.Tampering
import TieredStore.Ledger.Walk
import TieredStore.Log.Append
import TieredStore.Log.Basic
import TieredStore.Log.Load
import TieredStore.Log.Reader
import TieredStore.Log.Session
import TieredStore.Main
import TieredStore.Medium.Folder
import TieredStore.Medium.Handle
import TieredStore.Medium.NameMap
import TieredStore.Medium.Path
import TieredStore.Operation
import TieredStore.Proofs.Cache.Blocks
import TieredStore.Proofs.Cache.Evicting
import TieredStore.Proofs.Cache.Marks
import TieredStore.Proofs.Cache.PartialMap
import TieredStore.Proofs.Cache.Pieces
import TieredStore.Proofs.Cache.Sizes
import TieredStore.Proofs.Checksum
import TieredStore.Proofs.Container.Bookkeeping
import TieredStore.Proofs.Container.Changing
import TieredStore.Proofs.Container.Converging
import TieredStore.Proofs.Container.Copying
import TieredStore.Proofs.Container.Finding
import TieredStore.Proofs.Container.Finishing
import TieredStore.Proofs.Container.Flushing
import TieredStore.Proofs.Container.Joining
import TieredStore.Proofs.Container.Maintaining
import TieredStore.Proofs.Container.Places
import TieredStore.Proofs.Container.Recovering
import TieredStore.Proofs.Container.Refusing
import TieredStore.Proofs.Container.Replaying
import TieredStore.Proofs.Container.Requesting
import TieredStore.Proofs.Container.Sound
import TieredStore.Proofs.Container.Starting
import TieredStore.Proofs.Container.Tearing
import TieredStore.Proofs.Container.Tidying
import TieredStore.Proofs.Container.Upkeep
import TieredStore.Proofs.Contents
import TieredStore.Proofs.Ledger.Cataloguing
import TieredStore.Proofs.Ledger.Damaging
import TieredStore.Proofs.Ledger.Framing
import TieredStore.Proofs.Ledger.Mirroring
import TieredStore.Proofs.Ledger.Parsing
import TieredStore.Proofs.Ledger.Shelf
import TieredStore.Proofs.Ledger.Splitting
import TieredStore.Proofs.Ledger.Tallying
import TieredStore.Proofs.Ledger.Watching
import TieredStore.Proofs.Log.Appending
import TieredStore.Proofs.Log.Damaging
import TieredStore.Proofs.Log.Heading
import TieredStore.Proofs.Log.History
import TieredStore.Proofs.Log.Interchanging
import TieredStore.Proofs.Log.Invariant
import TieredStore.Proofs.Log.Mirroring
import TieredStore.Proofs.Log.Missing
import TieredStore.Proofs.Log.Opening
import TieredStore.Proofs.Log.Reading
import TieredStore.Proofs.Log.Refusing
import TieredStore.Proofs.Log.Run
import TieredStore.Proofs.Log.Snapshot
import TieredStore.Proofs.Log.Tampering
import TieredStore.Proofs.Log.Truncating
import TieredStore.Proofs.Map.Entries
import TieredStore.Proofs.Map.Totals
import TieredStore.Proofs.Missing
import TieredStore.Proofs.Notifying
import TieredStore.Proofs.Outcome
import TieredStore.Proofs.Path
import TieredStore.Proofs.Record.Canonical
import TieredStore.Proofs.Record.Checking
import TieredStore.Proofs.Record.Encoding
import TieredStore.Proofs.Record.Listing
import TieredStore.Proofs.Record.Prefixes
import TieredStore.Proofs.Record.RoundTrip
import TieredStore.Proofs.Record.Versions
import TieredStore.Proofs.Report.Agreeing
import TieredStore.Proofs.Report.Collecting
import TieredStore.Proofs.Report.Limiting
import TieredStore.Proofs.Report.Passing
import TieredStore.Proofs.Report.Verifying
import TieredStore.Proofs.Slices
import TieredStore.Proofs.Store.Answering
import TieredStore.Proofs.Store.Atomic
import TieredStore.Proofs.Store.Attending
import TieredStore.Proofs.Store.Bounded
import TieredStore.Proofs.Store.Converging
import TieredStore.Proofs.Store.Cursor
import TieredStore.Proofs.Store.Developing
import TieredStore.Proofs.Store.Executing
import TieredStore.Proofs.Store.Fetching
import TieredStore.Proofs.Store.Flushing
import TieredStore.Proofs.Store.Gapless
import TieredStore.Proofs.Store.Handing
import TieredStore.Proofs.Store.History
import TieredStore.Proofs.Store.Holding
import TieredStore.Proofs.Store.Invariant
import TieredStore.Proofs.Store.Logging
import TieredStore.Proofs.Store.Missing
import TieredStore.Proofs.Store.Objects
import TieredStore.Proofs.Store.Polling
import TieredStore.Proofs.Store.Readers
import TieredStore.Proofs.Store.Reading
import TieredStore.Proofs.Store.Reopening
import TieredStore.Proofs.Store.Restoring
import TieredStore.Proofs.Store.Retrying
import TieredStore.Proofs.Store.Run
import TieredStore.Proofs.Store.Tearing
import TieredStore.Proofs.Store.Tending
import TieredStore.Proofs.Store.Truncating
import TieredStore.Proofs.Store.Verifying
import TieredStore.Proofs.Store.Waiting
import TieredStore.Proofs.Store.Waking
import TieredStore.Proofs.Store.Withholding
import TieredStore.Proofs.Table.Accounted
import TieredStore.Proofs.Table.Advances
import TieredStore.Proofs.Table.Applying
import TieredStore.Proofs.Table.Bookkeeping
import TieredStore.Proofs.Table.Coherent
import TieredStore.Proofs.Table.Consistent
import TieredStore.Proofs.Table.Developing
import TieredStore.Proofs.Table.Finishing
import TieredStore.Proofs.Table.Fitting
import TieredStore.Proofs.Table.Following
import TieredStore.Proofs.Table.Indexed
import TieredStore.Proofs.Table.Reached
import TieredStore.Proofs.Table.Replaying
import TieredStore.Proofs.Table.Storable
import TieredStore.Proofs.Table.Unflushed
import TieredStore.Proofs.Table.Unlogged
import TieredStore.Proofs.Table.WellFormed
import TieredStore.Proofs.Tier.Agreeing
import TieredStore.Proofs.Tier.Countdown
import TieredStore.Proofs.Tier.Failing
import TieredStore.Proofs.Tier.Lawful
import TieredStore.Proofs.Tier.Naming
import TieredStore.Proofs.Tier.Objects
import TieredStore.Proofs.Waiters
import TieredStore.Proofs.Waking
import TieredStore.Read.Drain
import TieredStore.Read.Entry
import TieredStore.Read.Result
import TieredStore.Record.Decode
import TieredStore.Record.Encode
import TieredStore.Record.Kind
import TieredStore.Report.Basic
import TieredStore.Report.Command
import TieredStore.Report.CommandLine
import TieredStore.Report.Inspection
import TieredStore.Report.Listing
import TieredStore.Report.Verification
import TieredStore.Segment
import TieredStore.SortedMap
import TieredStore.Store.Basic
import TieredStore.Store.Fetch
import TieredStore.Store.Mutation
import TieredStore.Store.Session
import TieredStore.Table.Apply
import TieredStore.Table.Basic
import TieredStore.Text.Column
import TieredStore.Text.Digits
import TieredStore.Text.Json
import TieredStore.Text.Utf8
import TieredStore.Tier.Basic
import TieredStore.Tier.Device
import TieredStore.Tier.File
import TieredStore.Tier.Flaky
import TieredStore.Tier.Memory
import TieredStore.Total
import TieredStore.Waiters
