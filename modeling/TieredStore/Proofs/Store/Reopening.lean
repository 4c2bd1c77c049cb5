import TieredStore.Proofs.Store.Reading
import TieredStore.Store.Session

/-!
# Closing and opening a store

A store that is closed leaves its ledgers and its objects behind, and opening it
again finds the same log and restores the segments.  Opening fails when a flush
of the ledgers fails or when the records from the newest checkpoint on take a name
twice, and then what was left behind is still there.
-/

namespace TieredStore

open Chapter (history recent)

def Host.Kept (broken : Prop) (content : Contents) (host : Host FlakyTier) : Prop :=
  ∃ replayed live, host.ledgers.Leads content replayed ∧
    Container.Left content replayed live host.tier ∧ live.SettledIn broken host.tier ∧
    (JoinsBreak host.tier → broken)

/-- What is left of a store that described these contents with this table. -/
def Host.Leaves (broken : Prop) (content : Contents) (live : Table) (host : Host FlakyTier) :
    Prop :=
  ∃ replayed, host.ledgers.Leads content replayed ∧
    Container.Left content replayed live host.tier ∧ live.SettledIn broken host.tier ∧
    (JoinsBreak host.tier → broken)

theorem Host.kept_iff {broken : Prop} {content : Contents} {host : Host FlakyTier} :
    host.Kept broken content ↔ ∃ live, host.Leaves broken content live := exists_comm

def Session.Kept (broken : Prop) (content : Contents) : Session FlakyTier → Prop
  | .closed host => host.Kept broken content
  | .opened store => store.Kept broken content

namespace Store

/--
The store is open on a log that holds these chapters, and has restored what was left
of a container whose objects these are.
-/
structure Restores {τ : Type} [Tier τ] [LawfulTier τ] (content : Contents) (replayed live : Table)
    (tier : FlakyTier) (first : SequenceNumber) (chapters : List Chapter) (store : Store τ) :
    Prop where
  holds : store.log.Holds first chapters []
  apart : Operation.NamesApart [] ((recent chapters).map (·.2))
  restored : Container.Restored content replayed live tier store.container.held
  fetches_eq : store.fetches = {}
  recovery_eq : store.recovery =
    Container.statsOf (store.log.latestCheckpoint?.getD .first) (recent chapters) replayed tier

variable {broken : Prop} {content : Contents} {replayed live : Table}
  {first : SequenceNumber} {chapters : List Chapter} {tail : Bytes}

/-! ## Opening -/

/--
Over a log that is open, the live table is restored unless a name is taken twice or a
call of the tier stops it.  If one does, what is left can be restored again.
-/
theorem recover_ends {τ : Type} [Tier τ] [LawfulTier τ] [RecoverableTier τ] {log : Log}
    {host : Host τ} (hholds : log.Holds first chapters [])
    (hlogged : Operation.Logged content replayed first ((history chapters).map (·.2)))
    (hleft : Container.Left content replayed live (TierView.held host.tier)) (config : Config) :
    match recover config log host with
    | .ok store => store.Restores content replayed live (TierView.held host.tier) first chapters
    | .error (_, after) => after.ledgers.Keeps first chapters [] ∧
        ((¬ Operation.NamesApart [] ((recent chapters).map (·.2)) ∧ after.tier = host.tier) ∨
          (RecoverableTier.Stops τ ∧ Container.Underway content (TierView.held host.tier) live
            (TierView.held after.tier))) := by
  have hrecover := Container.recover_ends hleft hholds.records_recent
    (hholds.replayable hlogged) config.cacheMaxSize
  unfold recover
  simp only
  cases hrun : (Container.recover log).run
      { cache := { maxSize := config.cacheMaxSize }, tier := host.tier } with
  | ok stats container =>
      rcases hrecover.ok hrun with ⟨hnames, hrestored, hstats⟩
      exact ⟨hholds, hnames, hrestored, rfl, hstats⟩
  | error e container =>
      refine ⟨?_, (hrecover.error hrun).imp id fun hstopped => hstopped.2⟩
      show log.medium.release.Keeps first chapters []
      rw [hholds.keeps.shows.release_eq]
      exact hholds.keeps

variable {store : Store FlakyTier} {host : Host FlakyTier}

/--
Opening finds the log that the ledgers keep and restores the live table, unless a
flush fails or a name is taken twice.
-/
theorem load_ends (hkeeps : host.ledgers.Keeps first chapters tail)
    (hlogged : Operation.Logged content replayed first ((history chapters).map (·.2)))
    (hleft : Container.Left content replayed live host.tier) (config : Config) :
    match load config host with
    | .ok store => store.log.Holds first chapters [] ∧
        Operation.NamesApart [] ((recent chapters).map (·.2)) ∧
        Container.Restored content replayed live host.tier store.container ∧ store.fetches = {}
    | .error (_, after) => (∃ tail', after.ledgers.Keeps first chapters tail') ∧
        after.tier = host.tier ∧
        (host.ledgers.faults.crashed = true ∨ host.ledgers.faults.failFlushes = true ∨
          ¬ Operation.NamesApart [] ((recent chapters).map (·.2))) := by
  have hopen := Log.openIn_keeps hkeeps config
  unfold load
  cases hrun : Log.openIn config host.ledgers with
  | error failure =>
      rcases failure with ⟨e, ledgers⟩
      rw [hrun] at hopen
      rcases hopen with ⟨hfault, htail⟩
      exact ⟨htail, rfl, or_assoc.mp (Or.inl hfault.2)⟩
  | ok log =>
      rw [hrun] at hopen
      have hleft' : Container.Left content replayed live (TierView.held host.tier) := hleft
      have hrecover := recover_ends hopen hlogged hleft' config
      simp only
      cases hrun' : recover config log host with
      | ok store =>
          rw [hrun'] at hrecover
          exact ⟨hrecover.holds, hrecover.apart, hrecover.restored, hrecover.fetches_eq⟩
      | error failure =>
          rcases failure with ⟨e, after⟩
          rw [hrun'] at hrecover
          rcases hrecover with ⟨hkeeps, ⟨hnames, htier⟩ | ⟨hstops, -⟩⟩
          · exact ⟨⟨[], hkeeps⟩, htier, Or.inr (Or.inr hnames)⟩
          · exact absurd hstops id

/-- An opened store goes on from the table that was left, and a failed opening leaves it again. -/
theorem load_leaves (h : host.Leaves broken content live) (config : Config) :
    match load config host with
    | .ok store => store.Kept broken content ∧ live.Advances store.table
    | .error (_, after) => after.Leaves broken content live := by
  rcases h with ⟨replayed, hleads, hleft, hsettled, hjoins⟩
  rcases hleads with ⟨first, chapters, tail, hkeeps, hlogged⟩
  have hload := load_ends hkeeps hlogged hleft config
  cases hrun : load config host with
  | ok store =>
      rw [hrun] at hload
      rcases hload with ⟨hholds, -, hrestored, hfetches⟩
      rcases hrestored.recovers with ⟨settled, hjoined, -, hraises⟩
      refine ⟨⟨replayed, ⟨first, chapters, [], hholds, hlogged⟩, ?_, ?_, ?_⟩,
        hjoined.advances.trans hraises.advances⟩
      · exact
          { sound := hrestored.sound
            aligned :=
              Table.EndsIn.weaken (hrestored.alignedIn hleft.consistent hsettled) False.elim
            accounted := hrestored.accounted
            follows := hrestored.follows
            replayed := hleft.replayed }
      · intro hbreak
        exact hjoins (hrestored.within.interruptConcat_eq.symm.trans hbreak)
      · rw [hfetches]
        exact Fetches.sane_empty _
  | error failure =>
      rcases failure with ⟨e, after⟩
      rw [hrun] at hload
      rcases hload with ⟨⟨tail', hafter⟩, htier, -⟩
      refine ⟨replayed, ⟨first, chapters, tail', hafter, hlogged⟩, ?_⟩
      rw [htier]
      exact ⟨hleft, hsettled, hjoins⟩

theorem load_kept (h : host.Kept broken content) (config : Config) :
    match load config host with
    | .ok store => store.Kept broken content
    | .error (_, after) => after.Kept broken content := by
  rcases Host.kept_iff.mp h with ⟨live, hleaves⟩
  have hload := load_leaves hleaves config
  cases hrun : load config host with
  | ok store =>
      rw [hrun] at hload
      exact hload.1
  | error failure =>
      rw [hrun] at hload
      exact Host.kept_iff.mpr ⟨live, hload⟩

/-! ## Closing -/

theorem Kept.close_leaves (h : store.Kept broken content) :
    store.close.Leaves broken content store.table := by
  rcases h with ⟨replayed, h⟩
  exact ⟨replayed, h.leads.release, h.tracked.left, h.tracked.traced.settled, h.joins⟩

theorem Kept.close (h : store.Kept broken content) : store.close.Kept broken content :=
  Host.kept_iff.mpr ⟨_, h.close_leaves⟩

end Store

/-! ## Sessions -/

namespace Container.Left

theorem of_same_objects {content : Contents} {replayed live : Table} {tier after : FlakyTier}
    (h : Left content replayed live tier) (hsame : after.object? = tier.object?) :
    Left content replayed live after :=
  { h with stored := h.stored.of_same hsame }

end Container.Left

namespace Host.Leaves

variable {broken : Prop} {content : Contents} {live : Table} {host : Host FlakyTier}

theorem setFaults (h : host.Leaves broken content live) (change : LedgerFaults → LedgerFaults) :
    Leaves broken content live { host with ledgers := host.ledgers.setFaults change } := by
  rcases h with ⟨replayed, hleads, hkept⟩
  exact ⟨replayed, hleads.setFaults change, hkept⟩

theorem setTier (h : host.Leaves broken content live) {tier : FlakyTier}
    (hsame : tier.object? = host.tier.object?) (hjoins : JoinsBreak tier → broken) :
    Leaves broken content live { host with tier } := by
  rcases h with ⟨replayed, hleads, hleft, hsettled, -⟩
  exact ⟨replayed, hleads, hleft.of_same_objects hsame, hsettled.of_same hsame, hjoins⟩

theorem settle (h : host.Leaves broken content live) : host.settle.Leaves broken content live := by
  have hruns := FlakyTier.runOrphans_same host.tier host.orphans
  rcases h with ⟨replayed, hleads, hleft, hsettled, hjoins⟩
  refine ⟨replayed, hleads, hleft.of_same_objects hruns.object?_eq,
    hsettled.of_same hruns.object?_eq, fun hbreak => ?_⟩
  exact hjoins (hruns.interruptConcat_eq.symm.trans hbreak)

end Host.Leaves

namespace Session.Kept

variable {broken : Prop} {content : Contents} {session : Session FlakyTier}

theorem host (h : session.Kept broken content) : session.host.Kept broken content := by
  cases session with
  | closed host => exact h
  | opened store => exact Store.Kept.close h

theorem close (h : session.Kept broken content) : session.close.Kept broken content := h.host

theorem reopen (h : session.Kept broken content) (config : Config) :
    (session.reopen config).2.Kept broken content := by
  have hload := Store.load_kept h.host config
  unfold Session.reopen
  cases hrun : Store.load config session.host with
  | ok store =>
      rw [hrun] at hload
      exact hload
  | error failure =>
      rcases failure with ⟨e, after⟩
      rw [hrun] at hload
      exact hload

theorem setFaults (h : session.Kept broken content) (change : LedgerFaults → LedgerFaults) :
    (session.setLedgers (session.ledgers.setFaults change)).Kept broken content := by
  cases session with
  | closed host =>
      rcases Host.kept_iff.mp h with ⟨live, hleaves⟩
      exact Host.kept_iff.mpr ⟨live, hleaves.setFaults change⟩
  | opened store =>
      rcases h with ⟨replayed, h⟩
      exact ⟨replayed, { h with leads := h.leads.setFaults change }⟩

theorem setTier (h : session.Kept broken content) {tier : FlakyTier}
    (hsame : tier.object? = session.tier.object?) (hjoins : JoinsBreak tier → broken) :
    (session.setTier tier).Kept broken content := by
  cases session with
  | closed host =>
      rcases Host.kept_iff.mp h with ⟨live, hleaves⟩
      exact Host.kept_iff.mpr ⟨live, hleaves.setTier hsame hjoins⟩
  | opened store =>
      rcases h with ⟨replayed, h⟩
      exact ⟨replayed, { h with tracked := h.tracked.of_same_objects hsame, joins := hjoins }⟩

theorem settle (h : session.Kept broken content) : session.settle.Kept broken content := by
  cases session with
  | closed host =>
      rcases Host.kept_iff.mp h with ⟨live, hleaves⟩
      exact Host.kept_iff.mpr ⟨live, hleaves.settle⟩
  | opened store =>
      have h : store.Kept broken content := h
      exact h.sound.settle.kept h

theorem advance (h : session.Kept broken content) (milliseconds : Nat) :
    (session.advance milliseconds).Kept broken content := by
  cases session with
  | closed host => exact h.settle
  | opened store =>
      have h : store.Kept broken content := h
      exact (h.sound.advance milliseconds).kept h

end Session.Kept
end TieredStore
