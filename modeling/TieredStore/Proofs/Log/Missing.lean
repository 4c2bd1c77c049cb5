import TieredStore.Log.Reader
import TieredStore.Proofs.Log.Appending
import TieredStore.Proofs.Log.Surveying
import TieredStore.Proofs.Missing

/-!
# The log never misses bytes of segments

What a log, its ledgers and their frames report are failures of the medium, of the
format and of the order of records.
-/

namespace TieredStore

/-! ## Frames and records -/

theorem Frame.delivers_recordLength (header : Bytes) (offset : Nat) :
    Delivers (recordLength header offset) := by
  unfold recordLength
  split
  · exact .ok _
  · exact .error id

theorem Frame.delivers_verify (frame : Bytes) : Delivers (verify frame) := by
  unfold verify
  split
  · exact .error id
  · simp only
    split
    · exact .error id
    · exact .ok _

namespace Walk

theorem delivers_fetch (walk : Walk) (objects : Objects) (length : Nat) :
    Delivers (walk.fetch objects length) := by
  unfold fetch
  simp only
  split
  · exact .ok _
  · split
    · exact .error id
    · exact .ok _

theorem delivers_step (walk : Walk) (objects : Objects) : Delivers (walk.step objects) := by
  unfold step
  simp only
  split
  · exact .ok _
  · split
    · exact .ok _
    · refine .bind (delivers_fetch _ _ _) fun read => .bind (Frame.delivers_recordLength _ _)
        fun length => ?_
      split
      · exact .ok _
      · exact .bind (delivers_fetch _ _ _) fun read => .bind (Frame.delivers_verify _)
          fun record => .ok _

theorem delivers_next (walk : Walk) (objects : Objects) :
    ∀ item, (walk.next objects).1 = some item → Delivers item := by
  intro item h
  unfold next at h
  split at h
  · cases h
  · split at h
    · cases h
      exact .ok _
    · cases h
    · rename_i e hstep
      cases h
      exact .error (delivers_step walk objects e hstep)

theorem delivers_itemsWithin (objects : Objects) (fuel : Nat) (walk : Walk) :
    ∀ item ∈ (itemsWithin objects fuel walk).1, Delivers item := by
  induction fuel generalizing walk with
  | zero => exact fun _ h => nomatch h
  | succ fuel ih =>
      intro item h
      unfold itemsWithin at h
      split at h
      · cases h
      · rename_i first after hnext
        rcases List.mem_cons.mp h with heq | hrest
        · rw [heq]
          exact delivers_next walk objects first (by rw [hnext])
        · exact ih after item hrest

end Walk

namespace Scan

theorem delivers_observe (scan : Scan) (header : Record.Header) : Delivers (scan.observe header) := by
  unfold observe
  simp only
  split
  · split
    · exact .error id
    · exact .ok _
  · exact .ok _

theorem delivers_take (scan : Scan) {item : Except Error FrameItem} (h : Delivers item) :
    Delivers (scan.take item) := by
  unfold take
  split
  · rename_i e
    exact .error (h e rfl)
  · exact .ok _
  · split
    · exact .error id
    · exact delivers_observe _ _

theorem delivers_run (ledger : LedgerId) (handle : Handle) (objects : Objects) :
    Delivers (run ledger handle objects) := by
  unfold run Walk.items
  simp only
  refine .bind (Delivers.foldlM _ _ fun scan item hitem => ?_) fun scan => .ok _
  exact delivers_take scan (Walk.delivers_itemsWithin objects _ _ item hitem)

end Scan

namespace Log

/-! ## Opening -/

theorem LoadM.neverMisses_call {α : Type} (call : LedgersM α) : NeverMisses (LoadM.call call) := by
  intro ledgers
  exact call_ends (.of_run (fun _ _ _ => trivial) fun _ _ _ => id)

theorem LoadM.neverMisses_attach (id : LedgerId) : NeverMisses (LoadM.attach id) := by
  refine .get fun ledgers => ?_
  cases ledgers.attach id with
  | ok handle => exact .pure _
  | error cause => exact .throw fun h => h

theorem LoadM.neverMisses_scan (id : LedgerId) : NeverMisses (LoadM.scan id) := by
  refine .bind (neverMisses_attach id) fun handle => .get fun ledgers => ?_
  have hdelivers := Scan.delivers_run id handle ledgers.objects
  cases hrun : Scan.run id handle ledgers.objects with
  | ok scan => exact .pure _
  | error e => exact .throw (hdelivers e hrun)

theorem neverMisses_settleTail (scan : Scan) (newest : Bool) :
    NeverMisses (settleTail scan newest) := by
  unfold settleTail cutTail
  split
  · exact .pure _
  · split
    · exact .bind (LoadM.neverMisses_attach _) fun handle =>
        .bind (LoadM.neverMisses_call _).discard fun _ => LoadM.neverMisses_call _
    · exact .throw id

theorem neverMisses_loadLedger (known : List LedgerInfo) (id : LedgerId) (newest : Bool) :
    NeverMisses (loadLedger known id newest) := by
  refine .bind (LoadM.neverMisses_scan id) fun scan =>
    .bind (neverMisses_settleTail scan newest) fun _ => ?_
  unfold ensureContinues
  split
  · exact .pure _
  · rename_i e h
    split at h
    · split at h
      · cases h
        exact .throw fun h => h
      · cases h
    · cases h

theorem neverMisses_loadLedgers (ids : List LedgerId) (known : List LedgerInfo) :
    NeverMisses (loadLedgers known ids) := by
  induction ids generalizing known with
  | nil => exact .pure _
  | cons id rest ih => exact .bind (neverMisses_loadLedger _ _ _) fun info => ih _

theorem neverMisses_loadAll : NeverMisses loadAll := by
  refine .get fun ledgers => .bind (neverMisses_loadLedgers _ _) fun infos => .bind ?_ fun writer =>
    .pure _
  cases ledgers.list with
  | nil => exact .pure _
  | cons id rest => exact .bind (LoadM.neverMisses_attach _) fun handle => .pure _

theorem neverMisses_openIn {config : Config} {ledgers after : Ledgers} {e : Error}
    (h : openIn config ledgers = .error (e, after)) : ¬ e.MissesBytes := by
  unfold openIn load at h
  split at h
  · cases h
    exact id
  · rename_i medium hacquire
    have hload := neverMisses_loadAll medium
    cases hrun : loadAll.run medium with
    | ok found last =>
        rw [hrun] at h
        cases h
    | error cause last =>
        rw [hrun] at h
        cases h
        exact hload.error hrun

/-! ## Adding and dropping -/

theorem neverMisses_failingAs {α : Type} {meaning : MediumError → Error}
    (h : ∀ cause, ¬ (meaning cause).MissesBytes) (call : EStateM MediumError Log α) :
    NeverMisses (failingAs meaning call) := by
  intro log
  exact failingAs_ends (.of_run (fun _ _ _ => trivial) fun cause _ _ => h cause)

theorem neverMisses_commitFrame (before : Nat) (frame : Bytes) :
    NeverMisses (commitFrame before frame) := by
  intro log
  refine commitFrame_ends (.of_run (fun _ _ _ => trivial) ?_)
  intro cause after _
  exact .of_run (fun _ _ _ => id) fun _ _ _ => id

theorem neverMisses_append (op : Operation) : NeverMisses (append op) := by
  have hcommit : ∀ (seq : SequenceNumber) (before : Nat) (frame : Bytes) (change : Log → Log),
      NeverMisses (do
        commitFrame before frame
        modify change
        return seq) :=
    fun seq before frame change =>
      .bind (neverMisses_commitFrame before frame) fun _ => .bind .modified fun _ => .pure _
  unfold append
  refine .get fun log => ?_
  split
  · exact .throw id
  · refine .get fun log => ?_
    extract_lets seq
    split
    · refine .bind (.pure _) fun frame => .get fun log => ?_
      split
      · refine .bind (neverMisses_failingAs (fun _ => id) _) fun _ => .get fun log => .get fun log => ?_
        split
        · exact .throw id
        · exact hcommit _ _ _ _
      · refine .get fun log => .get fun log => ?_
        split
        · exact .throw id
        · exact hcommit _ _ _ _
    · exact .throw id

theorem neverMisses_truncate (upto : SequenceNumber) : NeverMisses (truncate upto) := by
  unfold truncate
  refine .get fun log => ?_
  simp only
  split
  · exact .throw id
  · refine .forM _ fun ledger _ => ?_
    exact .bind (neverMisses_failingAs (fun _ => id) _) fun _ => .modified

theorem neverMisses_flush : NeverMisses flush := neverMisses_failingAs (fun _ => id) _

end Log
end TieredStore
