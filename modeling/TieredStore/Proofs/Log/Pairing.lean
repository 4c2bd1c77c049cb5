import TieredStore.Proofs.Log.Mirroring
import TieredStore.Proofs.Log.Run

/-!
# The same log over memory and over files

A log over a folder does what the same log does over memory.  Both know the same of
their ledgers and differ in the handle onto the newest one only, which in the
folder is always one that knows all bytes: it is opened or made when there are
none that it does not see, and from then on only the log writes.
-/

namespace TieredStore
namespace Log

open Ledgers

variable {path : String} {memory folder : Ledgers} {log log' after : Log}

inductive Writers (memory folder : Ledgers) : Option Handle → Option Handle → Prop
  | nothing : Writers memory folder none none
  | newest {handle handle' : Handle} (h : Ledgers.Mirrors.Writes memory folder handle handle') :
      Writers memory folder (some handle) (some handle')

inductive Mirrors (path : String) (log : Log) : Log → Prop
  | intro {folder : Ledgers} {writer' : Option Handle} (medium : log.medium.Mirrors path folder)
      (writers : Writers log.medium folder log.writer writer') :
      Mirrors path log { log with medium := folder, writer := writer' }

theorem Writers.isSome_eq {writer writer' : Option Handle}
    (h : Writers memory folder writer writer') : writer'.isSome = writer.isSome := by
  cases h with
  | nothing => rfl
  | newest _ => rfl

theorem Writers.of_objects {writer writer' : Option Handle} {memory' folder' : Ledgers}
    (h : Writers memory folder writer writer') (hmemory : memory'.objects = memory.objects)
    (hfolder : folder'.objects = folder.objects) : Writers memory' folder' writer writer' := by
  cases h with
  | nothing => exact .nothing
  | newest hwrites =>
      refine .newest ⟨hwrites.mirrors, ?_, ?_⟩
      · rw [hmemory]
        exact hwrites.there
      · rw [hfolder]
        exact hwrites.fresh

namespace Mirrors

theorem medium (h : log.Mirrors path log') : log.medium.Mirrors path log'.medium := by
  cases h with
  | intro hmedium _ => exact hmedium

theorem writer_isSome (h : log.Mirrors path log') : log'.writer.isSome = log.writer.isSome := by
  cases h with
  | intro _ hwriters => exact hwriters.isSome_eq

theorem same (h : log.Mirrors path log') :
    log' = { log with medium := log'.medium, writer := log'.writer } := by
  cases h with
  | intro _ _ => rfl

end Mirrors

/-- What a call that may have started some ledgers makes of a log and of the same log over a folder. -/
structure Moves (path : String) (started : List LedgerId) (log after after' : Log) : Prop where
  mirrors : after.Mirrors path after'
  onward : log.medium.Onward after.medium
  poisoned : after.poisoned = log.poisoned
  ids : ∀ id ∈ after.medium.list, id ∈ log.medium.list ∨ id ∈ started

namespace Moves

variable {started more : List LedgerId} {later later' after' : Log}

theorem refl (h : log.Mirrors path log') : Moves path [] log log log' where
  mirrors := h
  onward := .refl _
  poisoned := rfl
  ids := fun _ hid => Or.inl hid

theorem trans (h : Moves path started log later later') (hafter : Moves path more later after after') :
    Moves path (started ++ more) log after after' where
  mirrors := hafter.mirrors
  onward := h.onward.trans hafter.onward
  poisoned := hafter.poisoned.trans h.poisoned
  ids := by
    intro id hid
    rcases hafter.ids id hid with hlater | hmore
    · exact (h.ids id hlater).imp_right (List.mem_append_left more)
    · exact Or.inr (List.mem_append_right started hmore)

theorem mono (h : Moves path started log after after') (hsubset : started ⊆ more) :
    Moves path more log after after' :=
  { h with ids := fun id hid => (h.ids id hid).imp_right fun hmem => hsubset hmem }

end Moves

structure Writes (path : String) (log after after' : Log) : Prop where
  mirrors : after.Mirrors path after'
  onward : log.medium.Onward after.medium
  ids : after.medium.list = log.medium.list
  writer : after.writer.isSome = log.writer.isSome
  same : after = { log with medium := after.medium, writer := after.writer }

theorem Writes.trans {later later' after' : Log} (h : Writes path log later later')
    (hafter : Writes path later after after') : Writes path log after after' where
  mirrors := hafter.mirrors
  onward := h.onward.trans hafter.onward
  ids := hafter.ids.trans h.ids
  writer := hafter.writer.trans h.writer
  same := by
    have hlater := hafter.same
    rw [h.same] at hlater
    exact hlater

theorem Writes.moves {after' : Log} (h : Writes path log after after') :
    Moves path [] log after after' where
  mirrors := h.mirrors
  onward := h.onward
  poisoned := by rw [h.same]
  ids := by
    intro id hid
    rw [h.ids] at hid
    exact Or.inl hid

/-! ## Calls of the medium -/

theorem onMedium_twins {α : Type} {call call' : LedgersM α}
    {answered : α → Log → α → Log → Prop} {failed : MediumError → Log → MediumError → Log → Prop}
    (h : Twins call call' log.medium log'.medium
      (fun a medium a' medium' => answered a { log with medium } a' { log' with medium := medium' })
      fun e medium e' medium' => failed e { log with medium } e' { log' with medium := medium' }) :
    Twins (onMedium call) (onMedium call') log log' answered failed := by
  unfold Twins EStateM.run onMedium
  exact Twins.elim (call.run log.medium) (call'.run log'.medium) rfl rfl h

theorem failingAs_twins {α : Type} {meaning : MediumError → Error}
    {call call' : EStateM MediumError Log α} {answered : α → Log → α → Log → Prop}
    {failed : Error → Log → Error → Log → Prop}
    (h : Twins call call' log log' answered
      fun e after e' after' => failed (meaning e) after (meaning e') after') :
    Twins (failingAs meaning call) (failingAs meaning call') log log' answered failed := by
  unfold Twins EStateM.run failingAs
  exact Twins.elim (call.run log) (call'.run log') rfl rfl h

theorem onWriter_twins {call : Handle → LedgersM Handle} (h : log.Mirrors path log')
    (hcall : ∀ handle handle', Ledgers.Mirrors.Writes log.medium log'.medium handle handle' →
      Twins (call handle) (call handle') log.medium log'.medium
        (fun writer medium writer' medium' => medium.list = log.medium.list ∧
          Ledgers.Mirrors.Keeps path log.medium medium medium' ∧
          Ledgers.Mirrors.Writes medium medium' writer writer')
        fun _ _ _ _ => False) :
    Twins (onWriter call) (onWriter call) log log'
      (fun _ after _ after' => Writes path log after after') fun _ _ _ _ => False := by
  cases h with
  | intro hmedium hwriters =>
      rename_i folder writer'
      have hmirrors : log.Mirrors path { log with medium := folder, writer := writer' } :=
        .intro hmedium hwriters
      unfold onWriter
      refine Twins.get ?_
      generalize hwriter : log.writer = writer at hwriters ⊢
      cases hwriters with
      | nothing => exact Twins.pure ⟨hmirrors, .refl _, rfl, rfl, rfl⟩
      | newest hwrites =>
          refine Twins.bind (onMedium_twins ((hcall _ _ hwrites).mono_ok ?_))
          rintro handle medium handle' medium' ⟨hlist, hkeeps, hlater⟩
          have hsome : log.writer.isSome = true := by
            rw [hwriter]
            rfl
          exact Twins.modified
            ⟨.intro hkeeps.1 (.newest hlater), hkeeps.2, hlist, hsome.symm, rfl⟩

/-! ## Appending -/

theorem flushWriter_twins (h : log.Mirrors path log') :
    Twins (onWriter fun writer => do Ledgers.flush; return writer)
      (onWriter fun writer => do Ledgers.flush; return writer) log log'
      (fun _ after _ after' => Writes path log after after') fun _ _ _ _ => False := by
  have hmedium := h.medium
  refine onWriter_twins h ?_
  intro handle handle' hwrites
  refine Twins.bind (hmedium.flush.mono_ok ?_)
  rintro _ medium _ medium' ⟨rfl, rfl⟩
  exact Twins.pure ⟨rfl, ⟨hmedium, .refl _⟩, hwrites⟩

theorem writeFrame_twins (h : log.Mirrors path log') (frame : Bytes) :
    Twins (writeFrame frame) (writeFrame frame) log log'
      (fun _ after _ after' => Writes path log after after') fun _ _ _ _ => False := by
  have hmedium := h.medium
  unfold writeFrame
  refine Twins.bind ((onWriter_twins h fun _ _ hwrites => hmedium.append hwrites frame).mono_ok ?_)
  intro _ later _ later' hwritten
  have hsync : later'.syncOnAppend = later.syncOnAppend := by
    rw [hwritten.mirrors.same]
  refine Twins.get ?_
  rw [hsync]
  split
  · refine (flushWriter_twins hwritten.mirrors).mono_ok ?_
    intro _ after _ after' hafter
    exact hwritten.trans hafter
  · exact Twins.pure hwritten

theorem commitFrame_of_ok {before : Nat} {frame : Bytes}
    (h : (writeFrame frame).run log = .ok () after) :
    (commitFrame before frame).run log = .ok () after := by
  unfold EStateM.run at h ⊢
  unfold commitFrame EStateM.run
  rw [h]

theorem commitFrame_twins (h : log.Mirrors path log') (before : Nat) (frame : Bytes) :
    Twins (commitFrame before frame) (commitFrame before frame) log log'
      (fun _ after _ after' => Writes path log after after') fun _ _ _ _ => False := by
  rcases (writeFrame_twins h frame).cases with ⟨_, after, _, after', hrun, hrun', hwritten⟩ |
    ⟨_, _, _, _, _, _, hfalse⟩
  · exact Twins.of_ok (commitFrame_of_ok hrun) (commitFrame_of_ok hrun') hwritten
  · exact hfalse.elim

theorem startLedger_twins (h : log.Mirrors path log')
    (hnew : ∀ id ∈ log.medium.list, id < log.nextLedger) (hid : log.nextLedger ≤ maxWord) :
    Twins startLedger startLedger log log'
      (fun _ after _ after' => Moves path [log.nextLedger] log after after' ∧
        after.writer.isSome = true ∧ after.nextSeq = log.nextSeq)
      fun _ _ _ _ => False := by
  unfold startLedger
  refine Twins.bind ((flushWriter_twins h).mono_ok ?_)
  intro _ later _ later' hflushed
  have hnext : later.nextLedger = log.nextLedger := by
    rw [hflushed.same]
    rfl
  have hnew : ∀ id ∈ later.medium.list, id < later.nextLedger := by
    rw [hflushed.ids, hnext]
    exact hnew
  have hmirrors := hflushed.mirrors
  cases hmirrors with
  | intro hmedium hwriters =>
      refine Twins.get ?_
      refine Twins.bind (onMedium_twins ((hmedium.create hnew (by rw [hnext]; exact hid)).mono_ok ?_))
      rintro writer medium writer' medium' ⟨hids, hkeeps, hwrites⟩
      refine Twins.modified ⟨?_, rfl, ?_⟩
      · refine { mirrors := ?_, onward := ?_, poisoned := ?_, ids := ?_ }
        · exact .intro hkeeps.1 (.newest hwrites)
        · exact hflushed.onward.trans hkeeps.2
        · show later.poisoned = log.poisoned
          rw [hflushed.same]
        · intro id hid
          have hid := hids id hid
          rw [hflushed.ids, hnext] at hid
          exact hid.imp_right List.mem_singleton.mpr
      · show later.nextSeq = log.nextSeq
        rw [hflushed.same]

theorem append_frame_twins (h : log.Mirrors path log') (hwriter : log.writer.isSome = true)
    (op : Operation) (seq : SequenceNumber) (frame : Bytes) {rest : LogM SequenceNumber}
    (hrest : rest = do
      let before := ((← get).ledgers.getLast?.map (·.size)).getD 0
      if (← get).writer.isNone then throw (.misuse .noWritableLedger)
      commitFrame before frame
      modify fun log' =>
        { log' with
          ledgers := updateNewest (·.grown seq op.isCheckpoint (before + frame.length)) log'.ledgers
          nextSeq := seq.next }
      return seq) :
    Twins rest rest log log'
      (fun found after found' after' => found' = found ∧ Moves path [] log after after')
      fun _ _ _ _ => False := by
  have hledgers : log'.ledgers = log.ledgers := by
    rw [h.same]
  have hnone : log.writer.isNone = false := by
    rw [← Option.not_isSome, hwriter]
    rfl
  have hnone' : log'.writer.isNone = false := by
    rw [← Option.not_isSome, h.writer_isSome, hwriter]
    rfl
  rw [hrest]
  refine Twins.get (Twins.get ?_)
  rw [hledgers, hnone, hnone']
  refine Twins.bind ((commitFrame_twins h _ frame).mono_ok ?_)
  intro _ later _ later' hwritten
  have hmoves := hwritten.moves
  refine Twins.modifying (Twins.pure ⟨rfl, ?_⟩)
  refine { mirrors := ?_, onward := hmoves.onward, poisoned := hmoves.poisoned, ids := hmoves.ids }
  have hmirrors := hmoves.mirrors
  cases hmirrors with
  | intro hmedium hwriters => exact .intro hmedium hwriters

theorem writer_isSome_of_not_needsLedger {checkpoint : Bool} {size : Nat}
    (h : ¬log.needsLedger checkpoint size = true) : log.writer.isSome = true := by
  unfold needsLedger at h
  split at h
  · exact absurd rfl h
  · split at h
    · exact absurd rfl h
    · rename_i hnone
      rw [← Option.not_isSome] at hnone
      simpa only [Bool.not_eq_true', Bool.not_eq_false] using hnone

/-- An append ends alike in both; one that fails leaves both as they are. -/
theorem append_twins (h : log.Mirrors path log') (op : Operation)
    (hnew : ∀ id ∈ log.medium.list, id < log.nextLedger)
    (hid : ∀ frame, Frame.ofOperation log.nextSeq op = .ok frame → log.nextLedger ≤ maxWord) :
    Twins (append op) (append op) log log'
      (fun seq after seq' after' => seq' = seq ∧ Moves path [log.nextLedger] log after after')
      fun e after e' after' => e' = e ∧ after = log ∧ after' = log' := by
  have hpoisoned : log'.poisoned = log.poisoned := by
    rw [h.same]
  have hseq : log'.nextSeq = log.nextSeq := by
    rw [h.same]
  -- whether a new ledger is needed depends on what both know
  have hneeds (checkpoint : Bool) (size : Nat) :
      log'.needsLedger checkpoint size = log.needsLedger checkpoint size := by
    have hnone : log'.writer.isNone = log.writer.isNone := by
      rw [← Option.not_isSome, ← Option.not_isSome, h.writer_isSome]
    unfold needsLedger
    rw [hnone, h.same]
  unfold append
  refine Twins.get ?_
  rw [hpoisoned]
  split
  · exact Twins.throw ⟨rfl, rfl, rfl⟩
  · refine Twins.get ?_
    rw [hseq]
    extract_lets seq
    cases hframe : Frame.ofOperation log.nextSeq op with
    | error cause => exact Twins.throw ⟨rfl, rfl, rfl⟩
    | ok frame =>
        refine Twins.bind (Twins.pure (Twins.get ?_))
        rw [hneeds]
        split
        · refine Twins.bind (failingAs_twins ((startLedger_twins h hnew (hid frame hframe)).mono_ok ?_))
          rintro _ later _ later' ⟨hmoves, hwriter, hsame⟩
          refine (append_frame_twins hmoves.mirrors hwriter op seq frame rfl).mono_ok ?_
          rintro found after found' after' ⟨hfound, hafter⟩
          exact ⟨hfound, hmoves.trans hafter⟩
        · rename_i hneeded
          have hwriter := writer_isSome_of_not_needsLedger hneeded
          refine (append_frame_twins h hwriter op seq frame rfl).mono_ok ?_
          rintro found after found' after' ⟨hfound, hafter⟩
          exact ⟨hfound, hafter.mono (List.nil_subset _)⟩

theorem flush_twins (h : log.Mirrors path log') :
    Twins flush flush log log' (fun _ after _ after' => Moves path [] log after after')
      fun _ _ _ _ => False := by
  refine failingAs_twins ((flushWriter_twins h).mono_ok ?_)
  intro _ after _ after' hwritten
  exact hwritten.moves

/-! ## Dropping the start -/

theorem dropOldest_twins {id newest : LedgerId} (h : log.Mirrors path log')
    (hthere : id ∈ log.medium.list) (hnewest : newest ∈ log.medium.list) (hlt : id < newest) :
    Twins (dropOldest id) (dropOldest id) log log'
      (fun _ after _ after' => Moves path [] log after after' ∧
        ∀ kept ∈ log.medium.list, kept ≠ id → kept ∈ after.medium.list)
      fun _ _ _ _ => False := by
  unfold dropOldest
  cases h with
  | intro hmedium hwriters =>
      rename_i folder writer'
      refine Twins.bind (failingAs_twins (onMedium_twins
        ((hmedium.delete hthere hnewest hlt).mono_ok ?_)))
      rintro _ medium _ medium' ⟨hids, hobjects, hmirrors, honward⟩
      refine Twins.modified ⟨?_, fun kept hkept hne => (hids kept).mpr ⟨hkept, hne⟩⟩
      refine { mirrors := ?_, onward := honward, poisoned := rfl, ids := ?_ }
      · refine .intro hmirrors ?_
        have hobjects' : medium'.objects = folder.objects := by
          rw [hmirrors.objects_eq, hobjects, hmedium.objects_eq]
        exact hwriters.of_objects hobjects hobjects'
      · intro other hother
        exact Or.inl ((hids other).mp hother).1

theorem dropAll_twins (newest : LedgerId) :
    ∀ {infos : List LedgerInfo} {log log' : Log}, log.Mirrors path log' →
      (infos.map (·.id)).Nodup → (∀ info ∈ infos, info.id ∈ log.medium.list ∧ info.id < newest) →
      newest ∈ log.medium.list →
      Twins (infos.forM fun info => dropOldest info.id) (infos.forM fun info => dropOldest info.id)
        log log' (fun _ after _ after' => Moves path [] log after after') fun _ _ _ _ => False
  | [], log, log', h, _, _, _ => Twins.pure (Moves.refl h)
  | info :: rest, log, log', h, hnodup, hthere, hnewest => by
      rw [List.map_cons, List.nodup_cons] at hnodup
      rcases hthere info List.mem_cons_self with ⟨hmem, hlt⟩
      unfold List.forM
      refine Twins.bind ((dropOldest_twins h hmem hnewest hlt).mono_ok ?_)
      rintro _ later _ later' ⟨hmoves, hstays⟩
      have hnewest := hstays newest hnewest (Nat.ne_of_gt hlt)
      have hthere : ∀ other ∈ rest, other.id ∈ later.medium.list ∧ other.id < newest := by
        intro other hother
        rcases hthere other (List.mem_cons_of_mem _ hother) with ⟨hmem', hlt'⟩
        refine ⟨hstays other.id hmem' ?_, hlt'⟩
        intro heq
        exact hnodup.1 (heq ▸ List.mem_map_of_mem (f := LedgerInfo.id) hother)
      refine (dropAll_twins newest hmoves.mirrors hnodup.2 hthere hnewest).mono_ok ?_
      intro _ after _ after' hafter
      exact hmoves.trans hafter

theorem truncate_twins (h : log.Mirrors path log') (upto : SequenceNumber)
    (hids : log.medium.list = log.ledgers.map (·.id))
    (hascending : (log.ledgers.map (·.id)).Pairwise (· < ·)) :
    Twins (truncate upto) (truncate upto) log log'
      (fun _ after _ after' => Moves path [] log after after')
      fun e after e' after' => e' = e ∧ after = log ∧ after' = log' := by
  have hledgers : log'.ledgers = log.ledgers := by
    rw [h.same]
  unfold truncate
  refine Twins.get ?_
  dsimp only
  rw [hledgers]
  cases hfind : log.ledgers.findIdx? (fun l => l.first = some upto.next && l.startsWithCheckpoint) with
  | none => exact Twins.throw ⟨rfl, rfl, rfl⟩
  | some index =>
      obtain ⟨hindex, -, -⟩ := List.findIdx?_eq_some_iff_getElem.mp hfind
      have hsplit : log.ledgers.map (·.id) =
          (log.ledgers.take index).map (·.id) ++ (log.ledgers.drop index).map (·.id) := by
        rw [← List.map_append, List.take_append_drop]
      have hnewest : log.ledgers[index].id ∈ (log.ledgers.drop index).map (·.id) := by
        rw [List.drop_eq_getElem_cons hindex]
        exact List.mem_cons_self
      rw [hsplit, List.pairwise_append] at hascending
      refine (dropAll_twins log.ledgers[index].id h ?_ ?_ ?_).mono_ok ?_
      · exact hascending.1.imp fun hlt => Nat.ne_of_lt hlt
      · intro info hinfo
        have hmem := List.mem_map_of_mem (f := LedgerInfo.id) hinfo
        refine ⟨?_, hascending.2.2 _ hmem _ hnewest⟩
        rw [hids, hsplit]
        exact List.mem_append_left _ hmem
      · rw [hids, hsplit]
        exact List.mem_append_right _ hnewest
      · intro _ _ _ _ hmoves
        exact hmoves

end Log
end TieredStore
