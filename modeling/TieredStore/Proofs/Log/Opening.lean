import TieredStore.Proofs.Log.Paging

/-!
# Opening finds the whole history

Ledgers that keep a history are legible, so that opening them makes a log of their
pages, and these say what the chapters say.  Behind the newest chapter a torn frame
is cut off.  Opening only fails if there is one and the medium does not let it cut,
and then every chapter is as it was.
-/

namespace TieredStore
namespace Log

open Chapter LogRecord

variable {ledgers : Ledgers} {first : SequenceNumber} {chapters : List Chapter} {tail : Bytes}
  {pages : List Page}

/-- There is a torn frame, and a fault keeps it from being cut off. -/
def CutFails (ledgers : Ledgers) (tail : Bytes) : Prop :=
  tail ≠ [] ∧ (ledgers.faults.crashed = true ∨ ledgers.faults.failFlushes = true)

theorem settledAfter_keeps (h : ledgers.Keeps first chapters tail)
    (hpages : Pages chapters tail pages) :
    (ledgers.settledAfter pages).Keeps first chapters [] := by
  refine h.of_shows ?_ Frame.tail_nil
  rcases List.eq_nil_or_concat chapters with rfl | ⟨older, newest, rfl⟩
  · rw [List.map_eq_nil_iff.mp hpages.info_eq]
    exact h.shows
  rw [List.concat_eq_append] at h hpages ⊢
  have hshows := h.shows
  rw [volumes_concat] at hshows ⊢
  rcases hpages.newest with ⟨page, hlast, hid, rfl, hframes⟩
  unfold Ledgers.settledAfter
  rw [hlast]
  by_cases hrest : page.rest = []
  · rw [hrest] at hshows
    simp only [Ledgers.settled_of_rest hrest]
    exact hshows
  · have hobject := hshows.object?_eq (v := newest.volume page.rest) (by simp)
    have hobject : ledgers.object? page.id = some newest.object := by
      rw [hid]
      exact hobject
    obtain ⟨known, hdirectory, hentries⟩ := hshows.directory
    have hcut : (ledgers.trimmed newest.object (frames newest.records).length).Shows
        (older.map (volume []) ++ [{ newest.volume page.rest with
          bytes := (newest.volume page.rest).bytes.take (frames newest.records).length }]) :=
      hshows.modify_last (·.take _) rfl ⟨known, hdirectory, hentries⟩
    have hvolume : { newest.volume page.rest with
        bytes := (newest.volume page.rest).bytes.take (frames newest.records).length } =
        newest.volume [] := by
      simp [volume]
    rw [hvolume] at hcut
    simp only [Ledgers.settled_of_object? hrest hobject, hframes]
    exact hcut

theorem ofPages_holds (h : ledgers.Keeps first chapters tail) (hpages : Pages chapters tail pages)
    (config : Config) : (ofPages config ledgers pages).Holds first chapters [] := by
  have hkeeps := settledAfter_keeps h hpages
  refine { keeps := hkeeps, ledgers_eq := hpages.info_eq, writer_eq := ?_, nextSeq_eq := ?_,
           clean := fun _ => rfl }
  · rcases List.eq_nil_or_concat chapters with rfl | ⟨older, newest, rfl⟩
    · rw [List.map_eq_nil_iff.mp hpages.info_eq]
      rfl
    rw [List.concat_eq_append] at hpages hkeeps ⊢
    have hshows := hkeeps.shows
    rw [volumes_concat] at hshows
    rcases hpages.newest with ⟨page, hlast, hid, -⟩
    have hattach := hshows.attach_eq (v := newest.volume []) (by simp)
    have hattach : (ledgers.settledAfter pages).attach page.id = .ok (.memory newest.object) := by
      rw [hid]
      exact hattach
    unfold ofPages
    simp only [hlast, List.getLast?_concat, Option.bind_some, hattach]
    rfl
  · unfold ofPages
    simp only [hpages.seqs_eq, List.getLast?_map, Option.map_map]
    cases hlast : (history chapters).getLast? with
    | none =>
        have hnil := List.getLast?_eq_none_iff.mp hlast
        rw [hnil, h.first_eq_of_history_nil hnil]
        rfl
    | some record => exact h.runs.last hlast

/-- An opened log knows the whole history; one that cannot be opened has lost nothing of it. -/
theorem load_keeps (h : ledgers.Keeps first chapters tail) (config : Config) :
    match load config ledgers with
    | .ok log => log.Holds first chapters [] ∧ log.poisoned = false
    | .error (_, after) =>
        CutFails ledgers tail ∧
          ∃ tail', after.Keeps first chapters tail' := by
  rcases h.exists_pages with ⟨pages, hpages, hlegible⟩
  have hload := load_pages config ledgers
  cases hrun : load config ledgers with
  | ok log =>
      rw [hrun] at hload
      rcases hload with ⟨others, hothers, rfl⟩
      rw [← hlegible.unique hothers]
      exact ⟨ofPages_holds h hpages config, rfl⟩
  | error failure =>
      rcases failure with ⟨e, after⟩
      rw [hrun] at hload
      rcases hload with ⟨hrefused, hcut⟩
      constructor
      · rcases hrefused with ⟨id, hid, hmissing⟩ | ⟨id, hid, page, rfl, hbytes, hrest, hfaulty⟩ |
          ⟨-, hnone⟩
        · rw [← hlegible.ids_eq] at hid
          rcases List.mem_map.mp hid with ⟨page, hpage, rfl⟩
          rw [hlegible.bytes page hpage] at hmissing
          cases hmissing
        · have hnewest := hlegible.newest_of_torn (hlegible.mem_of_bytes hid hbytes) hrest
          rw [hpages.end_eq page hnewest] at hrest
          exact ⟨hrest, hfaulty⟩
        · exact absurd ⟨pages, hlegible⟩ hnone
      · rcases hcut with rfl | ⟨page, hid, hbytes, rfl⟩
        · exact ⟨tail, h⟩
        · by_cases hrest : page.rest = []
          · rw [Ledgers.settled_of_rest hrest]
            exact ⟨tail, h⟩
          · have hnewest := hlegible.newest_of_torn (hlegible.mem_of_bytes hid hbytes) hrest
            have hkeeps := settledAfter_keeps h hpages
            unfold Ledgers.settledAfter at hkeeps
            rw [hnewest] at hkeeps
            exact ⟨[], hkeeps⟩

end Log
end TieredStore
