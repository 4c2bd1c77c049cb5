import TieredStore.Proofs.Log.Reading

/-!
# Where reading starts

A reader that starts at the newest checkpoint comes upon that checkpoint first, for
the sequence numbers of the records before it are smaller.  Without a checkpoint
that starts a ledger it starts with the first record of all, or with the oldest
that is left if that is a later one.
-/

namespace TieredStore

open SequenceNumber StoredRecord

namespace Page

variable {pages : List Page}

theorem map_seq_recordsOf (pages : List Page) :
    (recordsOf pages).map (·.seq) = pages.flatMap Page.seqs := List.map_flatMap

theorem filter_of_split {α : Type} {seqOf : α → SequenceNumber} {before after : List α} {one : α}
    (h : Consecutive ((before ++ one :: after).map seqOf)) :
    (before ++ one :: after).filter (fun other => seqOf one ≤ seqOf other) = one :: after := by
  have hchain : ((before ++ one :: after).map seqOf).IsChain (· < ·) := by
    apply List.IsChain.imp _ h
    intro first second hnext
    rw [hnext]
    exact Nat.lt_succ_self first
  have hpairs := List.pairwise_map.mp (List.isChain_iff_pairwise.mp hchain)
  rcases List.pairwise_append.mp hpairs with ⟨-, hend, hcross⟩
  have hbefore : before.filter (fun other => seqOf one ≤ seqOf other) = [] := by
    apply List.filter_eq_nil_iff.mpr
    intro other hother
    have hlt := hcross other hother one List.mem_cons_self
    simpa using hlt
  have hafter : (one :: after).filter (fun other => seqOf one ≤ seqOf other) = one :: after := by
    apply List.filter_eq_self.mpr
    intro other hother
    rcases List.mem_cons.mp hother with rfl | hmem
    · simp
    · simpa using Nat.le_of_lt (List.rel_of_pairwise_cons hend hmem)
  rw [List.filter_append, hbefore, hafter, List.nil_append]

theorem findSome?_first (pages : List Page) :
    (pages.map Page.info).findSome? (·.first) = (recordsOf pages).head?.map (·.seq) := by
  induction pages with
  | nil => rfl
  | cons page rest ih =>
      have hfirst : page.info.first = page.records.head?.map (·.seq) := List.head?_map
      unfold recordsOf at ih ⊢
      rw [List.map_cons, List.findSome?_cons, ih, hfirst, List.flatMap_cons, List.head?_append]
      cases page.records.head? with
      | none => rfl
      | some record => rfl

theorem exists_split {page : Page} (hpage : page ∈ pages)
    (hstarts : page.info.startsWithCheckpoint = true) :
    ∃ before record after, recordsOf pages = before ++ record :: after ∧
      record.isCheckpoint = true ∧ page.info.first = some record.seq := by
  rcases List.append_of_mem hpage with ⟨older, newer, rfl⟩
  have hany : page.records.head?.any (·.isCheckpoint) = true := hstarts
  cases hrecords : page.records with
  | nil =>
      rw [hrecords] at hany
      cases hany
  | cons record more =>
      rw [hrecords] at hany
      refine ⟨recordsOf older, record, more ++ recordsOf newer, ?_, hany, ?_⟩
      · unfold recordsOf
        rw [List.flatMap_append, List.flatMap_cons, hrecords, List.cons_append]
      · show page.seqs.head? = _
        unfold seqs
        rw [hrecords]
        rfl

end Page

namespace Log

variable {pages : List Page} {ledgers : Ledgers} {config : Config}

theorem latestCheckpoint_ofPages (config : Config) (ledgers : Ledgers) (pages : List Page) :
    (∃ before record after, Page.recordsOf pages = before ++ record :: after ∧
        record.isCheckpoint = true ∧
        (ofPages config ledgers pages).latestCheckpoint? = some record.seq ∧
        ∃ page ∈ pages, page.info.startsWithCheckpoint = true) ∨
      (ofPages config ledgers pages).latestCheckpoint? = none ∧
        ∀ page ∈ pages, page.info.startsWithCheckpoint = false := by
  have hlatest : (ofPages config ledgers pages).latestCheckpoint? =
      ((pages.map Page.info).reverse.find? (·.startsWithCheckpoint)).bind (·.first) := rfl
  rw [hlatest]
  cases hfind : (pages.map Page.info).reverse.find? (·.startsWithCheckpoint) with
  | none =>
      refine Or.inr ⟨rfl, ?_⟩
      intro page hpage
      have hnot := List.find?_eq_none.mp hfind page.info
        (List.mem_reverse.mpr (List.mem_map_of_mem hpage))
      simpa using hnot
  | some info =>
      have hmem := List.mem_reverse.mp (List.mem_of_find?_eq_some hfind)
      rcases List.mem_map.mp hmem with ⟨page, hpage, rfl⟩
      have hstarts : page.info.startsWithCheckpoint = true :=
        @List.find?_some _ LedgerInfo.startsWithCheckpoint _ _ hfind
      rcases Page.exists_split hpage hstarts with ⟨before, record, after, hsplit, hkind, hfirst⟩
      exact Or.inl ⟨before, record, after, hsplit, hkind, hfirst, page, hpage, hstarts⟩

theorem head?_of_map_mark {applied : List LogRecord} {records : List StoredRecord}
    (h : applied.map (fun entry => (entry.1, entry.2.isCheckpoint)) =
      records.map (fun record => (record.seq, record.isCheckpoint))) :
    (∀ entry ∈ applied.head?, entry.1 = .first ∨ entry.2.isCheckpoint = true) ↔
      ∀ record ∈ records.head?, record.seq = .first ∨ record.isCheckpoint = true := by
  cases applied with
  | nil =>
      rw [List.map_eq_nil_iff.mp h.symm]
      constructor
      · intro _ record hrecord
        cases hrecord
      · intro _ entry hentry
        cases hentry
  | cons entry rest =>
      rcases List.map_eq_cons_iff.mp h.symm with ⟨record, more, rfl, hmark, -⟩
      rcases Prod.mk.inj hmark with ⟨hseq, hkind⟩
      simp only [List.head?_cons, Option.mem_some_iff, forall_eq']
      rw [← hseq, ← hkind]

theorem head?_not_checkpoint (hnone : ∀ page ∈ pages, page.info.startsWithCheckpoint = false) :
    ∀ record ∈ (Page.recordsOf pages).head?, record.isCheckpoint = false := by
  induction pages with
  | nil =>
      intro record hrecord
      cases hrecord
  | cons page rest ih =>
      intro record hrecord
      unfold Page.recordsOf at hrecord ih
      rw [List.flatMap_cons] at hrecord
      cases hpage : page.records with
      | nil =>
          rw [hpage] at hrecord
          exact ih (fun other hother => hnone other (List.mem_cons_of_mem _ hother)) record hrecord
      | cons first others =>
          rw [hpage] at hrecord
          have hstarts := hnone page List.mem_cons_self
          unfold Page.info at hstarts
          rw [hpage] at hstarts
          cases hrecord
          exact hstarts

theorem head?_filter_first {records : List StoredRecord}
    (h : Consecutive (records.map (·.seq)))
    (hhead : ∀ record ∈ records.head?, record.isCheckpoint = false) :
    (∀ record ∈ (records.filter (fun r => first ≤ r.seq)).head?,
        record.seq = first ∨ record.isCheckpoint = true) ↔
      ∀ oldest, records.head?.map (·.seq) = some oldest → oldest ≤ first := by
  cases records with
  | nil =>
      constructor
      · intro _ oldest holdest
        cases holdest
      · intro _ record hrecord
        cases hrecord
  | cons record more =>
      have hplain : record.isCheckpoint = false := hhead record rfl
      simp only [List.head?_cons, Option.map_some, Option.some.injEq, forall_eq']
      by_cases hzero : record.seq = 0
      · -- the record without a position is passed over, and the next one is the first
        have hnot : ¬ first ≤ record.seq := by rw [hzero]; decide
        rw [List.filter_cons_of_neg (by simpa using hnot)]
        constructor
        · intro _
          rw [hzero]
          exact Nat.zero_le _
        · intro _ found hfound
          cases more with
          | nil => cases hfound
          | cons second rest =>
              have hsecond : second.seq = first := by
                have hnext : second.seq = record.seq.next := (List.isChain_cons_cons.mp h).1
                rw [hnext, hzero]
                rfl
              have hsplit := @Page.filter_of_split _ _ [record] rest second h
              rw [List.singleton_append, hsecond,
                List.filter_cons_of_neg (by simpa using hnot)] at hsplit
              rw [hsplit] at hfound
              cases hfound
              exact Or.inl hsecond
      · have hsplit := @Page.filter_of_split _ _ [] more record h
        have hall : (record :: more).filter (fun r => first ≤ r.seq) = record :: more := by
          apply List.filter_eq_self.mpr
          intro r hr
          have hle := List.filter_eq_self.mp hsplit r hr
          have hpos : first ≤ record.seq := Nat.pos_of_ne_zero hzero
          simpa using Nat.le_trans hpos (of_decide_eq_true hle)
        rw [hall]
        simp only [List.head?_cons, Option.mem_some_iff, forall_eq', hplain]
        have hpos : first ≤ record.seq := Nat.pos_of_ne_zero hzero
        constructor
        · rintro (hfirst | hfalse)
          · exact Nat.le_of_eq hfirst
          · cases hfalse
        · intro hle
          exact Or.inl (Nat.le_antisymm hle hpos)

/--
Reading from the newest checkpoint on starts with the first record or with a
checkpoint exactly if there is a checkpoint or the first record is still there.
-/
theorem starts_iff (h : ledgers.Legible pages) {applied : List LogRecord}
    (hread : (ofPages config ledgers pages).records
      ((ofPages config ledgers pages).latestCheckpoint?.getD first) = applied.map .ok) :
    (∀ record ∈ applied.head?, record.1 = first ∨ record.2.isCheckpoint = true) ↔
      (∃ info ∈ pages.map Page.info, info.startsWithCheckpoint = true) ∨
        ∀ oldest, (pages.map Page.info).findSome? (·.first) = some oldest → oldest ≤ first := by
  have hconsecutive := h.consecutive
  rw [List.nil_append, ← Page.map_seq_recordsOf] at hconsecutive
  rw [head?_of_map_mark (map_mark_records h hread), Page.findSome?_first]
  rcases latestCheckpoint_ofPages config ledgers pages with
    ⟨before, record, after, hsplit, hkind, hlatest, page, hpage, hstarts⟩ | ⟨hlatest, hnone⟩
  · rw [hlatest, Option.getD_some, hsplit]
    rw [hsplit] at hconsecutive
    rw [Page.filter_of_split hconsecutive]
    constructor
    · intro _
      exact Or.inl ⟨page.info, List.mem_map_of_mem hpage, hstarts⟩
    · rintro - found hfound
      cases hfound
      exact Or.inr hkind
  · rw [hlatest, Option.getD_none, head?_filter_first hconsecutive (head?_not_checkpoint hnone)]
    constructor
    · exact Or.inr
    · rintro (⟨info, hinfo, hstarts⟩ | holdest)
      · rcases List.mem_map.mp hinfo with ⟨page, hpage, rfl⟩
        rw [hnone page hpage] at hstarts
        cases hstarts
      · exact holdest

end Log
end TieredStore
