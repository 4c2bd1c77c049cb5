import TieredStore.Proofs.Cache.Pieces
import TieredStore.Proofs.Table.Replaying
import TieredStore.Proofs.Tier.Objects

/-!
# Where the bytes of a table's segments are

The object of a segment is a prefix of its content that reaches as far as the
table says.  The cache has every byte behind that which is not in a pending
merge; the bytes of a pending merge are those of its batch.
-/

namespace TieredStore

theorem Segment.pendingAt?_eq_none_iff {s : Segment} {offset : Nat} :
    s.pendingAt? offset = none ↔ ∀ m ∈ s.pending, ¬ (m.offset ≤ offset ∧ offset < m.stop) := by
  unfold Segment.pendingAt? PendingMerge.covers
  rw [List.find?_eq_none]
  simp

theorem Segment.pendingAt?_of_joined {s : Segment} {m : PendingMerge} {rest : List PendingMerge}
    {offset : Nat} (hpending : s.pending = m :: rest) (hstop : m.stop ≤ offset)
    (hnone : (s.joined m).pendingAt? offset = none) : s.pendingAt? offset = none := by
  rw [pendingAt?_eq_none_iff] at hnone ⊢
  intro m' hm'
  rw [hpending] at hm'
  rcases List.mem_cons.mp hm' with hfirst | hrest
  · rw [hfirst]
    intro hin
    exact absurd hin.2 (Nat.not_lt.mpr hstop)
  · refine hnone m' ?_
    show m' ∈ s.pending.tail
    rw [hpending]
    exact hrest

theorem Cache.Faithful.moveBatch {cache : Cache} {content : Contents} (h : cache.Faithful content)
    {parent : SegmentId} {m : PendingMerge} (hne : m.batch ≠ parent)
    (hslice : Bytes.slice (content parent) m.offset m.length = content m.batch) :
    (cache.moveSegment m.batch parent m.offset).Faithful content := by
  refine h.moveSegment hne ?_
  intro start block hblock
  have hpiece := h.agrees m.batch start block hblock
  have hpos := (h.apart m.batch).nonempty hblock
  have hin := Bytes.le_of_length_slice (congrArg List.length hpiece) hpos
  rw [← hslice, Bytes.length_slice] at hin
  rw [← hslice, Bytes.slice_slice (by omega)] at hpiece
  exact hpiece

namespace Table

/-- Objects are prefixes of contents, as long as the table says, and belong to segments. -/
structure StoredIn (content : Contents) (table : Table) (tier : FlakyTier) : Prop where
  starts : ∀ {id s}, table.get? id = some s → tier.bytes s.name <+: content id
  reaches : ∀ {id s}, table.get? id = some s → s.storageLength ≤ (tier.bytes s.name).length
  owned : ∀ {name bytes}, tier.object? name = some bytes →
    ∃ id s, table.get? id = some s ∧ s.name = name

/--
A join has broken off: the object of the parent ends behind its first pending
merge, of which the tier holds the whole batch as well.
-/
def Doubled (table : Table) (tier : FlakyTier) (s : Segment) : Prop :=
  ∃ m b, s.pending.head? = some m ∧ s.storageLength = m.offset ∧
    (tier.bytes s.name).length = m.stop ∧ table.get? m.batch = some b ∧
    b.storageLength = b.length

/-- Every object ends as it should, unless joins can have broken off and this one has. -/
def EndsIn (broken : Prop) (ends : Segment → Nat → Prop) (table : Table) (tier : FlakyTier) :
    Prop :=
  ∀ id s, table.get? id = some s →
    ends s (tier.bytes s.name).length ∨ broken ∧ table.Doubled tier s

/-- No object reaches beyond what can be copied, apart from broken joins. -/
def SettledIn (broken : Prop) (table : Table) (tier : FlakyTier) : Prop :=
  table.EndsIn broken (fun s length => length ≤ s.limit) tier

/-- Every object ends where the table says, apart from broken joins. -/
def AlignedIn (broken : Prop) (table : Table) (tier : FlakyTier) : Prop :=
  table.EndsIn broken (fun s length => length = s.storageLength) tier

/-- The cache has all bytes that the tier need not have and that are not pending. -/
structure CachedIn (content : Contents) (table : Table) (cache : Cache) : Prop where
  faithful : cache.Faithful content
  mark_le : ∀ {id s}, table.get? id = some s → cache.mark id ≤ s.storageLength
  mark_fresh : ∀ {id}, table.nextId ≤ id → cache.mark id = 0
  covers : ∀ {id s}, table.get? id = some s → ∀ {o}, s.storageLength ≤ o → o < s.length →
    s.pendingAt? o = none → cache.Covers id o

variable {table : Table} {content content' : Contents} {tier after : FlakyTier} {cache : Cache}
  {id : SegmentId} {s b : Segment} {m : PendingMerge} {rest : List PendingMerge}

/-!
## Objects
-/

theorem WellFormed.bytes_eq_of_others (h : table.WellFormed) {batch other : SegmentId}
    {t : Segment} (hs : table.get? id = some s) (hb : table.get? batch = some b)
    (hother : ∀ {name}, name ≠ s.name → name ≠ b.name → after.object? name = tier.object? name)
    (ht : table.get? other = some t) (hid : other ≠ id) (hbatch : other ≠ batch) :
    after.bytes t.name = tier.bytes t.name := by
  refine FlakyTier.bytes_of_object?_eq (hother ?_ ?_)
  · intro heq
    exact hid (h.name_inj ht hs heq)
  · intro heq
    exact hbatch (h.name_inj ht hb heq)

namespace StoredIn

theorem of_same (h : table.StoredIn content tier) (hsame : after.object? = tier.object?) :
    table.StoredIn content after where
  starts := by
    intro id s hs
    rw [FlakyTier.bytes_of_object?_eq (congrFun hsame s.name)]
    exact h.starts hs
  reaches := by
    intro id s hs
    rw [FlakyTier.bytes_of_object?_eq (congrFun hsame s.name)]
    exact h.reaches hs
  owned := by
    intro name bytes hobject
    rw [hsame] at hobject
    exact h.owned hobject

theorem sets (h : table.StoredIn content tier) (hwf : table.WellFormed)
    (hs : table.get? id = some s) {value : Bytes} (hold : tier.bytes s.name <+: value)
    (hnew : value <+: content id) (hsets : tier.Sets s.name (some value) after) :
    table.StoredIn content after where
  starts := by
    intro other t ht
    by_cases hname : t.name = s.name
    · have hid := hwf.name_inj ht hs hname
      rw [hname, hsets.bytes_self, hid]
      exact hnew
    · rw [hsets.bytes_of_ne hname]
      exact h.starts ht
  reaches := by
    intro other t ht
    by_cases hname : t.name = s.name
    · have hreaches := h.reaches ht
      rw [hname] at hreaches
      rw [hname, hsets.bytes_self]
      exact Nat.le_trans hreaches hold.length_le
    · rw [hsets.bytes_of_ne hname]
      exact h.reaches ht
  owned := by
    intro name bytes hobject
    by_cases hname : name = s.name
    · exact ⟨id, s, hs, hname.symm⟩
    · rw [hsets.object?_of_ne hname] at hobject
      exact h.owned hobject

theorem touched (h : table.StoredIn content tier) (hwf : table.WellFormed)
    (hs : table.get? id = some s) (htouched : tier.Touched s.name after) :
    table.StoredIn content after := by
  rcases htouched with hsame | hsets
  · exact h.of_same hsame
  · exact h.sets hwf hs List.prefix_rfl (h.starts hs) hsets

theorem modify (h : table.StoredIn content tier) (hs : table.get? id = some s)
    {change : Segment → Segment} (hname : (change s).name = s.name)
    (hstored : (change s).storageLength ≤ (tier.bytes s.name).length)
    (hgrow : ∀ id, content id <+: content' id) :
    (table.modify id change).StoredIn content' tier where
  starts := by
    intro other t ht
    rcases changed_or_kept hs ht with ⟨rfl, rfl⟩ | ⟨-, hold⟩
    · rw [hname]
      exact (h.starts hs).trans (hgrow other)
    · exact (h.starts hold).trans (hgrow other)
  reaches := by
    intro other t ht
    rcases changed_or_kept hs ht with ⟨rfl, rfl⟩ | ⟨-, hold⟩
    · rw [hname]
      exact hstored
    · exact h.reaches hold
  owned := by
    intro name bytes hobject
    rcases h.owned hobject with ⟨other, t, ht, heq⟩
    by_cases hother : other = id
    · subst hother
      rw [hs] at ht
      cases ht
      refine ⟨other, change s, ?_, hname.trans heq⟩
      rw [get?_modify_self, hs]
      rfl
    · refine ⟨other, t, ?_, heq⟩
      rw [get?_modify_of_ne table hother]
      exact ht

theorem modify_same_storage (h : table.StoredIn content tier) (hs : table.get? id = some s)
    {change : Segment → Segment} (hname : (change s).name = s.name)
    (hstored : (change s).storageLength = s.storageLength)
    (hgrow : ∀ id, content id <+: content' id) : (table.modify id change).StoredIn content' tier :=
  h.modify hs hname (by rw [hstored]; exact h.reaches hs) hgrow

theorem object?_eq_none (h : table.StoredIn content tier) {name : String}
    (hname : name ∉ table.names) : tier.object? name = none := by
  cases hobject : tier.object? name with
  | none => rfl
  | some bytes => exact absurd (mem_names.mpr (h.owned hobject)) hname

theorem bytes_eq_nil (h : table.StoredIn content tier) {name : String}
    (hname : name ∉ table.names) : tier.bytes name = [] :=
  FlakyTier.bytes_of_missing (h.object?_eq_none hname)

theorem add (h : table.StoredIn content tier) (hconsistent : table.Consistent content)
    (hfresh : table.nextId ≤ s.id) (hname : s.name ∉ table.names) (hstored : s.storageLength = 0) :
    (table.add s).StoredIn content tier where
  starts := by
    intro other t ht
    by_cases hother : other = s.id
    · rw [hother, get?_add_self] at ht
      cases ht
      rw [h.bytes_eq_nil hname]
      exact List.nil_prefix
    · rw [get?_add_of_ne table hother] at ht
      exact h.starts ht
  reaches := by
    intro other t ht
    by_cases hother : other = s.id
    · rw [hother, get?_add_self] at ht
      cases ht
      rw [hstored]
      exact Nat.zero_le _
    · rw [get?_add_of_ne table hother] at ht
      exact h.reaches ht
  owned := by
    intro name bytes hobject
    rcases h.owned hobject with ⟨other, t, ht, heq⟩
    refine ⟨other, t, ?_, heq⟩
    rw [get?_add_of_ne table ?_]
    · exact ht
    · intro hother
      rw [hother] at ht
      exact absurd (hconsistent.id_lt ht) (Nat.not_lt.mpr hfresh)

theorem joined (h : table.StoredIn content tier) (hconsistent : table.Consistent content)
    (hwf : table.WellFormed) (hs : table.get? id = some s) (hpending : s.pending = m :: rest)
    (hb : table.get? m.batch = some b) (hstarts : after.bytes s.name <+: content id)
    (hreaches : m.stop ≤ (after.bytes s.name).length) (hbatch : after.object? b.name = none)
    (hother : ∀ {name}, name ≠ s.name → name ≠ b.name → after.object? name = tier.object? name) :
    (table.joined id m).StoredIn content after := by
  have hm : m ∈ s.pending := by
    rw [hpending]
    exact List.mem_cons_self
  have hne : id ≠ m.batch := (hconsistent.batch_ne (hconsistent.backed hs m hm)).symm
  refine { starts := ?_, reaches := ?_, owned := ?_ }
  · intro other t ht
    rcases joined_or_kept hs ht with ⟨hbatchne, ⟨rfl, rfl⟩ | ⟨hid, hold⟩⟩
    · exact hstarts
    · rw [hwf.bytes_eq_of_others hs hb hother hold hid hbatchne]
      exact h.starts hold
  · intro other t ht
    rcases joined_or_kept hs ht with ⟨hbatchne, ⟨rfl, rfl⟩ | ⟨hid, hold⟩⟩
    · refine Nat.max_le.mpr ⟨?_, hreaches⟩
      exact Nat.le_trans ((hconsistent.segment hs).stored_le_offset hm)
        (Nat.le_trans (Nat.le_add_right _ _) hreaches)
    · rw [hwf.bytes_eq_of_others hs hb hother hold hid hbatchne]
      exact h.reaches hold
  · intro name bytes hobject
    by_cases hname : name = s.name
    · exact ⟨id, s.joined m, get?_joined_parent hs hne, hname.symm⟩
    · by_cases hnameb : name = b.name
      · rw [hnameb, hbatch] at hobject
        cases hobject
      · rw [hother hname hnameb] at hobject
        rcases h.owned hobject with ⟨other, t, ht, heq⟩
        refine ⟨other, t, ?_, heq⟩
        rw [get?_joined_of_ne]
        · exact ht
        · intro hid
          rw [hid, hs] at ht
          cases ht
          exact hname heq.symm
        · intro hid
          rw [hid, hb] at ht
          cases ht
          exact hnameb heq.symm

end StoredIn

/-!
## Where objects end
-/

theorem Doubled.of_kept (h : table.Doubled tier s) {other : Table} {t : Segment}
    (hname : t.name = s.name) (hstored : t.storageLength = s.storageLength)
    (hhead : ∀ m, s.pending.head? = some m → t.pending.head? = some m)
    (hbytes : after.bytes s.name = tier.bytes s.name)
    (hbatch : ∀ m b, s.pending.head? = some m → table.get? m.batch = some b →
      b.storageLength = b.length →
      ∃ b', other.get? m.batch = some b' ∧ b'.storageLength = b'.length) :
    other.Doubled after t := by
  rcases h with ⟨m, b, hm, hoffset, hlength, hb, hcomplete⟩
  rcases hbatch m b hm hb hcomplete with ⟨b', hb', hcomplete'⟩
  refine ⟨m, b', hhead m hm, hstored.trans hoffset, ?_, hb', hcomplete'⟩
  rw [hname, hbytes]
  exact hlength

theorem Doubled.of_same_bytes (h : table.Doubled tier s)
    (hbytes : after.bytes s.name = tier.bytes s.name) : table.Doubled after s :=
  h.of_kept rfl rfl (fun _ hm => hm) hbytes fun _ b _ hb hcomplete => ⟨b, hb, hcomplete⟩

namespace EndsIn

variable {broken : Prop} {ends : Segment → Nat → Prop}

theorem of_same_bytes (h : table.EndsIn broken ends tier)
    (hsame : ∀ {id s}, table.get? id = some s → after.bytes s.name = tier.bytes s.name) :
    table.EndsIn broken ends after := by
  intro id s hs
  rcases h id s hs with hends | hdoubled
  · left
    rw [hsame hs]
    exact hends
  · exact Or.inr ⟨hdoubled.1, hdoubled.2.of_same_bytes (hsame hs)⟩

theorem of_same (h : table.EndsIn broken ends tier) (hsame : after.object? = tier.object?) :
    table.EndsIn broken ends after := by
  refine h.of_same_bytes ?_
  intro id s _
  exact FlakyTier.bytes_of_object?_eq (congrFun hsame s.name)

theorem mono (h : table.EndsIn broken ends tier) {ends' : Segment → Nat → Prop}
    (hmono : ∀ id s length, table.get? id = some s → ends s length → ends' s length) :
    table.EndsIn broken ends' tier := by
  intro id s hs
  rcases h id s hs with hends | hdoubled
  · exact Or.inl (hmono id s _ hs hends)
  · exact Or.inr hdoubled

theorem weaken (h : table.EndsIn broken ends tier) {broken' : Prop} (hbroken : broken → broken') :
    table.EndsIn broken' ends tier :=
  fun id s hs => (h id s hs).imp_right fun hdoubled => ⟨hbroken hdoubled.1, hdoubled.2⟩

theorem modify (h : table.EndsIn broken ends tier) (hconsistent : table.Consistent content)
    (hs : table.get? id = some s) {change : Segment → Segment}
    (hname : (change s).name = s.name) (hstored : (change s).storageLength = s.storageLength)
    (hends : ∀ length, ends s length → ends (change s) length)
    (hhead : ∀ m, s.pending.head? = some m → (change s).pending.head? = some m)
    (hmerged : s.merged = true → (change s).length = s.length) :
    (table.modify id change).EndsIn broken ends tier := by
  have hself : (table.modify id change).get? id = some (change s) := by
    rw [get?_modify_self, hs]
    rfl
  have hbatch : ∀ {other t}, table.get? other = some t → ∀ m b, t.pending.head? = some m →
      table.get? m.batch = some b → b.storageLength = b.length →
      ∃ b', (table.modify id change).get? m.batch = some b' ∧ b'.storageLength = b'.length := by
    intro other t ht m b hm hb hcomplete
    by_cases hid : m.batch = id
    · rw [hid, hs] at hb
      cases hb
      rcases hconsistent.backed ht m (List.mem_of_mem_head? hm) with ⟨b, hb, -, hmark, -⟩
      rw [hid, hs] at hb
      cases hb
      refine ⟨change s, by rw [hid]; exact hself, ?_⟩
      rw [hstored, hmerged hmark]
      exact hcomplete
    · exact ⟨b, by rw [get?_modify_of_ne table hid]; exact hb, hcomplete⟩
  intro other t ht
  rcases changed_or_kept hs ht with ⟨rfl, rfl⟩ | ⟨-, ht⟩
  · rcases h other s hs with hold | hdoubled
    · rw [hname]
      exact Or.inl (hends _ hold)
    · exact Or.inr ⟨hdoubled.1, hdoubled.2.of_kept hname hstored hhead rfl (hbatch hs)⟩
  · rcases h other t ht with hold | hdoubled
    · exact Or.inl hold
    · exact Or.inr ⟨hdoubled.1, hdoubled.2.of_kept rfl rfl (fun _ hm => hm) rfl (hbatch ht)⟩

theorem add (h : table.EndsIn broken ends tier) (hfree : table.get? s.id = none)
    (hbytes : tier.bytes s.name = []) (hends : ends s 0) :
    (table.add s).EndsIn broken ends tier := by
  intro other t ht
  by_cases hother : other = s.id
  · rw [hother, get?_add_self] at ht
    cases ht
    rw [hbytes]
    exact Or.inl hends
  · rw [get?_add_of_ne table hother] at ht
    rcases h other t ht with hold | hdoubled
    · exact Or.inl hold
    · refine Or.inr ⟨hdoubled.1, hdoubled.2.of_kept rfl rfl (fun _ hm => hm) rfl ?_⟩
      intro m b _ hb hcomplete
      refine ⟨b, ?_, hcomplete⟩
      rw [get?_add_of_ne table]
      · exact hb
      · intro heq
        rw [heq, hfree] at hb
        cases hb

theorem joined (h : table.EndsIn broken ends tier) (hwf : table.WellFormed)
    (hconsistent : table.Consistent content) (hs : table.get? id = some s)
    (hpending : s.pending = m :: rest) (hb : table.get? m.batch = some b)
    (hends : ends (s.joined m) (after.bytes s.name).length)
    (hother : ∀ {name}, name ≠ s.name → name ≠ b.name → after.object? name = tier.object? name) :
    (table.joined id m).EndsIn broken ends after := by
  intro other t ht
  rcases joined_or_kept hs ht with ⟨hbatch, ⟨rfl, rfl⟩ | ⟨hid, ht⟩⟩
  · exact Or.inl hends
  · have hbytes := hwf.bytes_eq_of_others hs hb hother ht hid hbatch
    rcases h other t ht with hkept | hdoubled
    · left
      rw [hbytes]
      exact hkept
    · refine Or.inr ⟨hdoubled.1, hdoubled.2.of_kept rfl rfl (fun _ hm => hm) hbytes ?_⟩
      intro m' b' hm' hb' hcomplete
      have hapart := hconsistent.get?_joined_apart hs hpending ht hid
        (List.mem_of_mem_head? hm')
      exact ⟨b', hapart.2.trans hb', hcomplete⟩

end EndsIn

theorem AlignedIn.settledIn {broken : Prop} (h : table.AlignedIn broken tier)
    (hconsistent : table.Consistent content) : table.SettledIn broken tier := by
  refine EndsIn.mono h ?_
  intro id s length hs heq
  rw [heq]
  exact (hconsistent.segment hs).stored_le

/-!
## Cached bytes
-/

namespace CachedIn

theorem thins (h : table.CachedIn content cache) {cache' : Cache} {bound : SegmentId → Nat}
    (hthins : Cache.Thins bound cache cache')
    (hbound : ∀ {id s}, table.get? id = some s → bound id ≤ s.storageLength)
    (hmark : ∀ id, cache'.mark id = cache.mark id) : table.CachedIn content cache' where
  faithful := hthins.faithful h.faithful
  mark_le := by
    intro id s hs
    rw [hmark]
    exact h.mark_le hs
  mark_fresh := by
    intro id hle
    rw [hmark]
    exact h.mark_fresh hle
  covers := by
    intro id s hs o hle hlt hpending
    exact hthins.covers (h.covers hs hle hlt hpending) (Nat.le_trans (hbound hs) hle)

theorem put (h : table.CachedIn content cache) {offset : Nat} {data : Bytes}
    (hdata : Bytes.slice (content id) offset data.length = data) :
    table.CachedIn content (cache.put id offset data) where
  faithful := h.faithful.put hdata
  mark_le := by
    intro other t ht
    rw [Cache.mark_put]
    exact h.mark_le ht
  mark_fresh := by
    intro other hle
    rw [Cache.mark_put]
    exact h.mark_fresh hle
  covers := by
    intro other t ht o hle hlt hpending
    exact h.faithful.covers_put (Nat.le_trans (h.mark_le ht) hle)
      (Or.inl (h.covers ht hle hlt hpending))

theorem modify (h : table.CachedIn content cache) (hs : table.get? id = some s) {cache' : Cache}
    {change : Segment → Segment} (hfaithful : cache'.Faithful content')
    (hmark : ∀ id, cache'.mark id = cache.mark id)
    (hkeeps : ∀ {id o}, cache.mark id ≤ o → cache.Covers id o → cache'.Covers id o)
    (hstored : s.storageLength ≤ (change s).storageLength)
    (hcovers : ∀ {o}, (change s).storageLength ≤ o → o < (change s).length →
      (change s).pendingAt? o = none → cache'.Covers id o) :
    (table.modify id change).CachedIn content' cache' where
  faithful := hfaithful
  mark_le := by
    intro other t ht
    rw [hmark]
    rcases changed_or_kept hs ht with ⟨rfl, rfl⟩ | ⟨-, hold⟩
    · exact Nat.le_trans (h.mark_le hs) hstored
    · exact h.mark_le hold
  mark_fresh := by
    intro other hle
    rw [hmark]
    exact h.mark_fresh hle
  covers := by
    intro other t ht o hle hlt hpending
    rcases changed_or_kept hs ht with ⟨rfl, rfl⟩ | ⟨-, hold⟩
    · exact hcovers hle hlt hpending
    · exact hkeeps (Nat.le_trans (h.mark_le hold) hle) (h.covers hold hle hlt hpending)

theorem modify_same_bytes (h : table.CachedIn content cache) (hs : table.get? id = some s)
    {change : Segment → Segment} (hstored : (change s).storageLength = s.storageLength)
    (hlength : (change s).length = s.length) (hpending : (change s).pending = s.pending) :
    (table.modify id change).CachedIn content cache := by
  refine h.modify hs h.faithful (fun _ => rfl) (fun _ hcovers => hcovers)
    (Nat.le_of_eq hstored.symm) ?_
  intro o hle hlt hnone
  rw [hstored] at hle
  rw [hlength] at hlt
  unfold Segment.pendingAt? at hnone
  rw [hpending] at hnone
  exact h.covers hs hle hlt hnone

theorem add (h : table.CachedIn content cache) (hfresh : table.nextId ≤ s.id)
    (hlength : s.length = 0) : (table.add s).CachedIn content cache where
  faithful := h.faithful
  mark_le := by
    intro other t ht
    by_cases hother : other = s.id
    · rw [hother, h.mark_fresh hfresh]
      exact Nat.zero_le _
    · rw [get?_add_of_ne table hother] at ht
      exact h.mark_le ht
  mark_fresh := by
    intro other hle
    exact h.mark_fresh (Nat.le_trans (Nat.le_max_left _ _) hle)
  covers := by
    intro other t ht o hle hlt hpending
    by_cases hother : other = s.id
    · rw [hother, get?_add_self] at ht
      cases ht
      rw [hlength] at hlt
      exact absurd hlt (Nat.not_lt_zero _)
    · rw [get?_add_of_ne table hother] at ht
      exact h.covers ht hle hlt hpending

theorem truncateBefore (h : table.CachedIn content cache) (hs : table.get? id = some s)
    {offset : Nat} (hoffset : offset ≤ s.storageLength) :
    table.CachedIn content (cache.truncateBefore id offset) := by
  let bound : SegmentId → Nat := fun other => if other = id then offset else 0
  have hthins : Cache.Thins bound cache (cache.truncateBefore id offset) :=
    Cache.thins_truncateBefore (Nat.le_of_eq (if_pos rfl).symm)
  refine h.thins hthins ?_ ?_
  · intro other t ht
    by_cases hother : other = id
    · subst hother
      rw [hs] at ht
      cases ht
      show (if other = other then _ else _) ≤ _
      rw [if_pos rfl]
      exact hoffset
    · show (if other = id then _ else _) ≤ _
      rw [if_neg hother]
      exact Nat.zero_le _
  · intro other
    exact Cache.mark_truncateBefore

theorem markFlushed (h : table.CachedIn content cache) (hconsistent : table.Consistent content)
    (hs : table.get? id = some s) {stored : Nat} (hstored : stored ≤ s.storageLength) :
    table.CachedIn content (cache.markFlushed id stored) := by
  have hmark : ∀ {other t}, table.get? other = some t →
      (cache.markFlushed id stored).mark other ≤ t.storageLength := by
    intro other t ht
    by_cases hother : other = id
    · subst hother
      rw [hs] at ht
      cases ht
      refine Nat.le_trans Cache.mark_markFlushed_le ?_
      exact Nat.max_le.mpr ⟨h.mark_le hs, hstored⟩
    · rw [Cache.mark_markFlushed_of_ne hother]
      exact h.mark_le ht
  have hthins : Cache.Thins (cache.markFlushed id stored).mark cache
      (cache.markFlushed id stored) := Cache.thins_markFlushed fun _ => Nat.le_refl _
  refine { faithful := hthins.faithful h.faithful, mark_le := hmark, mark_fresh := ?_,
           covers := ?_ }
  · intro other hle
    have hother : other ≠ id := by
      intro heq
      rw [heq] at hle
      exact absurd (hconsistent.id_lt hs) (Nat.not_lt.mpr hle)
    rw [Cache.mark_markFlushed_of_ne hother]
    exact h.mark_fresh hle
  · intro other t ht o hle hlt hpending
    exact hthins.covers (h.covers ht hle hlt hpending) (Nat.le_trans (hmark ht) hle)

/-- Finishing a merge makes the blocks of the batch blocks of the parent. -/
theorem joined (h : table.CachedIn content cache) (hconsistent : table.Consistent content)
    (hs : table.get? id = some s) (hpending : s.pending = m :: rest) :
    (table.joined id m).CachedIn content
      ((cache.moveSegment m.batch id m.offset).markFlushed id m.stop) := by
  have hm : m ∈ s.pending := by
    rw [hpending]
    exact List.mem_cons_self
  have hbacked := hconsistent.backed hs m hm
  have hne : m.batch ≠ id := hconsistent.batch_ne hbacked
  rcases hbacked with ⟨b, hb, -, -, hlength, hslice⟩
  let moved := cache.moveSegment m.batch id m.offset
  have hmovedMark : ∀ {other}, other ≠ m.batch → moved.mark other = cache.mark other :=
    fun hother => Cache.mark_moveSegment hne hother
  have hfaithful : moved.Faithful content := h.faithful.moveBatch hne hslice
  have hthins : Cache.Thins (moved.markFlushed id m.stop).mark moved
      (moved.markFlushed id m.stop) := Cache.thins_markFlushed fun _ => Nat.le_refl _
  have hmark : ∀ {other t}, (table.joined id m).get? other = some t →
      (moved.markFlushed id m.stop).mark other ≤ t.storageLength := by
    intro other t ht
    rcases joined_or_kept hs ht with ⟨hbatch, ⟨rfl, rfl⟩ | ⟨hid, hold⟩⟩
    · refine Nat.le_trans Cache.mark_markFlushed_le ?_
      rw [hmovedMark hbatch]
      exact Nat.max_le.mpr ⟨Nat.le_trans (h.mark_le hs) (Nat.le_max_left _ _),
        Nat.le_max_right _ _⟩
    · rw [Cache.mark_markFlushed_of_ne hid, hmovedMark hbatch]
      exact h.mark_le hold
  refine { faithful := hthins.faithful hfaithful, mark_le := hmark, mark_fresh := ?_,
           covers := ?_ }
  · intro other hle
    have hid : other ≠ id := by
      intro heq
      rw [heq] at hle
      exact absurd (hconsistent.id_lt hs) (Nat.not_lt.mpr hle)
    have hbatch : other ≠ m.batch := by
      intro heq
      rw [heq] at hle
      exact absurd (hconsistent.id_lt hb) (Nat.not_lt.mpr hle)
    rw [Cache.mark_markFlushed_of_ne hid, hmovedMark hbatch]
    exact h.mark_fresh hle
  · intro other t ht o hle hlt hnone
    refine hthins.covers ?_ (Nat.le_trans (hmark ht) hle)
    rcases joined_or_kept hs ht with ⟨hbatch, hcase⟩
    refine h.faithful.covers_moveSegment hne hbatch ?_
    rcases hcase with ⟨rfl, rfl⟩ | ⟨-, hold⟩
    · exact h.covers hs (Nat.le_trans (Nat.le_max_left _ _) hle) hlt
        (Segment.pendingAt?_of_joined hpending (Nat.le_trans (Nat.le_max_right _ _) hle) hnone)
    · exact h.covers hold hle hlt hnone

end CachedIn
end Table
end TieredStore
