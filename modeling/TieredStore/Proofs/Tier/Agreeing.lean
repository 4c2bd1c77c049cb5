import TieredStore.Proofs.Tier.Failing
import TieredStore.Tier.File

/-!
# Memory and files agree

A tier of files holds the same objects as one in memory when each object is the content
of the file of its name and there are no other files.  Names that differ have files that
differ.  Calls then have the same answers and leave the same objects, as long as writes
go to the ends of objects and no object is joined to itself: memory takes the object out
before it adds the bytes, so that it is there again, while files add the bytes first and
take the object out at last.

A tier of files agrees where the file system takes the names.  What it would do with a
name that no file can have is said by the calls of a tier that takes every name.
-/

namespace TieredStore
namespace FileTier

variable {tier : FileTier} {name target source : String} {offset : Nat} {data : Bytes}

/-! ## Names of files -/

theorem escapeChar_cases (c : Char) :
    c = '%' ∧ escapeChar c = ['%', '2', '5'] ∨ c = '/' ∧ escapeChar c = ['%', '2', 'F'] ∨
      c = '\\' ∧ escapeChar c = ['%', '5', 'C'] ∨ c ≠ '%' ∧ escapeChar c = [c] := by
  unfold escapeChar
  by_cases hpercent : c = '%'
  · exact Or.inl ⟨hpercent, if_pos hpercent⟩
  · rw [if_neg hpercent]
    by_cases hslash : c = '/'
    · exact Or.inr (Or.inl ⟨hslash, if_pos hslash⟩)
    · rw [if_neg hslash]
      by_cases hback : c = '\\'
      · exact Or.inr (Or.inr (Or.inl ⟨hback, if_pos hback⟩))
      · exact Or.inr (Or.inr (Or.inr ⟨hpercent, if_neg hback⟩))

theorem escapeChar_ne_nil (c : Char) : escapeChar c ≠ [] := by
  rcases escapeChar_cases c with ⟨-, hc⟩ | ⟨-, hc⟩ | ⟨-, hc⟩ | ⟨-, hc⟩
  all_goals
    rw [hc]
    exact List.cons_ne_nil _ _

/-- What a character is written as tells which one it is and where the next one starts. -/
theorem escapeChar_append_inj {c d : Char} {cs ds : List Char}
    (h : escapeChar c ++ cs = escapeChar d ++ ds) : c = d ∧ cs = ds := by
  rcases escapeChar_cases c with ⟨rfl, hc⟩ | ⟨rfl, hc⟩ | ⟨rfl, hc⟩ | ⟨hplain, hc⟩
  all_goals
    rcases escapeChar_cases d with ⟨rfl, hd⟩ | ⟨rfl, hd⟩ | ⟨rfl, hd⟩ | ⟨hplain', hd⟩
    all_goals
      rw [hc] at h
      grind

theorem escape_inj {cs ds : List Char} (h : escape cs = escape ds) : cs = ds := by
  have hne : ∀ (c : Char) (rest : List Char), escape (c :: rest) ≠ [] := by
    intro c rest hnil
    exact escapeChar_ne_nil c (List.append_eq_nil_iff.mp hnil).1
  induction cs generalizing ds with
  | nil =>
      cases ds with
      | nil => rfl
      | cons d rest => exact absurd h.symm (hne d rest)
  | cons c cs ih =>
      cases ds with
      | nil => exact absurd h (hne c cs)
      | cons d ds =>
          have hheads : escapeChar c ++ escape cs = escapeChar d ++ escape ds := h
          rcases escapeChar_append_inj hheads with ⟨rfl, hrest⟩
          rw [ih hrest]

theorem toList_fileName (name : String) :
    (fileName name).toList = escape name.toList ++ ".seg".toList := by
  unfold fileName
  rw [String.toList_append, String.toList_ofList]

theorem fileName_inj {other : String} : fileName name = fileName other ↔ name = other := by
  constructor
  · intro h
    have hlists := congrArg String.toList h
    rw [toList_fileName, toList_fileName] at hlists
    exact String.toList_inj.mp (escape_inj (List.append_cancel_right hlists))
  · intro h
    rw [h]

/-! ## Objects -/

def object? (tier : FileTier) (name : String) : Option Bytes := tier.files.get? (fileName name)

def bytes (tier : FileTier) (name : String) : Bytes := (tier.object? name).getD []

def stored (tier : FileTier) (name : String) (bytes : Bytes) : FileTier :=
  { tier with files := tier.files.set (fileName name) bytes }

def dropped (tier : FileTier) (name : String) : FileTier :=
  { tier with files := tier.files.erase (fileName name) }

theorem object?_stored (tier : FileTier) (name other : String) (bytes : Bytes) :
    (tier.stored name bytes).object? other =
      if other = name then some bytes else tier.object? other := by
  by_cases h : other = name
  · rw [if_pos h, h]
    exact NameMap.get?_set_self _ _ _
  · rw [if_neg h]
    exact NameMap.get?_set_of_ne _ (fun hfiles => h (fileName_inj.mp hfiles)) _

theorem object?_dropped (tier : FileTier) (name other : String) :
    (tier.dropped name).object? other = if other = name then none else tier.object? other := by
  unfold object? dropped
  rw [NameMap.get?_erase]
  simp only [fileName_inj]

theorem bytes_of_object? (h : tier.object? name = some data) : tier.bytes name = data := by
  unfold bytes
  rw [h]
  rfl

theorem getD_length_object? (tier : FileTier) (name : String) :
    ((tier.object? name).map (·.length)).getD 0 = (tier.bytes name).length := by
  unfold bytes
  cases tier.object? name with
  | none => rfl
  | some bytes => rfl

/-! ## What each call does where the files are found -/

section

variable {find : String → TierM FileTier String}

def Finds (find : String → TierM FileTier String) (name : String) : Prop :=
  find name = pure (fileName name)

theorem length_eq_of_finds (h : Finds find name) :
    FileTier.length find name =
      (do return ((← (get : TierM FileTier FileTier)).object? name).map (·.length)) := by
  unfold FileTier.length
  rw [h, pure_bind]
  rfl

theorem outcome_read_missing (hfind : Finds find name) (h : tier.object? name = none)
    (offset length : Nat) :
    (TierCall.read name offset length).outcome (calls find) tier =
      (.error (.notFound name), tier) := by
  show TierAnswer.ending _ ((read find name offset length).run tier) = _
  unfold read
  rw [hfind, pure_bind, EStateM.run_bind, EStateM.run_get]
  unfold object? at h
  simp only [h]
  rfl

theorem outcome_read_found (hfind : Finds find name) (h : tier.object? name = some data)
    (offset length : Nat) :
    (TierCall.read name offset length).outcome (calls find) tier =
      (if data.length < offset + length then
        .error (.readPastEnd offset length data.length)
      else .ok (.bytes (data.slice offset length)), tier) := by
  show TierAnswer.ending _ ((read find name offset length).run tier) = _
  unfold read
  rw [hfind, pure_bind, EStateM.run_bind, EStateM.run_get]
  unfold object? at h
  simp only [h]
  split
  · rfl
  · rfl

theorem run_write_at_end (hfind : Finds find name) (h : (tier.bytes name).length = offset)
    (data : Bytes) :
    (write find name offset data).run tier =
      .ok (offset + data.length) (tier.stored name (tier.bytes name ++ data)) := by
  have hlength := (tier.getD_length_object? name).trans h
  unfold write
  rw [length_eq_of_finds hfind, bind_assoc, EStateM.run_bind, EStateM.run_get]
  simp only [pure_bind]
  rw [if_neg (fun hne => hne hlength), hfind, pure_bind, hlength]
  rfl

theorem outcome_write_at_end (hfind : Finds find name) (h : (tier.bytes name).length = offset)
    (data : Bytes) :
    (TierCall.write name offset data).outcome (calls find) tier =
      (.ok (.length (offset + data.length)), tier.stored name (tier.bytes name ++ data)) := by
  show TierAnswer.ending _ ((write find name offset data).run tier) = _
  rw [run_write_at_end hfind h]
  rfl

theorem outcome_concat_missing (hfind : Finds find source) (h : tier.object? source = none) :
    (TierCall.concat target source).outcome (calls find) tier =
      (.error (.notFound source), tier) := by
  show TierAnswer.ending _ ((concat find target source).run tier) = _
  unfold concat
  rw [hfind, pure_bind, EStateM.run_bind, EStateM.run_get]
  unfold object? at h
  simp only [h]
  rfl

theorem outcome_concat_found (htarget : Finds find target) (hsource : Finds find source)
    (h : tier.object? source = some data) :
    (TierCall.concat target source).outcome (calls find) tier =
      (.ok (.length ((tier.bytes target).length + data.length)),
        (tier.stored target (tier.bytes target ++ data)).dropped source) := by
  show TierAnswer.ending _ ((concat find target source).run tier) = _
  unfold concat
  rw [hsource, pure_bind, EStateM.run_bind, EStateM.run_get]
  unfold object? at h
  simp only [h]
  rw [length_eq_of_finds htarget, bind_assoc, EStateM.run_bind, EStateM.run_get]
  simp only [pure_bind, getD_length_object?]
  rw [EStateM.run_bind, run_write_at_end htarget rfl]
  rfl

theorem outcome_length (hfind : Finds find name) (tier : FileTier) :
    (TierCall.length name).outcome (calls find) tier =
      (.ok (.found ((tier.object? name).map (·.length))), tier) := by
  show TierAnswer.ending _ ((FileTier.length find name).run tier) = _
  rw [length_eq_of_finds hfind]
  rfl

theorem outcome_delete_missing (hfind : Finds find name) (h : tier.object? name = none) :
    (TierCall.delete name).outcome (calls find) tier = (.error (.notFound name), tier) := by
  have hnone : ¬ tier.files.contains (fileName name) = true := by
    show ¬ (tier.object? name).isSome = true
    rw [h]
    exact Bool.false_ne_true
  show TierAnswer.ending _ ((delete find name).run tier) = _
  unfold delete
  rw [hfind, pure_bind, EStateM.run_bind, EStateM.run_get]
  simp only
  rw [if_neg hnone]
  rfl

theorem outcome_delete_found (hfind : Finds find name) (h : tier.object? name = some data) :
    (TierCall.delete name).outcome (calls find) tier = (.ok .done, tier.dropped name) := by
  have hsome : tier.files.contains (fileName name) = true := by
    show (tier.object? name).isSome = true
    rw [h]
    rfl
  show TierAnswer.ending _ ((delete find name).run tier) = _
  unfold delete
  rw [hfind, pure_bind, EStateM.run_bind, EStateM.run_get]
  simp only
  rw [if_pos hsome]
  rfl

end

end FileTier

/-! ## Two tiers side by side -/

namespace TierCall

def names : TierCall → List String
  | .read name _ _ | .write name _ _ | .length name | .delete name => [name]
  | .concat target source => [target, source]

end TierCall

/-- The objects in memory are those in the files, and there are no other files. -/
structure SameObjects (memory : MemoryTier) (files : FileTier) : Prop where
  object?_eq : ∀ name, files.object? name = memory.contents? name
  exists_name : ∀ file, files.files.get? file ≠ none → ∃ name, file = FileTier.fileName name

namespace SameObjects

variable {memory after : MemoryTier} {files : FileTier} {name : String}

theorem empty : SameObjects {} {} where
  object?_eq _ := rfl
  exists_name _ h := absurd rfl h

theorem congr (h : SameObjects memory files)
    (hsame : ∀ name, after.contents? name = memory.contents? name) : SameObjects after files where
  object?_eq name := (h.object?_eq name).trans (hsame name).symm
  exists_name := h.exists_name

theorem bytes_eq (h : SameObjects memory files) (name : String) :
    files.bytes name = memory.bytes name :=
  congrArg (·.getD []) (h.object?_eq name)

theorem stored (h : SameObjects memory files) (name : String) (bytes : Bytes) :
    SameObjects (memory.stored name bytes) (files.stored name bytes) where
  object?_eq other := by
    rw [FileTier.object?_stored, MemoryTier.contents?_stored, h.object?_eq]
  exists_name file hfile := by
    by_cases heq : file = FileTier.fileName name
    · exact ⟨name, heq⟩
    · unfold FileTier.stored at hfile
      rw [NameMap.get?_set_of_ne _ heq] at hfile
      exact h.exists_name file hfile

theorem dropped (h : SameObjects memory files) (name : String) :
    SameObjects (memory.dropped name) (files.dropped name) where
  object?_eq other := by
    rw [FileTier.object?_dropped, MemoryTier.contents?_dropped, h.object?_eq]
  exists_name file hfile := by
    unfold FileTier.dropped at hfile
    rw [NameMap.get?_erase] at hfile
    by_cases heq : file = FileTier.fileName name
    · exact ⟨name, heq⟩
    · rw [if_neg heq] at hfile
      exact h.exists_name file hfile

end SameObjects

/-- A write of the call goes to the end of its object. -/
def MemoryTier.Lands (memory : MemoryTier) : TierCall → Prop
  | .write name offset _ => offset = (memory.bytes name).length
  | _ => True

/-- The call joins an object that is there to itself. -/
def MemoryTier.JoinsItself (memory : MemoryTier) (call : TierCall) : Prop :=
  ∃ name data, call = .concat name name ∧ memory.contents? name = some data

def MemoryTier.LandsAll (memory : MemoryTier) : List TierCall → Prop
  | [] => True
  | call :: rest =>
      memory.Lands call ∧ LandsAll (call.outcome MemoryTier.calls memory).2 rest

def MemoryTier.JoinsItselfIn (memory : MemoryTier) : List TierCall → Prop
  | [] => False
  | call :: rest =>
      memory.JoinsItself call ∨ JoinsItselfIn (call.outcome MemoryTier.calls memory).2 rest

/-- Two tiers answer a call alike and hold the same objects after it. -/
def AgreeOn (filing : Tier FileTier) (memory : MemoryTier) (files : FileTier)
    (call : TierCall) : Prop :=
  (call.outcome MemoryTier.calls memory).1 = (call.outcome filing files).1 ∧
    SameObjects (call.outcome MemoryTier.calls memory).2 (call.outcome filing files).2

def Agree (filing : Tier FileTier) (memory : MemoryTier) (files : FileTier) :
    List TierCall → Prop
  | [] => True
  | call :: rest =>
      AgreeOn filing memory files call ∧
      Agree filing (call.outcome MemoryTier.calls memory).2 (call.outcome filing files).2 rest

section

variable {memory : MemoryTier} {files : FileTier} {name target source : String} {call : TierCall}
  {run : List TierCall} {find : String → TierM FileTier String}

open FileTier (calls Finds)

theorem SameObjects.agreeOn_write (h : SameObjects memory files) (hfind : Finds find name)
    {offset : Nat} (hend : (memory.bytes name).length = offset) (data : Bytes) :
    AgreeOn (calls find) memory files (.write name offset data) := by
  have hend' : (files.bytes name).length = offset := by rw [h.bytes_eq, hend]
  unfold AgreeOn
  rw [MemoryTier.outcome_write_at_end hend, FileTier.outcome_write_at_end hfind hend', h.bytes_eq]
  constructor
  · rfl
  · apply (h.stored name (memory.bytes name ++ data)).congr
    intro other
    simp only [MemoryTier.contents?_stored]
    split
    · rfl
    · rfl

theorem SameObjects.agreeOn_concat (h : SameObjects memory files) (htarget : Finds find target)
    (hsource : Finds find source) {data : Bytes} (hobject : memory.contents? source = some data)
    (hne : target ≠ source) : AgreeOn (calls find) memory files (.concat target source) := by
  have hbytes : (memory.dropped source).bytes target = memory.bytes target := by
    unfold MemoryTier.bytes
    rw [MemoryTier.contents?_dropped, if_neg hne]
  unfold AgreeOn
  rw [MemoryTier.outcome_concat_found hobject, hbytes,
    FileTier.outcome_concat_found htarget hsource ((h.object?_eq source).trans hobject),
    h.bytes_eq, List.length_append]
  constructor
  · rfl
  · apply ((h.stored target (memory.bytes target ++ data)).dropped source).congr
    intro other
    simp only [MemoryTier.contents?_stored, MemoryTier.contents?_dropped]
    split
    · rename_i heq
      rw [heq, if_neg hne]
    · rfl

theorem SameObjects.agreeOn (h : SameObjects memory files)
    (hfind : ∀ name ∈ call.names, Finds find name) (hlands : memory.Lands call)
    (hself : ¬ memory.JoinsItself call) : AgreeOn (calls find) memory files call := by
  cases call with
  | read name offset length =>
      have hname := hfind name (List.mem_singleton_self name)
      unfold AgreeOn
      cases hobject : memory.contents? name with
      | none =>
          rw [MemoryTier.outcome_read_missing hobject,
            FileTier.outcome_read_missing hname ((h.object?_eq name).trans hobject)]
          exact ⟨rfl, h.congr fun _ => rfl⟩
      | some data =>
          rw [FileTier.outcome_read_found hname ((h.object?_eq name).trans hobject)]
          by_cases hshort : data.length < offset + length
          · rw [MemoryTier.outcome_read_short hobject hshort, if_pos hshort]
            exact ⟨rfl, h.congr fun _ => rfl⟩
          · rw [MemoryTier.outcome_read_found hobject hshort, if_neg hshort]
            exact ⟨rfl, h.congr fun _ => rfl⟩
  | write name offset data =>
      exact h.agreeOn_write (hfind name (List.mem_singleton_self name)) hlands.symm data
  | concat target source =>
      have hsource := hfind source (List.mem_cons_of_mem _ (List.mem_singleton_self source))
      cases hobject : memory.contents? source with
      | none =>
          unfold AgreeOn
          rw [MemoryTier.outcome_concat_missing hobject,
            FileTier.outcome_concat_missing hsource ((h.object?_eq source).trans hobject)]
          exact ⟨rfl, h⟩
      | some data =>
          apply h.agreeOn_concat (hfind target List.mem_cons_self) hsource hobject
          intro heq
          subst heq
          exact hself ⟨target, data, rfl, hobject⟩
  | length name =>
      unfold AgreeOn
      rw [MemoryTier.outcome_length,
        FileTier.outcome_length (hfind name (List.mem_singleton_self name)), h.object?_eq]
      exact ⟨rfl, h⟩
  | delete name =>
      have hname := hfind name (List.mem_singleton_self name)
      unfold AgreeOn
      cases hobject : memory.contents? name with
      | none =>
          rw [MemoryTier.outcome_delete_missing hobject,
            FileTier.outcome_delete_missing hname ((h.object?_eq name).trans hobject)]
          exact ⟨rfl, h⟩
      | some data =>
          rw [MemoryTier.outcome_delete_found hobject,
            FileTier.outcome_delete_found hname ((h.object?_eq name).trans hobject)]
          exact ⟨rfl, h.dropped name⟩

theorem SameObjects.joined (h : SameObjects memory files) (hfind : Finds find name) {data : Bytes}
    (hobject : memory.contents? name = some data) :
    let call := TierCall.concat name name
    (call.outcome MemoryTier.calls memory).1 = .ok (.length data.length) ∧
      (∀ other, (call.outcome MemoryTier.calls memory).2.contents? other = memory.contents? other) ∧
      (call.outcome (calls find) files).1 = .ok (.length (data.length + data.length)) ∧
      ∀ other, (call.outcome (calls find) files).2.object? other =
        if other = name then none else files.object? other := by
  have hfile := (h.object?_eq name).trans hobject
  have hgone : (memory.dropped name).bytes name = [] := by
    apply MemoryTier.bytes_of_missing
    rw [MemoryTier.contents?_dropped, if_pos rfl]
  intro call
  rw [MemoryTier.outcome_concat_found hobject, hgone, List.nil_append,
    FileTier.outcome_concat_found hfind hfind hfile, FileTier.bytes_of_object? hfile]
  refine ⟨rfl, ?_, rfl, ?_⟩
  · intro other
    rw [MemoryTier.contents?_stored, MemoryTier.contents?_dropped]
    split
    · rename_i heq
      rw [heq, hobject]
    · rfl
  · intro other
    rw [FileTier.object?_dropped, FileTier.object?_stored]
    split
    · rfl
    · rfl

theorem SameObjects.not_agreeOn_join (h : SameObjects memory files)
    (hfind : ∀ name ∈ call.names, Finds find name) (hself : memory.JoinsItself call) :
    ¬ AgreeOn (calls find) memory files call := by
  rcases hself with ⟨name, data, rfl, hobject⟩
  rcases h.joined (hfind name List.mem_cons_self) hobject with ⟨-, hkept, -, hfiles⟩
  intro hafter
  have hsame := hafter.2.object?_eq name
  rw [hfiles, if_pos rfl, hkept, hobject] at hsame
  cases hsame

/-- Where the files of all names are found, only a join of an object to itself parts the tiers. -/
theorem SameObjects.agree_iff (h : SameObjects memory files)
    (hfind : ∀ call ∈ run, ∀ name ∈ call.names, Finds find name) (hlands : memory.LandsAll run) :
    Agree (calls find) memory files run ↔ ¬ memory.JoinsItselfIn run := by
  induction run generalizing memory files with
  | nil => exact ⟨fun _ hjoins => hjoins, fun _ => trivial⟩
  | cons call rest ih =>
      have hcall := hfind call List.mem_cons_self
      have hrest := fun later hlater => hfind later (List.mem_cons_of_mem call hlater)
      by_cases hself : memory.JoinsItself call
      · constructor
        · intro hagree
          exact absurd hagree.1 (h.not_agreeOn_join hcall hself)
        · intro hnever
          exact absurd (Or.inl hself) hnever
      · have hboth := h.agreeOn hcall hlands.1 hself
        have htail := ih hboth.2 hrest hlands.2
        constructor
        · rintro hagree (hjoins | hjoins)
          · exact hself hjoins
          · exact htail.mp hagree.2 hjoins
        · intro hnever
          exact ⟨hboth, htail.mpr fun hjoins => hnever (Or.inr hjoins)⟩

end

namespace FileTier

def locateAny (name : String) : TierM FileTier String := pure (fileName name)

def Named (name : String) : Prop :=
  '\x00' ∉ name.toList ∧ (fileName name).utf8ByteSize ≤ Path.maxName

instance (name : String) : Decidable (Named name) := inferInstanceAs (Decidable (_ ∧ _))

theorem finds_locateAny (name : String) : Finds locateAny name := rfl

theorem finds_locate {name : String} (h : Named name) : Finds locate name := by
  unfold Finds locate
  simp only [List.contains_iff_mem]
  rw [if_neg h.1, if_neg (Nat.not_lt.mpr h.2)]

/--
Two tiers that hold the same objects answer every call of a run alike, and hold the same
objects after each, iff the run never joins an object to itself.  So it is for files of
any names, and for files whose names the file system takes.  The run may read, join and
delete what is not there, and writes only go to the ends of objects.
-/
theorem tiers_agree_iff {memory : MemoryTier} {files : FileTier} {run : List TierCall}
    (h : SameObjects memory files) (hlands : memory.LandsAll run) :
    (Agree (calls locateAny) memory files run ↔ ¬ memory.JoinsItselfIn run) ∧
    ((∀ call ∈ run, ∀ name ∈ call.names, Named name) →
      (Agree (calls locate) memory files run ↔ ¬ memory.JoinsItselfIn run)) := by
  constructor
  · exact h.agree_iff (fun _ _ name _ => finds_locateAny name) hlands
  · intro hnamed
    exact h.agree_iff (fun call hcall name hname => finds_locate (hnamed call hcall name hname))
      hlands

/-- Two names that differ only in how a slash is written, and one that is not there. -/
private def twoNames : List TierCall :=
  [.write "a/b" 0 [97], .write "a%2Fb" 0 [98, 99], .concat "a/b" "c", .concat "a/b" "a%2Fb",
    .read "a/b" 1 2, .delete "a%2Fb"]

theorem tiers_agree_iff_two_names :
    SameObjects {} {} ∧ MemoryTier.LandsAll {} twoNames ∧
      (∀ call ∈ twoNames, ∀ name ∈ call.names, Named name) ∧
      Agree (calls locateAny) {} {} twoNames ∧ Agree (calls locate) {} {} twoNames := by
  have hlands : MemoryTier.LandsAll {} twoNames :=
    ⟨rfl, rfl, trivial, trivial, trivial, trivial, trivial⟩
  have hnamed : ∀ call ∈ twoNames, ∀ name ∈ call.names, Named name := by decide
  have hnever : ¬ MemoryTier.JoinsItselfIn {} twoNames := by
    simp [twoNames, MemoryTier.JoinsItselfIn, MemoryTier.JoinsItself]
  have hboth := tiers_agree_iff SameObjects.empty hlands
  exact ⟨SameObjects.empty, hlands, hnamed, hboth.1.mpr hnever, (hboth.2 hnamed).mpr hnever⟩

/-- An object of two bytes is stored and joined to itself. -/
theorem self_join_parts_tiers :
    let run : List TierCall := [.write "s" 0 [97, 98], .concat "s" "s"]
    SameObjects {} {} ∧ MemoryTier.LandsAll {} run ∧
      ¬ Agree (calls locateAny) {} {} run ∧ ¬ Agree (calls locate) {} {} run := by
  intro run
  refine ⟨SameObjects.empty, ⟨rfl, trivial, trivial⟩, ?_, ?_⟩
  · intro hagree
    have hanswers : (Except.ok (.length 2) : Except MediumError TierAnswer) = .ok (.length 4) :=
      hagree.2.1.1
    cases hanswers
  · intro hagree
    have hanswers : (Except.ok (.length 2) : Except MediumError TierAnswer) = .ok (.length 4) :=
      hagree.2.1.1
    cases hanswers

end FileTier
end TieredStore
