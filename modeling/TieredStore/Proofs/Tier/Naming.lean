import TieredStore.Medium.Folder
import TieredStore.Proofs.Path
import TieredStore.Proofs.Tier.Agreeing

/-!
# The paths of objects

What a segment name is written as has no slash of either kind, and its ending makes it a
name and not dots.  So the path of an object goes one step further than the root of its
tier, into the folder that the root leads to, and names that differ take other steps.
-/

namespace TieredStore
namespace FileTier

variable {c : Char} {root name : String}

/-- The path of the file that holds the object of a segment in the tier at `root`. -/
def objectPath (root name : String) : String := Path.join root (fileName name)

/-! ## What a name is written with -/

theorem plain_of_mem_escapeChar (d : Char) : ∀ c ∈ escapeChar d, c ≠ '/' ∧ c ≠ '\\' := by
  unfold escapeChar
  split
  · simp
  split
  · simp
  split
  · simp
  -- any other character stands for itself
  rename_i hslash hback
  intro c hc
  rw [List.mem_singleton.mp hc]
  exact ⟨hslash, hback⟩

theorem plain_of_mem_escape {cs : List Char} (h : c ∈ escape cs) : c ≠ '/' ∧ c ≠ '\\' := by
  rcases List.mem_flatMap.mp h with ⟨d, -, hd⟩
  exact plain_of_mem_escapeChar d c hd

theorem zero_mem_escapeChar : '\x00' ∈ escapeChar c ↔ c = '\x00' := by
  rcases escapeChar_cases c with ⟨rfl, hc⟩ | ⟨rfl, hc⟩ | ⟨rfl, hc⟩ | ⟨-, hc⟩
  · decide
  · decide
  · decide
  · rw [hc, List.mem_singleton, eq_comm]

theorem zero_mem_fileName : '\x00' ∈ (fileName name).toList ↔ '\x00' ∈ name.toList := by
  have hending : '\x00' ∉ ".seg".toList := by decide
  rw [toList_fileName, List.mem_append, or_iff_left hending]
  constructor
  · intro hmem
    rcases List.mem_flatMap.mp hmem with ⟨c, hc, hzero⟩
    rwa [zero_mem_escapeChar.mp hzero] at hc
  · intro hmem
    exact List.mem_flatMap.mpr ⟨_, hmem, zero_mem_escapeChar.mpr rfl⟩

theorem slash_not_mem_fileName (name : String) : '/' ∉ (fileName name).toList := by
  rw [toList_fileName]
  intro hmem
  rcases List.mem_append.mp hmem with hescape | hending
  · exact (plain_of_mem_escape hescape).1 rfl
  · exact absurd hending (by decide)

theorem isName_fileName (name : String) : Path.IsName (fileName name) := by
  have hlong : 4 ≤ (fileName name).toList.length := by
    rw [toList_fileName, List.length_append]
    exact Nat.le_add_left _ _
  constructor
  all_goals
    intro heq
    rw [heq] at hlong
    exact absurd hlong (by decide)

/-! ## Where the path of an object leads -/

theorem place_objectPath (root name : String) :
    Path.place (objectPath root name) = fileName name :: Path.place root :=
  Path.place_join (slash_not_mem_fileName name) (isName_fileName name) root

theorem takes_fileName_iff :
    Path.Takes root (fileName name) ↔
      Named name ∧ (objectPath root name).utf8ByteSize ≤ Path.maxLength := by
  constructor
  · intro h
    exact ⟨⟨fun hzero => h.no_zero (zero_mem_fileName.mpr hzero), h.name_le⟩, h.path_le⟩
  · rintro ⟨⟨hzero, hname⟩, hpath⟩
    exact ⟨fun hmem => hzero (zero_mem_fileName.mp hmem), hname, hpath⟩

/--
Names that differ are written in ways that differ, and without a slash.  So the paths of
their objects lead to places that differ, right below the root of the tier.  Where the root
is a folder, following such a path comes to what is in this folder under the file name, or
the file system refuses the name or the path; nothing else is reached.
-/
theorem object_paths_distinct (root name other : String) :
    (escape name.toList = escape other.toList ↔ name = other) ∧
    '/' ∉ escape name.toList ∧ '\\' ∉ escape name.toList ∧
    Path.place (objectPath root name) = fileName name :: Path.place root ∧
    (Path.place (objectPath root name) = Path.place (objectPath root other) ↔ name = other) ∧
    ∀ tenant dir, Path.follow tenant root = .folder dir →
      (Named name ∧ (objectPath root name).utf8ByteSize ≤ Path.maxLength →
        Path.follow tenant (objectPath root name) = Path.arrive tenant (fileName name :: dir)) ∧
      (¬ (Named name ∧ (objectPath root name).utf8ByteSize ≤ Path.maxLength) →
        ∃ cause, Path.follow tenant (objectPath root name) = .barred cause) := by
  refine ⟨?_, fun hslash => (plain_of_mem_escape hslash).1 rfl,
    fun hback => (plain_of_mem_escape hback).2 rfl, place_objectPath root name, ?_, ?_⟩
  · constructor
    · intro h
      exact String.toList_inj.mp (escape_inj h)
    · intro h
      rw [h]
  · rw [place_objectPath, place_objectPath, List.cons_eq_cons, and_iff_left rfl, fileName_inj]
  · intro tenant dir hroot
    rw [← takes_fileName_iff]
    exact Path.follow_join (slash_not_mem_fileName name) (isName_fileName name) hroot

private def tierFolder : Folder :=
  { path := "/d/tier", made := true, files := { entries := [("x%2Fy.seg", 0)] } }

theorem object_paths_distinct_slash :
    let tenant := tierFolder.tenant [["d"]]
    Path.follow tenant "/d/tier" = .folder ["tier", "d"] ∧ Named "x/y" ∧ Named "x%2Fy" ∧
      Path.follow tenant (objectPath "/d/tier" "x/y") = .file ["x%2Fy.seg", "tier", "d"] ∧
      Path.follow tenant (objectPath "/d/tier" "x%2Fy") = .vacant ["x%252Fy.seg", "tier", "d"] ∧
      ∃ cause, Path.follow tenant (objectPath "/d/tier" "x\x00y") = .barred cause := by
  intro tenant
  have hroot : Path.follow tenant "/d/tier" = .folder ["tier", "d"] := by decide +kernel
  have hfirst := (object_paths_distinct "/d/tier" "x/y" "x%2Fy").2.2.2.2.2 tenant _ hroot
  have hsecond := (object_paths_distinct "/d/tier" "x%2Fy" "x/y").2.2.2.2.2 tenant _ hroot
  have hthird := (object_paths_distinct "/d/tier" "x\x00y" "x/y").2.2.2.2.2 tenant _ hroot
  refine ⟨hroot, by decide, by decide, ?_, ?_, hthird.2 (by decide +kernel)⟩
  · rw [hfirst.1 (by decide +kernel)]
    decide +kernel
  · rw [hsecond.1 (by decide +kernel)]
    decide +kernel

end FileTier
end TieredStore
