import TieredStore.Medium.Path
import TieredStore.Proofs.Ledger.Naming

/-!
# One step more

A name without a slash, joined to a path, is one step more.  So where the path leads to a
folder, the joined path leads to what stands in this folder under the name, if the file
system takes name and path, and it leads nowhere else if not.
-/

namespace TieredStore
namespace Path

variable {base name : String} {tenant : Place → Option Tenant} {dir : Place}

/-! ## Between the slashes -/

theorem parts_ne_nil (cs : List Char) : parts cs ≠ [] := by
  unfold parts
  split
  · exact List.cons_ne_nil _ _
  · exact List.cons_ne_nil _ _
  · split
    · exact List.cons_ne_nil _ _
    · exact List.cons_ne_nil _ _

theorem parts_slash (cs : List Char) : parts ('/' :: cs) = [] :: parts cs := by
  rw [parts]

theorem parts_cons {c : Char} (h : c ≠ '/') {cs part : List Char} {others : List (List Char)}
    (hparts : parts cs = part :: others) : parts (c :: cs) = (c :: part) :: others := by
  unfold parts
  split
  · rename_i heq
    cases heq
  · rename_i heq
    cases heq
    exact absurd rfl h
  · rename_i heq
    cases heq
    rw [hparts]

theorem parts_of_plain {cs : List Char} (h : '/' ∉ cs) : parts cs = [cs] := by
  induction cs with
  | nil => rfl
  | cons c cs ih =>
      rcases List.ne_and_not_mem_of_not_mem_cons h with ⟨hc, hcs⟩
      exact parts_cons (Ne.symm hc) (ih hcs)

theorem parts_append_slash (first second : List Char) :
    parts (first ++ '/' :: second) = parts first ++ parts second := by
  induction first with
  | nil => exact parts_slash second
  | cons c first ih =>
      by_cases hc : c = '/'
      · rw [hc, List.cons_append, parts_slash, parts_slash, ih, List.cons_append]
      · cases hparts : parts first with
        | nil => exact absurd hparts (parts_ne_nil first)
        | cons part others =>
            rw [hparts, List.cons_append] at ih
            rw [List.cons_append, parts_cons hc ih, parts_cons hc hparts, List.cons_append]

/-! ## Joining a name -/

theorem toList_join (base : String) (h : '/' ∉ name.toList) :
    ∃ between, (join base name).toList = base.toList ++ between ++ name.toList ∧
      (between = ['/'] ∨ between = [] ∧ (base = "" ∨ ['/'] <:+ base.toList)) := by
  have hrelative : ¬ name.startsWith "/" = true := by
    rw [String.startsWith_string_iff]
    intro hslash
    exact h (hslash.mem (by decide))
  unfold join
  rw [if_neg hrelative]
  split
  · rename_i hends
    refine ⟨[], ?_, Or.inr ⟨rfl, hends.imp_right Ledgers.endsWith_iff.mp⟩⟩
    rw [String.toList_append, List.append_nil]
  · refine ⟨['/'], ?_, Or.inl rfl⟩
    rw [String.toList_append, String.toList_append]
    rfl

theorem mem_toList_join (h : '/' ∉ name.toList) {c : Char} (hc : c ≠ '/') :
    c ∈ (join base name).toList ↔ c ∈ base.toList ∨ c ∈ name.toList := by
  rcases toList_join base h with ⟨between, hjoin, hbetween⟩
  have hnot : c ∉ between := by
    rcases hbetween with rfl | ⟨rfl, -⟩
    · exact fun hmem => hc (List.mem_singleton.mp hmem)
    · exact List.not_mem_nil
  rw [hjoin, List.mem_append, List.mem_append, or_iff_left hnot]

theorem steps_join (base : String) (h : '/' ∉ name.toList) :
    steps (join base name) = steps base ++ [name] ∨
      ∃ before, steps base = before ++ [""] ∧ steps (join base name) = before ++ [name] := by
  have hname : (parts name.toList).map String.ofList = [name] := by
    rw [parts_of_plain h, List.map_singleton, String.ofList_toList]
  unfold steps
  rcases toList_join base h with ⟨between, hjoin, rfl | ⟨rfl, rfl | ⟨front, hfront⟩⟩⟩
  · left
    rw [hjoin, List.append_assoc, List.singleton_append, parts_append_slash, List.map_append, hname]
  · right
    refine ⟨[], rfl, ?_⟩
    rw [hjoin]
    exact hname
  · right
    refine ⟨(parts front).map String.ofList, ?_, ?_⟩
    · rw [← hfront, parts_append_slash, List.map_append]
      rfl
    · rw [hjoin, ← hfront, List.append_nil, List.append_assoc, List.singleton_append,
        parts_append_slash, List.map_append, hname]

/-! ## Where it leads -/

/-- A step that is neither empty nor made of dots only leads on. -/
structure IsName (step : String) : Prop where
  ne_empty : step ≠ ""
  ne_dot : step ≠ "."
  ne_dots : step ≠ ".."

theorem IsName.climb_eq (h : IsName name) (place : Place) : climb place name = name :: place := by
  unfold climb
  rw [if_neg (not_or.mpr ⟨h.ne_empty, h.ne_dot⟩), if_neg h.ne_dots]

theorem IsName.advance_eq (h : IsName name) (tenant : Place → Option Tenant) (place : Place) :
    advance tenant (.folder place) name =
      if maxName < name.utf8ByteSize then .barred (.system "File name too long")
      else arrive tenant (name :: place) :=
  if_neg fun hspecial => hspecial.elim h.ne_empty fun hdots => hdots.elim h.ne_dot h.ne_dots

theorem place_join (h : '/' ∉ name.toList) (hname : IsName name) (base : String) :
    place (join base name) = name :: place base := by
  unfold place
  rcases steps_join base h with hsteps | ⟨before, hbase, hsteps⟩
  · rw [hsteps, List.foldl_append]
    exact hname.climb_eq _
  · rw [hsteps, hbase, List.foldl_append, List.foldl_append]
    exact hname.climb_eq _

theorem eq_of_advance_empty {d : Destination} (h : advance tenant d "" = .folder dir) :
    d = .folder dir := by
  cases d with
  | folder place =>
      rw [← h]
      rfl
  | file place => cases h
  | vacant place => cases h
  | nowhere => cases h
  | barred cause => cases h

theorem foldl_steps_join (h : '/' ∉ name.toList)
    (hbase : (steps base).foldl (advance tenant) (.folder []) = .folder dir) :
    (steps (join base name)).foldl (advance tenant) (.folder []) =
      advance tenant (.folder dir) name := by
  rcases steps_join base h with hsteps | ⟨before, hbefore, hsteps⟩
  · rw [hsteps, List.foldl_append, hbase]
    rfl
  · rw [hbefore, List.foldl_append] at hbase
    rw [hsteps, List.foldl_append, eq_of_advance_empty hbase]
    rfl

structure Takes (base name : String) : Prop where
  no_zero : '\x00' ∉ name.toList
  name_le : name.utf8ByteSize ≤ maxName
  path_le : (join base name).utf8ByteSize ≤ maxLength

theorem of_follow_folder (h : follow tenant base = .folder dir) :
    '\x00' ∉ base.toList ∧ (steps base).foldl (advance tenant) (.folder []) = .folder dir := by
  unfold follow at h
  split at h
  · cases h
  · rename_i hzero
    split at h
    · cases h
    · exact ⟨fun hmem => hzero (List.contains_iff_mem.mpr hmem), h⟩

/-- A name that is joined to the path of a folder leads into this folder or is refused. -/
theorem follow_join (h : '/' ∉ name.toList) (hname : IsName name)
    (hbase : follow tenant base = .folder dir) :
    (Takes base name → follow tenant (join base name) = arrive tenant (name :: dir)) ∧
      (¬ Takes base name → ∃ cause, follow tenant (join base name) = .barred cause) := by
  rcases of_follow_folder hbase with ⟨hclean, hfold⟩
  have hzero : '\x00' ∈ (join base name).toList ↔ '\x00' ∈ name.toList := by
    rw [mem_toList_join h (by decide), or_iff_right hclean]
  unfold follow
  simp only [List.contains_iff_mem, hzero, foldl_steps_join h hfold, hname.advance_eq]
  constructor
  · intro htakes
    rw [if_neg htakes.no_zero, if_neg (Nat.not_lt.mpr htakes.path_le),
      if_neg (Nat.not_lt.mpr htakes.name_le)]
  · intro hrefused
    by_cases hplain : '\x00' ∈ name.toList
    · rw [if_pos hplain]
      exact ⟨_, rfl⟩
    rw [if_neg hplain]
    by_cases hpath : maxLength < (join base name).utf8ByteSize
    · rw [if_pos hpath]
      exact ⟨_, rfl⟩
    have hlong : maxName < name.utf8ByteSize := by
      apply Nat.lt_of_not_le
      intro hle
      exact hrefused ⟨hplain, hle, Nat.not_lt.mp hpath⟩
    rw [if_neg hpath, if_pos hlong]
    exact ⟨_, rfl⟩

end Path
end TieredStore
