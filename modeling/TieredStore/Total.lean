/-!
# Totals

The total of a list of amounts, for sizes and counts that are added up over the
parts of something.
-/

namespace TieredStore

def total : List Nat → Nat
  | [] => 0
  | n :: rest => n + total rest

@[simp] theorem total_nil : total [] = 0 := rfl

@[simp] theorem total_cons (n : Nat) (rest : List Nat) : total (n :: rest) = n + total rest := rfl

@[simp] theorem total_append (as bs : List Nat) : total (as ++ bs) = total as + total bs := by
  induction as with
  | nil => simp
  | cons n as ih => simp [ih, Nat.add_assoc]

theorem le_total_of_mem {n : Nat} {amounts : List Nat} (h : n ∈ amounts) : n ≤ total amounts := by
  induction amounts with
  | nil => cases h
  | cons m rest ih =>
      rcases List.mem_cons.1 h with rfl | h
      · simp
      · have := ih h
        simp only [total_cons]
        omega

end TieredStore
