/-! Finite sets of numbers as ascending lists without repeats. -/
namespace Multitape.Ascending

def insert (n : Nat) : List Nat → List Nat
  | [] => [n]
  | m :: rest => if n < m then n :: m :: rest else if n = m then m :: rest else m :: insert n rest

def ofList (numbers : List Nat) : List Nat := numbers.foldr insert []

theorem memInsert {n m : Nat} {numbers : List Nat} :
    m ∈ insert n numbers ↔ m = n ∨ m ∈ numbers := by
  induction numbers with
  | nil => simp [insert]
  | cons first rest ih =>
    simp only [insert]
    split
    · simp
    · split
      · subst n; simp
      · simp only [List.mem_cons, ih]; grind

theorem memOfList {n : Nat} {numbers : List Nat} : n ∈ ofList numbers ↔ n ∈ numbers := by
  induction numbers with
  | nil => simp [ofList]
  | cons first rest ih => simpa [ofList, memInsert] using or_congr_right ih

theorem pairwiseInsert {n : Nat} {numbers : List Nat} (sorted : numbers.Pairwise (· < ·)) :
    (insert n numbers).Pairwise (· < ·) := by
  induction numbers with
  | nil => simp [insert]
  | cons first rest ih =>
    have h := List.pairwise_cons.mp sorted
    simp only [insert]
    split
    · rename_i before
      refine List.pairwise_cons.mpr ⟨fun m mem => ?_, sorted⟩
      rcases List.mem_cons.mp mem with rfl | mem
      · exact before
      · exact Nat.lt_trans before (h.1 m mem)
    · split
      · exact sorted
      · refine List.pairwise_cons.mpr ⟨fun m mem => ?_, ih h.2⟩
        rcases memInsert.mp mem with rfl | old
        · omega
        · exact h.1 m old

theorem pairwiseOfList (numbers : List Nat) : (ofList numbers).Pairwise (· < ·) := by
  induction numbers with
  | nil => simp [ofList]
  | cons first rest ih => exact pairwiseInsert ih

end Multitape.Ascending
