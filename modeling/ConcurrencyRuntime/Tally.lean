import Mathlib

/-!
# Tallies over finitely many threads

A counter that threads share is accounted for by a weight of the program point
of each thread. When one thread moves, only its own weight changes.
-/

namespace ConcurrencyRuntime.Tally

variable {ι α : Type*} [Fintype ι]

/-- The total weight of all threads. -/
def tally (weight : α → ℕ) (pc : ι → α) : ℕ := ∑ i, weight (pc i)

/-- One thread moves: its old weight goes, its new one comes. -/
theorem tally_update [DecidableEq ι] (weight : α → ℕ) (pc : ι → α) (i : ι) (a : α) :
    tally weight (Function.update pc i a) + weight (pc i) = tally weight pc + weight a := by
  have hnew := Finset.add_sum_erase Finset.univ (fun j => weight (Function.update pc i a j))
    (Finset.mem_univ i)
  have hold := Finset.add_sum_erase Finset.univ (fun j => weight (pc j)) (Finset.mem_univ i)
  have hrest : ∑ j ∈ Finset.univ.erase i, weight (Function.update pc i a j) =
      ∑ j ∈ Finset.univ.erase i, weight (pc j) := by
    refine Finset.sum_congr rfl ?_
    intro j hj
    rw [Function.update_of_ne (Finset.ne_of_mem_erase hj)]
  simp only [Function.update_self] at hnew
  simp only [tally]
  omega

/-- A tally is zero when every weight is. -/
theorem tally_eq_zero {weight : α → ℕ} {pc : ι → α} :
    tally weight pc = 0 ↔ ∀ i, weight (pc i) = 0 := by
  simp [tally]

/-- A weight is at most the tally. -/
theorem le_tally (weight : α → ℕ) (pc : ι → α) (i : ι) : weight (pc i) ≤ tally weight pc :=
  Finset.single_le_sum (f := fun j => weight (pc j)) (fun _ _ => Nat.zero_le _) (Finset.mem_univ i)

end ConcurrencyRuntime.Tally
