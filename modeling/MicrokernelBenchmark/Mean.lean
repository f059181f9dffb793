import Mathlib.Algebra.Order.BigOperators.Group.List
import Mathlib.Algebra.Order.Field.Basic

/-!
# The arithmetic mean of a list

It lies between two of the entries, and a sum over a fixed divisor is the mean
only where the divisor is the number of entries or the sum is zero.
-/
namespace MicrokernelBenchmark.Mean

variable {K : Type*} [Semifield K] [LinearOrder K] [IsStrictOrderedRing K] {xs : List K}

def mean (xs : List K) : K := xs.sum / xs.length

theorem length_ne_zero (h : xs ≠ []) : (xs.length : K) ≠ 0 := by
  rw [Nat.cast_ne_zero]
  exact List.length_eq_zero_iff.not.mpr h

theorem sum_map_mean (h : xs ≠ []) : (xs.map fun _ => mean xs).sum = xs.sum := by
  rw [List.map_const', List.sum_replicate, nsmul_eq_mul, mean,
    mul_div_cancel₀ _ (length_ne_zero h)]

theorem exists_le_mean (h : xs ≠ []) : ∃ x ∈ xs, x ≤ mean xs := by
  apply List.exists_le_of_sum_le h (fun x => x) (fun _ => mean xs)
  rw [sum_map_mean h, List.map_id']

theorem exists_mean_le (h : xs ≠ []) : ∃ x ∈ xs, mean xs ≤ x := by
  apply List.exists_le_of_sum_le h (fun _ => mean xs) (fun x => x)
  rw [sum_map_mean h, List.map_id']

theorem sum_div_eq_mean_iff (h : xs ≠ []) {d : ℕ} (hd : d ≠ 0) :
    xs.sum / d = mean xs ↔ xs.length = d ∨ xs.sum = 0 := by
  have hd' : (d : K) ≠ 0 := Nat.cast_ne_zero.mpr hd
  rw [mean, div_eq_div_iff hd' (length_ne_zero h), mul_eq_mul_left_iff, Nat.cast_inj]

end MicrokernelBenchmark.Mean
