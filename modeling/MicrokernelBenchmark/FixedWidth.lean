import Mathlib.Algebra.Group.Int.Defs
import Mathlib.Algebra.Group.Nat.Defs
import Mathlib.Data.Int.Basic

/-!
# Sixty-four bit integers inside the integers

A machine word is the integer it denotes. Every signed operation is followed by
`long` and every unsigned one by `ulong`, so a result outside the range of its
type wraps. The rules remove inner reductions; a value which fits its type is
then its own reduction.
-/
namespace MicrokernelBenchmark.FixedWidth

def longMax : ℤ := 9223372036854775807

/-- The signed word of an integer result. -/
def long (x : ℤ) : ℤ := x.bmod (2 ^ 64)

/-- The unsigned word of an integer result, and the conversion to it. -/
def ulong (x : ℤ) : ℤ := x % 2 ^ 64

/-- The values of a signed word. -/
def Fits (x : ℤ) : Prop := -2 ^ 63 ≤ x ∧ x < 2 ^ 63

instance (x : ℤ) : Decidable (Fits x) := inferInstanceAs (Decidable (_ ∧ _))

theorem long_of_fits {x : ℤ} (h : Fits x) : long x = x := by
  obtain ⟨hlo, hhi⟩ := h
  exact Int.bmod_eq_of_le (by omega) (by omega)

theorem fits_long (x : ℤ) : Fits (long x) := by
  rw [Fits, long]
  have hlo := Int.le_bmod (x := x) (m := 2 ^ 64) (by decide)
  have hhi := Int.bmod_lt (x := x) (m := 2 ^ 64) (by decide)
  omega

theorem ulong_of_nonneg {x : ℤ} (h : 0 ≤ x) (h' : x < 2 ^ 64) : ulong x = x :=
  Int.emod_eq_of_lt h h'

@[simp] theorem long_long_add (x y : ℤ) : long (long x + y) = long (x + y) := Int.bmod_add_bmod

@[simp] theorem long_add_long (x y : ℤ) : long (x + long y) = long (x + y) := Int.add_bmod_bmod

@[simp] theorem long_long_mul (x y : ℤ) : long (long x * y) = long (x * y) := Int.bmod_mul_bmod

@[simp] theorem ulong_ulong_add (x y : ℤ) : ulong (ulong x + y) = ulong (x + y) :=
  Int.emod_add_emod ..

@[simp] theorem ulong_add_ulong (x y : ℤ) : ulong (x + ulong y) = ulong (x + y) :=
  Int.add_emod_emod ..

@[simp] theorem ulong_ulong_mul (x y : ℤ) : ulong (ulong x * y) = ulong (x * y) := by
  unfold ulong
  rw [Int.mul_emod, Int.emod_emod, ← Int.mul_emod]

end MicrokernelBenchmark.FixedWidth
