import Mathlib.Algebra.BigOperators.Group.List.Basic
import Mathlib.Algebra.Order.BigOperators.Group.List
import Mathlib.Algebra.Order.Group.MinMax
import Mathlib.Tactic.Abel
import Mathlib.Data.List.Induction

/-!
# Intervals one after another

The lengths of intervals which do not overlap sum up to at most the extent of
all their ends. The part of a length above a threshold is its excess.
-/
namespace MicrokernelBenchmark.DisjointIntervals

section
variable {α : Type*}

def ends (ps : List (α × α)) : List α := ps.flatMap fun p => [p.1, p.2]

@[simp] theorem ends_cons (p : α × α) (ps : List (α × α)) :
    ends (p :: ps) = p.1 :: p.2 :: ends ps := rfl

end

variable {α : Type*} [AddCommGroup α] [LinearOrder α]

/-- From the first entry to the last one. -/
def extent : List α → α
  | [] => 0
  | x :: xs => xs.getLastD x - x

def lengths (ps : List (α × α)) : List α := ps.map fun p => p.2 - p.1

/-- What a length has above the threshold. -/
def excess (c x : α) : α := max (x - c) 0

theorem excess_nonneg (c x : α) : 0 ≤ excess c x := le_max_right _ _

variable [IsOrderedAddMonoid α]

theorem excess_le {c x : α} (hc : 0 ≤ c) (hx : 0 ≤ x) : excess c x ≤ x :=
  max_le (sub_le_self x hc) hx

theorem excess_add_min (c x : α) : excess c x + min x c = x := by
  rw [excess]
  rcases le_total x c with h | h
  · rw [max_eq_right (sub_nonpos.mpr h), min_eq_left h, zero_add]
  · rw [max_eq_left (sub_nonneg.mpr h), min_eq_right h, sub_add_cancel]

theorem sum_excess_add_sum_min (c : α) (xs : List α) :
    (xs.map (excess c)).sum + (xs.map fun x => min x c).sum = xs.sum := by
  rw [← List.sum_map_add]
  simp only [excess_add_min, List.map_id']

theorem sum_excess_nonneg (c : α) (xs : List α) : 0 ≤ (xs.map (excess c)).sum := by
  apply List.sum_nonneg
  intro y hy
  obtain ⟨x, -, rfl⟩ := List.mem_map.mp hy
  exact excess_nonneg c x

theorem sum_excess_le {c : α} (hc : 0 ≤ c) {xs : List α} (hxs : ∀ x ∈ xs, 0 ≤ x) :
    (xs.map (excess c)).sum ≤ xs.sum := by
  have h := List.sum_le_sum (l := xs) (f := excess c) (g := id)
    fun x hx => excess_le hc (hxs x hx)
  rwa [List.map_id] at h

/-- Intervals with their ends in order have no negative length. -/
theorem lengths_nonneg {ps : List (α × α)} (h : (ends ps).Pairwise (· ≤ ·)) :
    ∀ x ∈ lengths ps, 0 ≤ x := by
  induction ps with
  | nil => simp [lengths]
  | cons p ps ih =>
      rw [ends_cons, List.pairwise_cons, List.pairwise_cons] at h
      obtain ⟨hfirst, -, hrest⟩ := h
      intro x hx
      rcases List.mem_cons.mp hx with rfl | hx
      · exact sub_nonneg.mpr (hfirst p.2 List.mem_cons_self)
      · exact ih hrest x hx

/-- The gaps between the intervals are what is missing to the extent. -/
theorem sum_lengths_le {ps : List (α × α)} (h : (ends ps).Pairwise (· ≤ ·)) :
    (lengths ps).sum ≤ extent (ends ps) := by
  induction ps with
  | nil => exact le_refl 0
  | cons p ps ih =>
      rw [ends_cons, List.pairwise_cons, List.pairwise_cons] at h
      obtain ⟨-, hsecond, hrest⟩ := h
      have hsum := ih hrest
      have hcons : (lengths (p :: ps)).sum = p.2 - p.1 + (lengths ps).sum := List.sum_cons
      rw [hcons]
      cases ps with
      | nil => simp [lengths, extent, ends]
      | cons q ps =>
          rw [ends_cons] at hsecond hsum ⊢
          rw [extent] at hsum
          rw [ends_cons, extent]
          have hgap := hsecond q.1 List.mem_cons_self
          have hlast : (p.2 :: q.1 :: q.2 :: ends ps).getLastD p.1 =
              (q.2 :: ends ps).getLastD q.1 := rfl
          rw [hlast]
          calc p.2 - p.1 + (lengths (q :: ps)).sum
              ≤ p.2 - p.1 + ((q.2 :: ends ps).getLastD q.1 - q.1) := by gcongr
            _ ≤ q.1 - p.1 + ((q.2 :: ends ps).getLastD q.1 - q.1) := by gcongr
            _ = (q.2 :: ends ps).getLastD q.1 - p.1 := by abel

end MicrokernelBenchmark.DisjointIntervals
