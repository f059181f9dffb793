import Mathlib.Algebra.BigOperators.Group.Finset.Basic
import Mathlib.Algebra.Order.Group.Defs
import Mathlib.Data.Fintype.Order
import Mathlib.Order.Interval.Finset.Basic

/-!
# Pairing two sorted families by rank

Two families over a finite linear order are matched by a permutation. When both
are sorted, matching equal ranks keeps every bound on the pairs: if each start
is at most the end matched with it, it is at most the end of its own rank. The
sum of the differences does not depend on the matching.
-/
namespace MicrokernelBenchmark.SortedMatching

section Order
variable {ι α : Type*} [LinearOrder ι] [LocallyFiniteOrderBot ι] [LinearOrder α]
variable {s r : ι → α}

/-- The matched starts of all ends up to rank `i` would otherwise have to fit
below rank `i`. -/
theorem le_of_matching (hs : Monotone s) (hr : Monotone r) (σ : Equiv.Perm ι)
    (h : ∀ i, s (σ i) ≤ r i) (i : ι) : s i ≤ r i := by
  by_contra hlt
  rw [not_le] at hlt
  have hmaps : Set.MapsTo σ (Finset.Iic i) (Finset.Iio i) := by
    intro j hj
    rw [Finset.mem_coe, Finset.mem_Iic] at hj
    rw [Finset.mem_coe, Finset.mem_Iio]
    apply hs.reflect_lt
    calc s (σ j) ≤ r j := h j
      _ ≤ r i := hr hj
      _ < s i := hlt
  have hcard := Finset.card_le_card_of_injOn σ hmaps σ.injective.injOn
  have hsub : Finset.Iio i ⊂ Finset.Iic i := by
    rw [Finset.ssubset_iff_of_subset Finset.Iio_subset_Iic_self]
    exact ⟨i, by simp⟩
  exact absurd hcard (not_le.mpr (Finset.card_lt_card hsub))

end Order

section Differences
variable {ι α : Type*} [LinearOrder ι] [LocallyFiniteOrderBot ι]
variable [AddCommGroup α] [LinearOrder α] [IsOrderedAddMonoid α] {s r : ι → α}

theorem sub_le_of_matching (hs : Monotone s) (hr : Monotone r) (σ : Equiv.Perm ι) {M : α}
    (h : ∀ i, r i - s (σ i) ≤ M) (i : ι) : r i - s i ≤ M := by
  have hmatch (j : ι) : r (σ.symm j) ≤ M + s j := by
    have hj := h (σ.symm j)
    rwa [Equiv.apply_symm_apply, sub_le_iff_le_add] at hj
  rw [sub_le_iff_le_add]
  exact le_of_matching hr (hs.const_add M) σ.symm hmatch i

theorem le_sub_of_matching (hs : Monotone s) (hr : Monotone r) (σ : Equiv.Perm ι) {m : α}
    (h : ∀ i, m ≤ r i - s (σ i)) (i : ι) : m ≤ r i - s i := by
  rw [le_sub_iff_add_le]
  exact le_of_matching (hs.const_add m) hr σ (fun j => le_sub_iff_add_le.mp (h j)) i

omit [LinearOrder ι] [LocallyFiniteOrderBot ι] [LinearOrder α] [IsOrderedAddMonoid α] in
theorem sum_sub_matching [Fintype ι] (s r : ι → α) (σ : Equiv.Perm ι) :
    ∑ i, (r i - s (σ i)) = ∑ i, (r i - s i) := by
  rw [Finset.sum_sub_distrib, Finset.sum_sub_distrib, Equiv.sum_comp]

end Differences

end MicrokernelBenchmark.SortedMatching
