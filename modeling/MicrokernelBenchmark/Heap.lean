import Mathlib.Data.Finset.Card
import Mathlib.Logic.Function.Basic

/-!
# A heap and an array of pointers into it

A block is a number that is never given out twice, so a pointer to a block which
has been freed stays invalid. The slots of the array are unassigned until the
first store, and to load such a slot or to free what is not live is a fault.
-/
namespace MicrokernelBenchmark

theorem nothing_live : ∀ b ∈ (∅ : Finset ℕ), b < 0 := by simp

/-- Every live block has been given out. -/
structure Heap where
  next : ℕ := 0
  live : Finset ℕ := ∅
  below : ∀ b ∈ live, b < next := by exact nothing_live

/-- `none` is the null pointer. -/
abbrev Pointer := Option ℕ

inductive Slot where
  | unassigned
  | pointer (p : Pointer)
deriving DecidableEq, Repr

inductive Fault where
  | unassigned (i : ℕ)
  | invalidFree (b : ℕ)
deriving DecidableEq, Repr

namespace Heap

def malloc (h : Heap) : Bool → Pointer × Heap
  | true => (some h.next, {
      next := h.next + 1
      live := insert h.next h.live
      below := by
        intro b hb
        rcases Finset.mem_insert.mp hb with rfl | hb
        · exact Nat.lt_succ_self _
        · exact Nat.lt_succ_of_lt (h.below b hb) })
  | false => (none, h)

def free (h : Heap) : Pointer → Except Fault Heap
  | none => .ok h
  | some b =>
      if b ∈ h.live then
        .ok { h with
          live := h.live.erase b
          below := fun c hc => h.below c (Finset.mem_of_mem_erase hc) }
      else .error (.invalidFree b)

@[simp] theorem malloc_true_fst (h : Heap) : (h.malloc true).1 = some h.next := rfl
@[simp] theorem malloc_false_fst (h : Heap) : (h.malloc false).1 = none := rfl
@[simp] theorem malloc_true_next (h : Heap) : (h.malloc true).2.next = h.next + 1 := rfl
@[simp] theorem malloc_true_live (h : Heap) :
    (h.malloc true).2.live = insert h.next h.live := rfl
@[simp] theorem malloc_false_snd (h : Heap) : (h.malloc false).2 = h := rfl

/-- Only a granted call adds a block. -/
theorem card_malloc (h : Heap) (granted : Bool) :
    (h.malloc granted).2.live.card = h.live.card + granted.toNat := by
  cases granted with
  | false => rfl
  | true =>
      have hfresh : h.next ∉ h.live := fun hmem => (h.below _ hmem).false
      exact Finset.card_insert_of_notMem hfresh

end Heap

/-- A heap with an array whose slots hold pointers. -/
structure Slots where
  heap : Heap := {}
  ptrs : ℕ → Slot := fun _ => .unassigned

namespace Slots
variable (s : Slots)

def store (i : ℕ) (p : Pointer) : Slots :=
  { s with ptrs := Function.update s.ptrs i (.pointer p) }

/-- `free` of what slot `i` holds. -/
def freeSlot (i : ℕ) : Except Fault Slots :=
  match s.ptrs i with
  | .unassigned => .error (.unassigned i)
  | .pointer p => (s.heap.free p).map fun h => { s with heap := h }

@[simp] theorem store_heap (i : ℕ) (p : Pointer) : (s.store i p).heap = s.heap := rfl

theorem store_ptrs_self (i : ℕ) (p : Pointer) : (s.store i p).ptrs i = .pointer p :=
  Function.update_self ..

variable {s} {i : ℕ}

theorem store_ptrs_of_ne {j : ℕ} (h : j ≠ i) (p : Pointer) : (s.store i p).ptrs j = s.ptrs j :=
  Function.update_of_ne h ..

theorem freeSlot_unassigned (h : s.ptrs i = .unassigned) :
    s.freeSlot i = .error (.unassigned i) := by
  rw [freeSlot, h]

theorem freeSlot_null (h : s.ptrs i = .pointer none) : s.freeSlot i = .ok s := by
  rw [freeSlot, h]
  rfl

theorem freeSlot_live {b : ℕ} (h : s.ptrs i = .pointer (some b)) (hb : b ∈ s.heap.live) :
    ∃ t, s.freeSlot i = .ok t ∧ t.ptrs = s.ptrs ∧ t.heap.live = s.heap.live.erase b := by
  have hfree : s.heap.free (some b) = .ok { s.heap with
      live := s.heap.live.erase b
      below := fun c hc => s.heap.below c (Finset.mem_of_mem_erase hc) } := if_pos hb
  rw [freeSlot, h]
  dsimp only
  rw [hfree]
  exact ⟨_, rfl, rfl, rfl⟩

end Slots
end MicrokernelBenchmark
