import Mathlib.Data.List.Basic
import Mathlib.Data.Option.Basic

/-!
# First-in first-out queues of bounded length

The bound is a field of the queue, so no reachable value of the type holds more
messages than its capacity. Sending to a full queue and receiving from an empty
one are undefined: the caller would block. All messages have one priority.
-/
namespace MicrokernelBenchmark

@[ext] structure BoundedQueue (μ : Type*) (capacity : ℕ) where
  items : List μ
  bounded : items.length ≤ capacity

namespace BoundedQueue
variable {μ : Type*} {capacity : ℕ}

instance [DecidableEq μ] : DecidableEq (BoundedQueue μ capacity) := fun q r =>
  decidable_of_iff (q.items = r.items) BoundedQueue.ext_iff.symm

def empty : BoundedQueue μ capacity := ⟨[], Nat.zero_le _⟩

def send (q : BoundedQueue μ capacity) (m : μ) : Option (BoundedQueue μ capacity) :=
  if h : q.items.length < capacity then
    some ⟨q.items ++ [m], by simpa using Nat.succ_le_of_lt h⟩
  else none

def receive : BoundedQueue μ capacity → Option (μ × BoundedQueue μ capacity)
  | ⟨[], _⟩ => none
  | ⟨m :: ms, h⟩ => some (m, ⟨ms, Nat.le_of_succ_le h⟩)

@[simp] theorem empty_items : (empty : BoundedQueue μ capacity).items = [] := rfl

theorem send_eq_some {q r : BoundedQueue μ capacity} {m : μ} :
    q.send m = some r ↔ q.items.length < capacity ∧ r.items = q.items ++ [m] := by
  unfold send
  split_ifs with h
  · simp only [Option.some.injEq, BoundedQueue.ext_iff, h, true_and]
    exact eq_comm
  · simp [h]

theorem send_isSome {q : BoundedQueue μ capacity} {m : μ} :
    (q.send m).isSome ↔ q.items.length < capacity := by
  unfold send
  split_ifs with h <;> simp [h]

theorem receive_eq_some {q r : BoundedQueue μ capacity} {m : μ} :
    q.receive = some (m, r) ↔ q.items = m :: r.items := by
  obtain ⟨items, bounded⟩ := q
  cases items with
  | nil => simp [receive]
  | cons k ks => simp [receive, BoundedQueue.ext_iff]

theorem exists_send {q : BoundedQueue μ capacity} (m : μ) (h : q.items.length < capacity) :
    ∃ r, q.send m = some r ∧ r.items = q.items ++ [m] := by
  obtain ⟨r, hr⟩ := Option.isSome_iff_exists.mp (send_isSome.mpr h)
  exact ⟨r, hr, (send_eq_some.mp hr).2⟩

theorem exists_receive {q : BoundedQueue μ capacity} {m : μ} {ms : List μ}
    (h : q.items = m :: ms) : ∃ r, q.receive = some (m, r) ∧ r.items = ms := by
  obtain ⟨items, bounded⟩ := q
  subst h
  exact ⟨_, rfl, rfl⟩

theorem receive_eq_none {q : BoundedQueue μ capacity} : q.receive = none ↔ q.items = [] := by
  obtain ⟨items, bounded⟩ := q
  cases items <;> simp [receive]

end BoundedQueue
end MicrokernelBenchmark
