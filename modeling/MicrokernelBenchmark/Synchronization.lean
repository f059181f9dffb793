import Mathlib.Data.Nat.Notation
import Mathlib.Data.Option.Basic

/-!
# Semaphores and mutexes

A semaphore that starts at zero keeps how often it was posted and taken, and
carries the proof that it was never taken more often than posted. Its value is
the difference. So a party that has got past its wait knows that someone else
has got past a post. A mutex keeps its owner; only the owner can unlock it.
-/
namespace MicrokernelBenchmark.Synchronization

theorem none_taken : 0 ≤ 0 := Nat.le_refl 0

structure Semaphore where
  posted : ℕ := 0
  taken : ℕ := 0
  le : taken ≤ posted := by exact none_taken
deriving DecidableEq

namespace Semaphore

def post (s : Semaphore) : Semaphore where
  posted := s.posted + 1
  taken := s.taken
  le := Nat.le_succ_of_le s.le

/-- Blocked while the value is zero. -/
def wait (s : Semaphore) : Option Semaphore :=
  if h : s.taken < s.posted then some ⟨s.posted, s.taken + 1, h⟩ else none

@[simp] theorem post_posted (s : Semaphore) : s.post.posted = s.posted + 1 := rfl

@[simp] theorem post_taken (s : Semaphore) : s.post.taken = s.taken := rfl

theorem wait_eq_some {s t : Semaphore} :
    s.wait = some t ↔ t.posted = s.posted ∧ t.taken = s.taken + 1 := by
  obtain ⟨p, k, hk⟩ := t
  unfold wait
  constructor
  · intro h
    split at h
    · cases h
      exact ⟨rfl, rfl⟩
    · cases h
  · rintro ⟨rfl, rfl⟩
    exact dif_pos hk

theorem wait_eq_none {s : Semaphore} : s.wait = none ↔ s.posted = s.taken := by
  have hle := s.le
  unfold wait
  split
  case isTrue h => exact iff_of_false (by simp) (Nat.ne_of_gt h)
  case isFalse h => exact iff_of_true rfl (Nat.le_antisymm (Nat.le_of_not_lt h) hle)

end Semaphore

structure Mutex (α : Type*) where
  owner : Option α := none
deriving DecidableEq, Repr

namespace Mutex
variable {α : Type*}

/-- Blocked while someone owns the mutex. -/
def lock (m : Mutex α) (a : α) : Option (Mutex α) :=
  if m.owner = none then some ⟨some a⟩ else none

/-- Undefined unless the caller owns the mutex. -/
def unlock [DecidableEq α] (m : Mutex α) (a : α) : Option (Mutex α) :=
  if m.owner = some a then some ⟨none⟩ else none

theorem lock_eq_some {m k : Mutex α} {a : α} :
    m.lock a = some k ↔ m.owner = none ∧ k = ⟨some a⟩ := by
  simp [lock, eq_comm]

theorem unlock_eq_some [DecidableEq α] {m k : Mutex α} {a : α} :
    m.unlock a = some k ↔ m.owner = some a ∧ k = ⟨none⟩ := by
  simp [unlock, eq_comm]

end Mutex

end MicrokernelBenchmark.Synchronization
