import MicrokernelBenchmark.BoundedQueue
import Mathlib.Data.Finset.Basic

/-!
# Pipes with descriptor holders

A pipe is a bounded buffer together with the processes that hold a copy of its
read end and of its write end. Reading from an empty pipe waits while some write
end is open and reports the end of the file afterwards; writing to a pipe
without a read end breaks it. A process which exits closes all its ends.
-/
namespace MicrokernelBenchmark

/-- The result of a transfer: the caller waits, finds the other end closed, or
has transferred. -/
inductive Transfer (β : Type*) where
  | blocked
  | closed
  | done (b : β)
deriving DecidableEq, Repr

structure Pipe (μ P : Type*) (capacity : ℕ) where
  buffer : BoundedQueue μ capacity := .empty
  readers : Finset P
  writers : Finset P

namespace Pipe
variable {μ P : Type*} {capacity : ℕ} [DecidableEq P]

def read (p : Pipe μ P capacity) : Transfer (μ × Pipe μ P capacity) :=
  match p.buffer.receive with
  | some (m, q) => .done (m, { p with buffer := q })
  | none => if p.writers = ∅ then .closed else .blocked

def write (p : Pipe μ P capacity) (m : μ) : Transfer (Pipe μ P capacity) :=
  if p.readers = ∅ then .closed else
    match p.buffer.send m with
    | some q => .done { p with buffer := q }
    | none => .blocked

def closeRead (p : Pipe μ P capacity) (i : P) : Pipe μ P capacity :=
  { p with readers := p.readers.erase i }

def closeWrite (p : Pipe μ P capacity) (i : P) : Pipe μ P capacity :=
  { p with writers := p.writers.erase i }

def exit (p : Pipe μ P capacity) (i : P) : Pipe μ P capacity := (p.closeRead i).closeWrite i

section Fields
variable (p : Pipe μ P capacity) (i : P)

@[simp] theorem closeRead_buffer : (p.closeRead i).buffer = p.buffer := rfl
@[simp] theorem closeRead_readers : (p.closeRead i).readers = p.readers.erase i := rfl
@[simp] theorem closeRead_writers : (p.closeRead i).writers = p.writers := rfl
@[simp] theorem closeWrite_buffer : (p.closeWrite i).buffer = p.buffer := rfl
@[simp] theorem closeWrite_readers : (p.closeWrite i).readers = p.readers := rfl
@[simp] theorem closeWrite_writers : (p.closeWrite i).writers = p.writers.erase i := rfl
@[simp] theorem exit_buffer : (p.exit i).buffer = p.buffer := rfl
@[simp] theorem exit_readers : (p.exit i).readers = p.readers.erase i := rfl
@[simp] theorem exit_writers : (p.exit i).writers = p.writers.erase i := rfl

end Fields

variable {p q : Pipe μ P capacity} {m : μ}

theorem read_eq_done : p.read = .done (m, q) ↔
    p.buffer.items = m :: q.buffer.items ∧ q.readers = p.readers ∧ q.writers = p.writers := by
  obtain ⟨buffer, readers, writers⟩ := p
  obtain ⟨buffer', readers', writers'⟩ := q
  unfold read
  cases hr : buffer.receive with
  | none =>
      have hnil := BoundedQueue.receive_eq_none.mp hr
      simp only [hnil, reduceCtorEq, false_and, iff_false]
      split_ifs <;> simp
  | some r =>
      obtain ⟨k, r⟩ := r
      have hk := BoundedQueue.receive_eq_some.mp hr
      simp only [hk, Transfer.done.injEq, Prod.mk.injEq, Pipe.mk.injEq, BoundedQueue.ext_iff,
        List.cons.injEq]
      constructor
      · rintro ⟨rfl, hi, rfl, rfl⟩; exact ⟨⟨rfl, hi⟩, rfl, rfl⟩
      · rintro ⟨⟨rfl, hi⟩, rfl, rfl⟩; exact ⟨rfl, hi, rfl, rfl⟩

theorem read_eq_closed : p.read = .closed ↔ p.buffer.items = [] ∧ p.writers = ∅ := by
  unfold read
  cases hr : p.buffer.receive with
  | none => simp [BoundedQueue.receive_eq_none.mp hr]
  | some r => simp [BoundedQueue.receive_eq_some.mp hr]

theorem read_eq_blocked : p.read = .blocked ↔ p.buffer.items = [] ∧ p.writers ≠ ∅ := by
  unfold read
  cases hr : p.buffer.receive with
  | none => simp [BoundedQueue.receive_eq_none.mp hr]
  | some r => simp [BoundedQueue.receive_eq_some.mp hr]

theorem write_eq_done : p.write m = .done q ↔ p.readers ≠ ∅ ∧
    p.buffer.items.length < capacity ∧ q.buffer.items = p.buffer.items ++ [m] ∧
    q.readers = p.readers ∧ q.writers = p.writers := by
  obtain ⟨buffer, readers, writers⟩ := p
  obtain ⟨buffer', readers', writers'⟩ := q
  unfold write
  split_ifs with h
  · simp only at h
    simp [h]
  · cases hs : buffer.send m with
    | none =>
        have hfull : ¬ buffer.items.length < capacity := by
          rw [← BoundedQueue.send_isSome (m := m), hs]
          simp
        simp [hfull]
    | some r =>
        obtain ⟨hlt, hr⟩ := BoundedQueue.send_eq_some.mp hs
        simp only [Transfer.done.injEq, Pipe.mk.injEq, BoundedQueue.ext_iff, hr, ne_eq, h,
          not_false_eq_true, hlt, true_and]
        constructor
        · rintro ⟨hi, rfl, rfl⟩; exact ⟨hi.symm, rfl, rfl⟩
        · rintro ⟨hi, rfl, rfl⟩; exact ⟨hi.symm, rfl, rfl⟩

theorem write_eq_closed : p.write m = .closed ↔ p.readers = ∅ := by
  unfold write
  split_ifs with h
  · simp [h]
  · cases p.buffer.send m <;> simp [h]

theorem write_ne_blocked (h : p.buffer.items.length < capacity) : p.write m ≠ .blocked := by
  unfold write
  split_ifs
  · simp
  · obtain ⟨r, hr, -⟩ := p.buffer.exists_send m h
    simp [hr]

section Several

/-- Writes of few items are atomic: they wait until there is room for all of them. -/
def writeAll (p : Pipe μ P capacity) (ms : List μ) : Transfer (Pipe μ P capacity) :=
  if p.readers = ∅ then .closed
  else if h : p.buffer.items.length + ms.length ≤ capacity then
    .done { p with buffer := ⟨p.buffer.items ++ ms, by simpa using h⟩ }
  else .blocked

/-- A read takes what there is, up to a limit. -/
def readUpTo (p : Pipe μ P capacity) (limit : ℕ) : Transfer (List μ × Pipe μ P capacity) :=
  if p.buffer.items.isEmpty then if p.writers = ∅ then .closed else .blocked
  else .done (p.buffer.items.take limit, { p with
    buffer := ⟨p.buffer.items.drop limit, by
      have hbound := p.buffer.bounded
      simp
      omega⟩ })

/-- A child gets a copy of every end which its parent holds at the fork. -/
def inherit (p : Pipe μ P capacity) (parent child : P) : Pipe μ P capacity :=
  { p with
    readers := if parent ∈ p.readers then insert child p.readers else p.readers
    writers := if parent ∈ p.writers then insert child p.writers else p.writers }

theorem mem_inherit_readers {i j : P} (h : i ∈ p.readers) : i ∈ (p.inherit i j).readers := by
  rw [inherit, if_pos h]
  exact Finset.mem_insert_of_mem h

theorem of_mem_inherit_writers {i j k : P} (h : k ∈ (p.inherit i j).writers) :
    k ∈ p.writers ∨ k = j := by
  rw [inherit] at h
  dsimp only at h
  split at h
  case isTrue => exact (Finset.mem_insert.mp h).symm
  case isFalse => exact .inl h

theorem writeAll_eq_done {ms : List μ} (h : p.writeAll ms = .done q) :
    q.buffer.items = p.buffer.items ++ ms ∧ q.readers = p.readers ∧ q.writers = p.writers := by
  unfold writeAll at h
  split_ifs at h
  have hq := Transfer.done.inj h
  rw [← hq]
  exact ⟨rfl, rfl, rfl⟩

theorem exists_writeAll {ms : List μ} (hreaders : p.readers ≠ ∅)
    (hroom : p.buffer.items.length + ms.length ≤ capacity) : ∃ q, p.writeAll ms = .done q := by
  rw [writeAll, if_neg hreaders, dif_pos hroom]
  exact ⟨_, rfl⟩

theorem readUpTo_eq_done {limit : ℕ} {ms : List μ} (h : p.readUpTo limit = .done (ms, q)) :
    q.readers = p.readers ∧ q.writers = p.writers := by
  unfold readUpTo at h
  split_ifs at h
  obtain ⟨-, hq⟩ := Prod.mk.inj (Transfer.done.inj h)
  rw [← hq]
  exact ⟨rfl, rfl⟩

theorem readUpTo_nil (h : p.buffer.items = []) (limit : ℕ) :
    p.readUpTo limit = if p.writers = ∅ then .closed else .blocked := by
  have hempty : p.buffer.items.isEmpty := by simp [h]
  rw [readUpTo, if_pos hempty]

theorem readUpTo_eq_closed {limit : ℕ} (h : p.readUpTo limit = .closed) :
    p.buffer.items = [] := by
  by_contra hne
  have hnonempty : ¬ p.buffer.items.isEmpty := by simpa using hne
  rw [readUpTo, if_neg hnonempty] at h
  cases h

theorem readUpTo_ne_blocked (h : p.writers = ∅) (limit : ℕ) : p.readUpTo limit ≠ .blocked := by
  rw [readUpTo, if_pos h]
  split
  · simp
  · simp

theorem readUpTo_all {limit : ℕ} (hne : p.buffer.items ≠ []) (h : p.buffer.items.length ≤ limit) :
    p.readUpTo limit = .done (p.buffer.items, { p with buffer := .empty }) := by
  have hnonempty : ¬ p.buffer.items.isEmpty := by simpa using hne
  rw [readUpTo, if_neg hnonempty]
  simp [List.take_of_length_le h, List.drop_eq_nil_of_le h, BoundedQueue.empty]

end Several

end Pipe
end MicrokernelBenchmark
