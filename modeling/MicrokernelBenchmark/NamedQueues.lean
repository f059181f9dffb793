import Mathlib.Logic.Function.Basic
import Mathlib.Data.Nat.Notation

/-!
# Queues which are opened by name

A name is linked to a queue until it is unlinked; the queue itself lives on in
its descriptors. Opening a linked name gives the queue that is there, with
whatever it holds, and opening another one creates a queue. A frame says that
only certain names have changed and that the earlier queues are as they were.
-/
namespace MicrokernelBenchmark.NamedQueues

/-- No name is linked to a queue which is still to be created. -/
structure Directory (ν κ : Type*) where
  linked : ν → Option ℕ
  queues : ℕ → κ
  next : ℕ
  created : ∀ name q, linked name = some q → q < next

namespace Directory
variable {ν κ : Type*} [DecidableEq ν]

def unlink (d : Directory ν κ) (name : ν) : Directory ν κ where
  linked := Function.update d.linked name none
  queues := d.queues
  next := d.next
  created other q h := by
    rw [Function.update_apply] at h
    split at h
    case isTrue => cases h
    case isFalse => exact d.created other q h

/-- The descriptor and the directory behind a call which may create the queue. -/
def openQueue (d : Directory ν κ) (empty : κ) (name : ν) : ℕ × Directory ν κ :=
  match d.linked name with
  | some q => (q, d)
  | none => (d.next, {
      linked := Function.update d.linked name (some d.next)
      queues := Function.update d.queues d.next empty
      next := d.next + 1
      created := by
        intro other q h
        rw [Function.update_apply] at h
        split at h
        case isTrue => exact Option.some.inj h ▸ Nat.lt_succ_self d.next
        case isFalse => exact Nat.lt_succ_of_lt (d.created other q h) })

variable {d : Directory ν κ} {name other : ν} {empty : κ}

@[simp] theorem unlink_linked_self : (d.unlink name).linked name = none :=
  Function.update_self ..

theorem unlink_linked_of_ne (h : other ≠ name) :
    (d.unlink name).linked other = d.linked other := Function.update_of_ne h ..

theorem openQueue_linked_of_ne (h : other ≠ name) :
    (d.openQueue empty name).2.linked other = d.linked other := by
  unfold openQueue
  split
  · rfl
  · exact Function.update_of_ne h ..

/-- A name that is not linked gets a queue of its own, which is empty. -/
theorem openQueue_of_none (h : d.linked name = none) :
    (d.openQueue empty name).1 = d.next ∧
    (d.openQueue empty name).2.linked name = some d.next ∧
    (d.openQueue empty name).2.queues d.next = empty ∧
    (d.openQueue empty name).2.next = d.next + 1 := by
  unfold openQueue
  rw [h]
  exact ⟨rfl, Function.update_self .., Function.update_self .., rfl⟩

theorem openQueue_queues_of_lt {q : ℕ} (h : q < d.next) :
    (d.openQueue empty name).2.queues q = d.queues q := by
  unfold openQueue
  split
  · rfl
  · exact Function.update_of_ne (Nat.ne_of_lt h) ..

theorem le_openQueue_next : d.next ≤ (d.openQueue empty name).2.next := by
  unfold openQueue
  split
  · exact Nat.le_refl _
  · exact Nat.le_succ _

/-- Beside the own names nothing has changed. -/
structure Frame (own : ν → Prop) (d e : Directory ν κ) : Prop where
  linked : ∀ name, ¬ own name → e.linked name = d.linked name
  queues : ∀ q < d.next, e.queues q = d.queues q
  next : d.next ≤ e.next

variable {own : ν → Prop} {e : Directory ν κ}

omit [DecidableEq ν] in
theorem Frame.refl (own : ν → Prop) (d : Directory ν κ) : Frame own d d :=
  ⟨fun _ _ => rfl, fun _ _ => rfl, Nat.le_refl _⟩

theorem Frame.unlink (h : Frame own d e) (hname : own name) : Frame own d (e.unlink name) where
  linked other hother := by
    have hne : other ≠ name := by
      rintro rfl
      exact hother hname
    rw [unlink_linked_of_ne hne, h.linked other hother]
  queues := h.queues
  next := h.next

theorem Frame.openQueue (h : Frame own d e) (hname : own name) :
    Frame own d (e.openQueue empty name).2 where
  linked other hother := by
    have hne : other ≠ name := by
      rintro rfl
      exact hother hname
    rw [openQueue_linked_of_ne hne, h.linked other hother]
  queues q hq := by
    rw [openQueue_queues_of_lt (Nat.lt_of_lt_of_le hq h.next), h.queues q hq]
  next := Nat.le_trans h.next le_openQueue_next

end Directory
end MicrokernelBenchmark.NamedQueues
