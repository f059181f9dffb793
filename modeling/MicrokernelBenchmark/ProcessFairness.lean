import MicrokernelBenchmark.TransitionSystem
import MicrokernelBenchmark.Pipe
import MicrokernelBenchmark.DecimalText
import Mathlib.Algebra.Group.Action.Defs
import Mathlib.Algebra.Order.BigOperators.Group.List
import Mathlib.Data.List.Induction
import Mathlib.Data.List.TakeWhile
import Mathlib.Logic.Function.Basic

/-!
# The fairness tests

`process_fairness` and `ipc_pipe_latency` from their fork loops on, for any number
of children. A child counts for a while and writes its counter into a pipe of its
own; the parent waits for as many children as it has forked, reads the counters and
computes their statistics. The two programs differ in one point: only the first
one gives up when a clock call fails.

With what value the loop of a child ends is given by the label, as is the order in
which the children act and are reaped. A step is undefined where the call of its
process waits.
-/
namespace MicrokernelBenchmark.ProcessFairness
open TransitionSystem DecimalText

section Counters

def bufferSize : ℕ := 64

def text (counter : UInt64) : List UInt8 := printNat counter.toNat

/-- What `write` sends. A text that `snprintf` had to cut would make it run past the buffer. -/
def message (counter : UInt64) : Option (List UInt8) :=
  if (text counter).length < bufferSize then some (text counter) else none

/-- The entry of `counts` for what was read. -/
def count (buf : List UInt8) : UInt64 := strtoull (buf.takeWhile (· ≠ 0))

structure Statistics where
  min : UInt64
  max : UInt64
  sum : UInt64
deriving DecidableEq, Repr

def Statistics.add (s : Statistics) (c : UInt64) : Statistics where
  min := if c < s.min then c else s.min
  max := if c > s.max then c else s.max
  sum := s.sum + c

/-- Without children the first entry is not there; zero stands for it. -/
def statistics (counts : List UInt64) : Statistics :=
  counts.foldl Statistics.add ⟨counts.headD 0, counts.headD 0, 0⟩

end Counters

inductive Process where
  | parent
  | child (i : ℕ)
deriving DecidableEq, Repr

inductive ChildPc where
  | absent
  | closeRead
  | loop
  | write (counter : UInt64)
  | close
  | exit
  | exited
  | reaped
deriving DecidableEq, Repr

inductive ParentPc where
  | pipe (i : ℕ)
  | fork (i : ℕ)
  | closeWrite (i : ℕ)
  | wait (i : ℕ)
  | read (i : ℕ)
  | closeRead (i : ℕ)
  | done
  | failed
deriving DecidableEq, Repr

/-- The loop of a child `breaks` with a counter, or its clock fails; a signal can end a
child anywhere. A `reap` is a `wait` which returns that child. -/
inductive Action where
  | call (q : Process) (o : Outcome)
  | breaks (i : ℕ) (counter : UInt64)
  | clockFails (i : ℕ)
  | signal (i : ℕ)
  | reap (i : ℕ)
deriving DecidableEq, Repr

abbrev Channel (capacity : ℕ) := Pipe UInt8 Process capacity

/-- `wrote` is what a child has written, if anything. -/
structure State (capacity : ℕ) where
  pipes : ℕ → Channel capacity := fun _ => { readers := ∅, writers := ∅ }
  children : ℕ → ChildPc := fun _ => .absent
  wrote : ℕ → Option UInt64 := fun _ => none
  parent : ParentPc := .pipe 0
  counts : List UInt64 := []

variable {capacity : ℕ}

def ChildPc.alive : ChildPc → Bool
  | .absent | .exited | .reaped => false
  | _ => true

namespace State
variable (s : State capacity)

def setChild (i : ℕ) (c : ChildPc) : State capacity :=
  { s with children := Function.update s.children i c }

def setPipe (i : ℕ) (p : Channel capacity) : State capacity :=
  { s with pipes := Function.update s.pipes i p }

def exitChild (i : ℕ) : State capacity :=
  { s with pipes := fun k => (s.pipes k).exit (.child i) }.setChild i .exited

def exitParent (pc : ParentPc) : State capacity :=
  { s with pipes := fun k => (s.pipes k).exit .parent, parent := pc }

/-- Every child that was forked has been reaped. -/
def NoChild (n : ℕ) : Prop := ∀ i < n, s.children i = .absent ∨ s.children i = .reaped

instance (n : ℕ) : Decidable (s.NoChild n) :=
  inferInstanceAs (Decidable (∀ i < n, s.children i = .absent ∨ s.children i = .reaped))

end State

section Step
variable (clockChecked : Bool) (n : ℕ) (s : State capacity)

def parentSuccess : Option (State capacity) :=
  match s.parent with
  | .pipe i =>
      if i < n then
        some { s.setPipe i { readers := {.parent}, writers := {.parent} } with parent := .fork i }
      else some { s with parent := .closeWrite 0 }
  | .fork i => some { s.setChild i .closeRead with
      pipes := fun k => (s.pipes k).inherit .parent (.child i), parent := .pipe (i + 1) }
  | .closeWrite i =>
      if i < n then
        some { s.setPipe i ((s.pipes i).closeWrite .parent) with parent := .closeWrite (i + 1) }
      else some { s with parent := .wait 0 }
  | .wait i => if i < n then none else some { s with parent := .read 0 }
  | .read i =>
      if i < n then
        match (s.pipes i).readUpTo (bufferSize - 1) with
        | .blocked => none
        | .closed => some { s with counts := s.counts ++ [0], parent := .closeRead i }
        | .done (buf, p) => some { s.setPipe i p with
            counts := s.counts ++ [count buf], parent := .closeRead i }
      else some (s.exitParent .done)
  | .closeRead i =>
      some { s.setPipe i ((s.pipes i).closeRead .parent) with parent := .read (i + 1) }
  | .done | .failed => none

/-- A `wait` without a child fails and is not repeated. To `read` from an open pipe fails only
when a handler interrupts it, and no signal is handled. -/
def parentFailure : Option (State capacity) :=
  match s.parent with
  | .pipe i => if i < n then some (s.exitParent .failed) else none
  | .fork _ => some (s.exitParent .failed)
  | .wait i => if i < n ∧ s.NoChild n then some { s with parent := .wait (i + 1) } else none
  | _ => none

def childSuccess (i : ℕ) : Option (State capacity) :=
  match s.children i with
  | .closeRead => some (s.setPipe i ((s.pipes i).closeRead (.child i)) |>.setChild i .loop)
  | .write counter => (message counter).bind fun buffer =>
      match (s.pipes i).writeAll buffer with
      | .blocked => none
      | .closed => some (s.exitChild i)
      | .done p => some { (s.setPipe i p).setChild i .close with
          wrote := Function.update s.wrote i (some counter) }
  | .close => some (s.setPipe i ((s.pipes i).closeWrite (.child i)) |>.setChild i .exit)
  | .exit => some (s.exitChild i)
  | _ => none

def childFailure (i : ℕ) : Option (State capacity) :=
  match s.children i with
  | .write _ => some (s.setChild i .close)
  | _ => none

def tick : Action → Option (State capacity)
  | .call .parent .success => parentSuccess n s
  | .call .parent .failure => parentFailure n s
  | .call (.child i) .success => childSuccess s i
  | .call (.child i) .failure => childFailure s i
  | .breaks i counter =>
      if s.children i = .loop then some (s.setChild i (.write counter)) else none
  | .clockFails i =>
      if clockChecked ∧ s.children i = .loop then some (s.exitChild i) else none
  | .signal i => if (s.children i).alive then some (s.exitChild i) else none
  | .reap i =>
      match s.parent with
      | .wait j =>
          if j < n ∧ s.children i = .exited then
            some { s.setChild i .reaped with parent := .wait (j + 1) }
          else none
      | _ => none

end Step

def system (capacity : ℕ) (clockChecked : Bool) (n : ℕ) : System Action (State capacity) :=
  ⟨{}, fun a s => tick clockChecked n s a⟩

def processFairness (capacity n : ℕ) : System Action (State capacity) := system capacity true n

def ipcPipeLatency (capacity n : ℕ) : System Action (State capacity) := system capacity false n

section CounterTexts

theorem length_text_le (counter : UInt64) : (text counter).length ≤ 20 := by
  apply length_printNat_le (by decide)
  have hlt := counter.toNat_lt
  omega

theorem text_ne_nil (counter : UInt64) : text counter ≠ [] := printNat_ne_nil _

theorem message_eq (counter : UInt64) : message counter = some (text counter) :=
  if_pos (Nat.lt_of_le_of_lt (length_text_le counter) (by decide))

/-- A counter is read back from its text. -/
theorem count_text (counter : UInt64) : count (text counter) = counter := by
  have hstring : (text counter).takeWhile (· ≠ 0) = text counter := by
    rw [List.takeWhile_eq_self_iff]
    intro b hb
    rw [decide_eq_true_eq]
    rintro rfl
    cases isDigit_of_mem_printNat hb
  rw [count, hstring, text, strtoull_printNat counter.toNat_lt, UInt64.ofNat_toNat]

end CounterTexts

section Extremes

/-- The extremes of a first entry and those gone through, and the total of the latter. -/
structure Summarises (s : Statistics) (first : UInt64) (cs : List UInt64) : Prop where
  min_mem : s.min ∈ first :: cs
  min_le : ∀ c ∈ first :: cs, s.min ≤ c
  max_mem : s.max ∈ first :: cs
  le_max : ∀ c ∈ first :: cs, c ≤ s.max
  sum : s.sum.toNat = (cs.map UInt64.toNat).sum % 2 ^ 64

variable {s : Statistics} {first c : UInt64} {cs : List UInt64}

theorem Statistics.add_min_le (s : Statistics) (c : UInt64) :
    (s.add c).min ≤ s.min ∧ (s.add c).min ≤ c := by
  rw [Statistics.add]
  dsimp only
  split
  case isTrue hlt => exact ⟨UInt64.le_of_lt hlt, UInt64.le_refl c⟩
  case isFalse hle => exact ⟨UInt64.le_refl s.min, UInt64.not_lt.mp hle⟩

theorem Statistics.le_add_max (s : Statistics) (c : UInt64) :
    s.max ≤ (s.add c).max ∧ c ≤ (s.add c).max := by
  rw [Statistics.add]
  dsimp only
  split
  case isTrue hlt => exact ⟨UInt64.le_of_lt hlt, UInt64.le_refl c⟩
  case isFalse hle => exact ⟨UInt64.le_refl s.max, UInt64.not_lt.mp hle⟩

theorem mem_cons_snoc {x : UInt64} :
    x ∈ first :: (cs ++ [c]) ↔ x ∈ first :: cs ∨ x = c := by
  rw [← List.cons_append, List.mem_append, List.mem_singleton]

theorem Summarises.add (h : Summarises s first cs) (c : UInt64) :
    Summarises (s.add c) first (cs ++ [c]) where
  min_mem := by
    rw [mem_cons_snoc, Statistics.add]
    dsimp only
    split
    case isTrue => exact .inr rfl
    case isFalse => exact .inl h.min_mem
  min_le x hx := by
    have hle := s.add_min_le c
    rcases mem_cons_snoc.mp hx with hx | rfl
    · exact UInt64.le_trans hle.1 (h.min_le x hx)
    · exact hle.2
  max_mem := by
    rw [mem_cons_snoc, Statistics.add]
    dsimp only
    split
    case isTrue => exact .inr rfl
    case isFalse => exact .inl h.max_mem
  le_max x hx := by
    have hle := s.le_add_max c
    rcases mem_cons_snoc.mp hx with hx | rfl
    · exact UInt64.le_trans (h.le_max x hx) hle.1
    · exact hle.2
  sum := by
    rw [Statistics.add]
    dsimp only
    rw [UInt64.toNat_add, h.sum, List.map_append, List.sum_append, Nat.mod_add_mod]
    rfl

theorem summarises_foldl (first : UInt64) (cs : List UInt64) :
    Summarises (cs.foldl Statistics.add ⟨first, first, 0⟩) first cs := by
  induction cs using List.reverseRecOn with
  | nil => exact ⟨by simp, by simp, by simp, by simp, rfl⟩
  | append_singleton cs c ih =>
      rw [List.foldl_append]
      exact ih.add c

/-- The least entry, the greatest and, unless it overflows, the total. -/
structure Describes (s : Statistics) (counts : List UInt64) : Prop where
  min_mem : s.min ∈ counts
  min_le : ∀ c ∈ counts, s.min ≤ c
  max_mem : s.max ∈ counts
  le_max : ∀ c ∈ counts, c ≤ s.max
  sum : (counts.map UInt64.toNat).sum < 2 ^ 64 →
    s.sum.toNat = (counts.map UInt64.toNat).sum ∧
      s.min.toNat * counts.length ≤ s.sum.toNat ∧ s.sum.toNat ≤ s.max.toNat * counts.length

theorem describes_statistics {counts : List UInt64} (hne : counts ≠ []) :
    Describes (statistics counts) counts := by
  obtain ⟨first, cs, rfl⟩ := List.exists_cons_of_ne_nil hne
  have hmem : ∀ x, x ∈ first :: first :: cs ↔ x ∈ first :: cs := by simp
  have h : Summarises (statistics (first :: cs)) first (first :: cs) :=
    summarises_foldl first (first :: cs)
  refine ⟨(hmem _).mp h.min_mem, fun c hc => h.min_le c ((hmem c).mpr hc),
    (hmem _).mp h.max_mem, fun c hc => h.le_max c ((hmem c).mpr hc), fun hlt => ?_⟩
  have hsum := h.sum
  rw [Nat.mod_eq_of_lt hlt] at hsum
  have hleast : ∀ x ∈ (first :: cs).map UInt64.toNat,
      (statistics (first :: cs)).min.toNat ≤ x := by
    intro x hx
    obtain ⟨c, hc, rfl⟩ := List.mem_map.mp hx
    exact UInt64.le_iff_toNat_le.mp (h.min_le c ((hmem c).mpr hc))
  have hgreatest : ∀ x ∈ (first :: cs).map UInt64.toNat,
      x ≤ (statistics (first :: cs)).max.toNat := by
    intro x hx
    obtain ⟨c, hc, rfl⟩ := List.mem_map.mp hx
    exact UInt64.le_iff_toNat_le.mp (h.le_max c ((hmem c).mpr hc))
  have hlower := List.card_nsmul_le_sum _ _ hleast
  have hupper := List.sum_le_card_nsmul _ _ hgreatest
  rw [List.length_map, smul_eq_mul, Nat.mul_comm] at hlower hupper
  exact ⟨hsum, hsum ▸ hlower, hsum ▸ hupper⟩

end Extremes

end MicrokernelBenchmark.ProcessFairness
