import MicrokernelBenchmark.TransitionSystem
import Mathlib.Data.Finset.Basic
import Mathlib.Data.Finset.Range
import Mathlib.Data.List.Induction
import Mathlib.Logic.Function.Basic

/-!
# Threads which repeat a pass until they see a flag

A pool allocates its arrays, creates its threads one after the other, sleeps,
sets the flag, joins the threads in the order of their creation, reports the
slots of the first of them and frees the arrays. A thread tests the flag before
each pass; a step of a pass works on the slot of its thread only.

The rules say of every interleaving that a slot is what the events of its own
thread make of it and that the report shows the last value of each slot.
-/
namespace MicrokernelBenchmark.WorkerPool
open TransitionSystem

/-- What a thread does in one pass of its loop. An event `ε` is one step together with
what the environment supplies to it, and the pass is over when no place `β` is left. -/
structure Loop (ε β δ : Type*) where
  enter : β
  step : ε → β → δ → Option (Option β × δ)

inductive Thread (β : Type*) where
  | absent
  | test
  | pass (b : β)
  | ended
deriving DecidableEq, Repr

inductive Event (ε : Type*) where
  | test (seen : Bool)
  | step (e : ε)
deriving DecidableEq, Repr

section Loops
variable {ε β δ : Type*}

def Loop.tick (L : Loop ε β δ) : Event ε → Thread β × δ → Option (Thread β × δ)
  | .test seen, (.test, d) => some (if seen then .ended else .pass L.enter, d)
  | .step e, (.pass b, d) => (L.step e b d).map fun p => (p.1.elim .test .pass, p.2)
  | _, _ => none

/-- A thread on its own, from its creation with the given slot. -/
def Loop.thread (L : Loop ε β δ) (d : δ) : System (Event ε) (Thread β × δ) :=
  ⟨(.test, d), L.tick⟩

def Event.agrees (stop : Bool) : Event ε → Bool
  | .test seen => seen = stop
  | .step _ => true

/-- A pass which can always go on, for at most as many steps as its place has left. -/
structure Loop.Terminating (L : Loop ε β δ) (left : β → ℕ) : Prop where
  live : ∀ b d, ∃ e, (L.step e b d).isSome
  lt : ∀ e b d b' d', L.step e b d = some (some b', d') → left b' < left b

/-- The steps of a thread up to its end when the flag is set. -/
def Thread.left (left : β → ℕ) : Thread β → ℕ
  | .absent | .ended => 0
  | .test => 1
  | .pass b => left b + 2

variable {L : Loop ε β δ} {e : Event ε} {p q : Thread β × δ}

theorem Loop.tick_started (h : L.tick e p = some q) :
    (p.1 ≠ .absent ∧ p.1 ≠ .ended) ∧ q.1 ≠ .absent := by
  rcases p with ⟨_ | _ | b | _, d⟩ <;> rcases e with seen | e <;> simp only [tick] at h
  all_goals try cases h
  · cases seen <;> exact ⟨⟨nofun, nofun⟩, nofun⟩
  · obtain ⟨⟨b', d'⟩, -, rfl⟩ := Option.map_eq_some_iff.mp h
    cases b' <;> exact ⟨⟨nofun, nofun⟩, nofun⟩

theorem Loop.tick_ended (h : L.tick e p = some q) (hq : q.1 = .ended) : e = .test true := by
  rcases p with ⟨_ | _ | b | _, d⟩ <;> rcases e with seen | e <;> simp only [tick] at h
  all_goals try cases h
  · cases seen
    · cases hq
    · rfl
  · obtain ⟨⟨b', d'⟩, -, rfl⟩ := Option.map_eq_some_iff.mp h
    cases b' <;> cases hq

theorem Loop.Terminating.tick_lt {left : β → ℕ} (hL : L.Terminating left)
    (h : L.tick e p = some q) (hagrees : e.agrees true) : q.1.left left < p.1.left left := by
  rcases p with ⟨_ | _ | b | _, d⟩ <;> rcases e with seen | e <;> simp only [tick] at h
  all_goals try cases h
  · have hseen : seen = true := by simpa [Event.agrees] using hagrees
    subst hseen
    exact Nat.zero_lt_one
  · obtain ⟨⟨b', d'⟩, hstep, rfl⟩ := Option.map_eq_some_iff.mp h
    cases b' with
    | none =>
        simp only [Option.elim, Thread.left]
        omega
    | some b' =>
        have hlt := hL.lt e b d b' d' hstep
        simp only [Option.elim, Thread.left]
        omega

theorem Loop.Terminating.exists_tick {left : β → ℕ} (hL : L.Terminating left) (stop : Bool)
    (hp : p.1 ≠ .absent ∧ p.1 ≠ .ended) :
    ∃ e : Event ε, e.agrees stop = true ∧ (L.tick e p).isSome = true := by
  rcases p with ⟨_ | _ | b | _, d⟩
  · exact absurd rfl hp.1
  · exact ⟨.test stop, by simp [Event.agrees], rfl⟩
  · obtain ⟨e, he⟩ := hL.live b d
    refine ⟨.step e, rfl, ?_⟩
    rw [tick, Option.isSome_map]
    exact he
  · exact absurd rfl hp.2

end Loops

/-- The program of a pool. The element `handle i` of an array keeps the thread `i`, and
the element `i` of the array `slotArray` is the slot of a reported thread. -/
structure Pool (ε β δ ρ : Type*) where
  setup : ℕ
  arrays : ℕ
  size : ℕ → ℕ
  threads : ℕ
  handle : ℕ → ℕ × ℕ
  reported : ℕ
  slotArray : ℕ
  loop : ℕ → Loop ε β δ
  fresh : ℕ → δ
  line : δ → Option ρ

inductive Pc where
  | setup (k : ℕ)
  | malloc (k : ℕ)
  | create (i : ℕ)
  | sleep
  | raise
  | join (i : ℕ)
  | report (i : ℕ)
  | free (k : ℕ)
  | returned
  | exitFailure
deriving DecidableEq, Repr

structure State (β δ ρ : Type*) where
  pc : Pc := .setup 0
  stop : Bool := false
  live : Finset ℕ := ∅
  threads : ℕ → Thread β := fun _ => .absent
  slots : ℕ → δ
  printed : List ρ := []

def Pc.raised : Pc → Bool
  | .join _ | .report _ | .free _ | .returned => true
  | _ => false

inductive Action (ε : Type*) where
  | main (outcome : Outcome)
  | thread (i : ℕ) (e : Event ε)
deriving DecidableEq, Repr

namespace Pool
variable {ε β δ ρ : Type*} (P : Pool ε β δ ρ)

section Steps
variable [DecidableEq β]

def mainSuccess (s : State β δ ρ) : Option (State β δ ρ) :=
  match s.pc with
  | .setup k => some { s with pc := if k < P.setup then .setup (k + 1) else .malloc 0 }
  | .malloc k =>
      if k < P.arrays then some { s with pc := .malloc (k + 1), live := insert k s.live }
      else some { s with
        pc := if s.live = Finset.range P.arrays then .create 0 else .exitFailure }
  | .create i =>
      if i < P.threads then some { s with
        pc := .create (i + 1)
        slots := Function.update s.slots i (P.fresh i)
        threads := Function.update s.threads i .test }
      else some { s with pc := .sleep }
  | .sleep => some { s with pc := .raise }
  | .raise => some { s with pc := .join 0, stop := true }
  | .join i =>
      if i < P.threads then
        if s.threads i = .ended then some { s with pc := .join (i + 1) } else none
      else some { s with pc := .report 0 }
  | .report i =>
      if i < P.reported then some { s with
        pc := .report (i + 1)
        printed := s.printed ++ (P.line (s.slots i)).toList }
      else some { s with pc := .free 0 }
  | .free k =>
      if k < P.arrays then some { s with pc := .free (k + 1), live := s.live.erase k }
      else some { s with pc := .returned }
  | .returned | .exitFailure => none

/-- A failed `malloc` is noticed after the last one, the other failures at once. -/
def mainFailure (s : State β δ ρ) : Option (State β δ ρ) :=
  match s.pc with
  | .setup k => if k < P.setup then some { s with pc := .exitFailure } else none
  | .malloc k => if k < P.arrays then some { s with pc := .malloc (k + 1) } else none
  | .create i => if i < P.threads then some { s with pc := .exitFailure } else none
  | _ => none

/-- The threads end with the process. -/
def tick : Action ε → State β δ ρ → Option (State β δ ρ)
  | .main .success, s => P.mainSuccess s
  | .main .failure, s => P.mainFailure s
  | .thread i e, s =>
      if s.pc = .returned ∨ s.pc = .exitFailure then none
      else if e.agrees s.stop then
        ((P.loop i).tick e (s.threads i, s.slots i)).map fun p => { s with
          threads := Function.update s.threads i p.1
          slots := Function.update s.slots i p.2 }
      else none

/-- The program, with whatever the slots hold before their thread is created. -/
def main (garbage : ℕ → δ) : System (Action ε) (State β δ ρ) := ⟨{ slots := garbage }, P.tick⟩

end Steps

section Moves
variable {P} {s t : State β δ ρ}

inductive MainMove (P : Pool ε β δ ρ) (s : State β δ ρ) : State β δ ρ → Prop
  | setup (k : ℕ) (hpc : s.pc = .setup k) : MainMove P s { s with pc := .setup (k + 1) }
  | setupDone (k : ℕ) (hpc : s.pc = .setup k) : MainMove P s { s with pc := .malloc 0 }
  | malloc (k : ℕ) (hpc : s.pc = .malloc k) (hk : k < P.arrays) :
      MainMove P s { s with pc := .malloc (k + 1), live := insert k s.live }
  | mallocFails (k : ℕ) (hpc : s.pc = .malloc k) : MainMove P s { s with pc := .malloc (k + 1) }
  | mallocDone (k : ℕ) (hpc : s.pc = .malloc k) (hlive : s.live = Finset.range P.arrays) :
      MainMove P s { s with pc := .create 0 }
  | exit (hpc : s.pc.raised = false) : MainMove P s { s with pc := .exitFailure }
  | create (i : ℕ) (hpc : s.pc = .create i) (hi : i < P.threads) :
      MainMove P s { s with
        pc := .create (i + 1)
        slots := Function.update s.slots i (P.fresh i)
        threads := Function.update s.threads i .test }
  | createDone (i : ℕ) (hpc : s.pc = .create i) (hi : P.threads ≤ i) :
      MainMove P s { s with pc := .sleep }
  | sleep (hpc : s.pc = .sleep) : MainMove P s { s with pc := .raise }
  | raise (hpc : s.pc = .raise) : MainMove P s { s with pc := .join 0, stop := true }
  | join (i : ℕ) (hpc : s.pc = .join i) (hi : i < P.threads) (hended : s.threads i = .ended) :
      MainMove P s { s with pc := .join (i + 1) }
  | joinDone (i : ℕ) (hpc : s.pc = .join i) (hi : P.threads ≤ i) :
      MainMove P s { s with pc := .report 0 }
  | report (i : ℕ) (hpc : s.pc = .report i) (hi : i < P.reported) :
      MainMove P s { s with
        pc := .report (i + 1)
        printed := s.printed ++ (P.line (s.slots i)).toList }
  | reportDone (i : ℕ) (hpc : s.pc = .report i) (hi : P.reported ≤ i) :
      MainMove P s { s with pc := .free 0 }
  | free (k : ℕ) (hpc : s.pc = .free k) (hk : k < P.arrays) :
      MainMove P s { s with pc := .free (k + 1), live := s.live.erase k }
  | freeDone (k : ℕ) (hpc : s.pc = .free k) (hk : P.arrays ≤ k) :
      MainMove P s { s with pc := .returned }

/-- A step of a thread, which leaves everything but the thread and its slot alone. -/
structure ThreadMove (P : Pool ε β δ ρ) (s : State β δ ρ) (i : ℕ) (e : Event ε)
    (t : State β δ ρ) : Prop where
  running : s.pc ≠ .returned ∧ s.pc ≠ .exitFailure
  agrees : e.agrees s.stop
  tick : (P.loop i).tick e (s.threads i, s.slots i) = some (t.threads i, t.slots i)
  others : ∀ j, j ≠ i → t.threads j = s.threads j ∧ t.slots j = s.slots j
  rest : t.pc = s.pc ∧ t.stop = s.stop ∧ t.live = s.live ∧ t.printed = s.printed

theorem mainSuccess_move [DecidableEq β] (h : P.mainSuccess s = some t) : MainMove P s t := by
  rw [mainSuccess] at h
  cases hpc : s.pc with
  | setup k =>
      rw [hpc] at h
      obtain rfl := Option.some.inj h
      split
      · exact .setup k hpc
      · exact .setupDone k hpc
  | malloc k =>
      simp only [hpc] at h
      split at h <;> obtain rfl := Option.some.inj h
      case isTrue hk => exact .malloc k hpc hk
      case isFalse hk =>
        split
        case isTrue hlive => exact .mallocDone k hpc hlive
        case isFalse => exact .exit (by rw [hpc]; rfl)
  | create i =>
      simp only [hpc] at h
      split at h <;> obtain rfl := Option.some.inj h
      case isTrue hi => exact .create i hpc hi
      case isFalse hi => exact .createDone i hpc (not_lt.mp hi)
  | sleep =>
      rw [hpc] at h
      obtain rfl := Option.some.inj h
      exact .sleep hpc
  | raise =>
      rw [hpc] at h
      obtain rfl := Option.some.inj h
      exact .raise hpc
  | join i =>
      simp only [hpc] at h
      split at h
      case isTrue hi =>
        obtain ⟨hended, h⟩ := Option.ite_none_right_eq_some.mp h
        obtain rfl := Option.some.inj h
        exact .join i hpc hi hended
      case isFalse hi =>
        obtain rfl := Option.some.inj h
        exact .joinDone i hpc (not_lt.mp hi)
  | report i =>
      simp only [hpc] at h
      split at h <;> obtain rfl := Option.some.inj h
      case isTrue hi => exact .report i hpc hi
      case isFalse hi => exact .reportDone i hpc (not_lt.mp hi)
  | free k =>
      simp only [hpc] at h
      split at h <;> obtain rfl := Option.some.inj h
      case isTrue hk => exact .free k hpc hk
      case isFalse hk => exact .freeDone k hpc (not_lt.mp hk)
  | returned | exitFailure =>
      rw [hpc] at h
      cases h

theorem mainFailure_move (h : P.mainFailure s = some t) : MainMove P s t := by
  rw [mainFailure] at h
  cases hpc : s.pc with
  | setup k | create k =>
      simp only [hpc] at h
      obtain ⟨-, h⟩ := Option.ite_none_right_eq_some.mp h
      obtain rfl := Option.some.inj h
      exact .exit (by rw [hpc]; rfl)
  | malloc k =>
      simp only [hpc] at h
      obtain ⟨-, h⟩ := Option.ite_none_right_eq_some.mp h
      obtain rfl := Option.some.inj h
      exact .mallocFails k hpc
  | _ =>
      rw [hpc] at h
      cases h

theorem tick_main_move [DecidableEq β] {o : Outcome} (h : P.tick (.main o) s = some t) :
    MainMove P s t := by
  cases o with
  | success => exact mainSuccess_move h
  | failure => exact mainFailure_move h

theorem tick_thread_move [DecidableEq β] {i : ℕ} {e : Event ε}
    (h : P.tick (.thread i e) s = some t) : ThreadMove P s i e t := by
  rw [tick] at h
  obtain ⟨hpc, h⟩ := Option.ite_none_left_eq_some.mp h
  obtain ⟨hagrees, h⟩ := Option.ite_none_right_eq_some.mp h
  obtain ⟨p, htick, rfl⟩ := Option.map_eq_some_iff.mp h
  have hother : ∀ j, j ≠ i → Function.update s.threads i p.1 j = s.threads j ∧
      Function.update s.slots i p.2 j = s.slots j :=
    fun j hj => ⟨Function.update_of_ne hj .., Function.update_of_ne hj ..⟩
  refine ⟨not_or.mp hpc, hagrees, ?_, hother, rfl, rfl, rfl, rfl⟩
  dsimp only
  rw [htick, Function.update_self, Function.update_self]

end Moves

section Invariants
variable {P}

def created (P : Pool ε β δ ρ) : Pc → ℕ
  | .setup _ | .malloc _ | .exitFailure => 0
  | .create i => i
  | _ => P.threads

def joined (P : Pool ε β δ ρ) : Pc → ℕ
  | .join i => i
  | .report _ | .free _ | .returned => P.threads
  | _ => 0

def shown (P : Pool ε β δ ρ) : Pc → ℕ
  | .report i => i
  | .free _ | .returned => P.reported
  | _ => 0

def InRange (P : Pool ε β δ ρ) : Pc → Prop
  | .create i | .join i => i ≤ P.threads
  | .report i => i ≤ P.reported
  | _ => True

/-- Between the arrays allocated so far and those not yet freed. -/
def Lives (P : Pool ε β δ ρ) (live : Finset ℕ) : Pc → Prop
  | .setup _ | .exitFailure => live = ∅
  | .malloc k => live ⊆ Finset.range k
  | .free k => live = (Finset.range P.arrays).filter (k ≤ ·)
  | .returned => live = ∅
  | _ => live = Finset.range P.arrays

def lines (P : Pool ε β δ ρ) (slots : ℕ → δ) (n : ℕ) : List ρ :=
  (List.range n).flatMap fun i => (P.line (slots i)).toList

/-- What holds at a place of the main thread. -/
structure Holds (P : Pool ε β δ ρ) (pc : Pc) (s : State β δ ρ) : Prop where
  inRange : P.InRange pc
  absent : ∀ i, s.threads i = .absent ↔ P.created pc ≤ i
  ended : ∀ i, s.threads i = .ended → s.stop = true
  joined : ∀ i < P.joined pc, s.threads i = .ended
  stop : s.stop = pc.raised
  live : P.Lives s.live pc
  printed : s.printed = P.lines s.slots (P.shown pc)

variable {s t : State β δ ρ}

theorem holds_init [DecidableEq β] (garbage : ℕ → δ) :
    Holds P (P.main garbage).init.pc (P.main garbage).init where
  inRange := trivial
  absent i := ⟨fun _ => Nat.zero_le i, fun _ => rfl⟩
  ended _ h := nomatch h
  joined i hi := absurd hi (Nat.not_lt_zero i)
  stop := rfl
  live := rfl
  printed := rfl

theorem lines_succ (slots : ℕ → δ) (n : ℕ) :
    P.lines slots (n + 1) = P.lines slots n ++ (P.line (slots n)).toList := by
  rw [lines, lines, List.range_succ, List.flatMap_append, List.flatMap_singleton]

theorem lines_congr {slots slots' : ℕ → δ} {n : ℕ} (h : ∀ i < n, slots' i = slots i) :
    P.lines slots' n = P.lines slots n := by
  rw [lines, lines]
  apply List.flatMap_congr
  intro i hi
  rw [h i (List.mem_range.mp hi)]

theorem insert_range_subset {live : Finset ℕ} {k : ℕ} (h : live ⊆ Finset.range k) :
    insert k live ⊆ Finset.range (k + 1) := by
  rw [Finset.range_add_one]
  exact Finset.insert_subset_insert k h

/-- The arrays from `k` on without the first of them. -/
theorem erase_filter_le (n k : ℕ) :
    ((Finset.range n).filter (k ≤ ·)).erase k = (Finset.range n).filter (k + 1 ≤ ·) := by
  ext x
  simp only [Finset.mem_erase, Finset.mem_filter, Finset.mem_range]
  omega

theorem Holds.create {i : ℕ} (h : Holds P (.create i) s) (hi : i < P.threads) :
    Holds P (.create (i + 1)) { s with
      pc := .create (i + 1)
      slots := Function.update s.slots i (P.fresh i)
      threads := Function.update s.threads i .test } := by
  have hstop : s.stop = false := h.stop
  refine ⟨hi, fun j => ?_, fun j hj => ?_, nofun, h.stop, h.live, h.printed⟩
  · have hj := h.absent j
    dsimp only
    rw [Function.update_apply]
    simp only [created] at hj ⊢
    split
    case isTrue heq => simp [heq]
    case isFalse hne => rw [hj]; omega
  · dsimp only at hj
    rw [Function.update_apply] at hj
    split at hj
    case isTrue => cases hj
    case isFalse => exact h.ended j hj

theorem Holds.mainMove (h : Holds P s.pc s) (hmove : MainMove P s t)
    (hrunning : t.pc ≠ .exitFailure) : Holds P t.pc t := by
  cases hmove with
  | exit hpc => exact absurd rfl hrunning
  | setup k hpc | sleep hpc =>
      rw [hpc] at h
      exact { h with }
  | setupDone k hpc =>
      rw [hpc] at h
      have hlive : s.live = ∅ := h.live
      exact { h with live := by rw [hlive]; exact Finset.empty_subset _ }
  | malloc k hpc hk =>
      rw [hpc] at h
      exact { h with live := insert_range_subset h.live }
  | mallocFails k hpc =>
      rw [hpc] at h
      have hsub : s.live ⊆ Finset.range k := h.live
      exact { h with live := hsub.trans (Finset.range_subset_range.mpr (Nat.le_succ k)) }
  | mallocDone k hpc hlive =>
      rw [hpc] at h
      exact { h with inRange := Nat.zero_le _, live := hlive }
  | create i hpc hi =>
      rw [hpc] at h
      exact h.create hi
  | createDone i hpc hi =>
      rw [hpc] at h
      have heq : i = P.threads := Nat.le_antisymm h.inRange hi
      have habsent := h.absent
      rw [heq] at habsent
      exact { h with inRange := trivial, absent := habsent }
  | raise hpc =>
      rw [hpc] at h
      exact { h with inRange := Nat.zero_le _, ended := fun _ _ => rfl, stop := rfl }
  | join i hpc hi hended =>
      rw [hpc] at h
      refine { h with inRange := hi, joined := fun j hj => ?_ }
      rcases Nat.lt_succ_iff_lt_or_eq.mp hj with hj | rfl
      · exact h.joined j hj
      · exact hended
  | joinDone i hpc hi =>
      rw [hpc] at h
      have heq : i = P.threads := Nat.le_antisymm h.inRange hi
      have hjoined := h.joined
      rw [heq] at hjoined
      exact { h with inRange := Nat.zero_le _, joined := hjoined }
  | report i hpc hi =>
      rw [hpc] at h
      have hprinted : s.printed = P.lines s.slots i := h.printed
      refine { h with inRange := hi, printed := ?_ }
      dsimp only
      rw [hprinted]
      exact (lines_succ s.slots i).symm
  | reportDone i hpc hi =>
      rw [hpc] at h
      have heq : i = P.reported := Nat.le_antisymm h.inRange hi
      have hprinted := h.printed
      rw [heq] at hprinted
      refine { h with inRange := trivial, printed := hprinted, live := ?_ }
      have hlive : s.live = Finset.range P.arrays := h.live
      simp [Lives, hlive]
  | free k hpc hk =>
      rw [hpc] at h
      have hlive : s.live = (Finset.range P.arrays).filter (k ≤ ·) := h.live
      refine { h with live := ?_ }
      dsimp only [Lives]
      rw [hlive, erase_filter_le]
  | freeDone k hpc hk =>
      rw [hpc] at h
      have hlive : s.live = (Finset.range P.arrays).filter (k ≤ ·) := h.live
      refine { h with live := ?_ }
      dsimp only [Lives]
      rw [hlive, Finset.filter_eq_empty_iff]
      intro x hx
      rw [Finset.mem_range] at hx
      omega

theorem shown_le_joined (hP : P.reported ≤ P.threads) {pc : Pc} (h : P.InRange pc) :
    P.shown pc ≤ P.joined pc := by
  cases pc with
  | report i => exact h.trans hP
  | free k | returned => exact hP
  | _ => exact Nat.zero_le _

theorem Holds.threadMove (hP : P.reported ≤ P.threads) {i : ℕ} {e : Event ε}
    (h : Holds P s.pc s) (hmove : ThreadMove P s i e t) : Holds P t.pc t := by
  obtain ⟨hpc, hstop, hlive, hprinted⟩ := hmove.rest
  obtain ⟨⟨habsent, hended⟩, habsent'⟩ := Loop.tick_started hmove.tick
  have hnot : ∀ j < P.joined s.pc, j ≠ i := by
    rintro j hj rfl
    exact hended (h.joined j hj)
  rw [hpc]
  refine ⟨h.inRange, fun j => ?_, fun j hj => ?_, fun j hj => ?_, ?_, ?_, ?_⟩
  · by_cases hj : j = i
    · subst hj
      rw [← h.absent j]
      exact iff_of_false habsent' habsent
    · rw [(hmove.others j hj).1, h.absent j]
  · rw [hstop]
    by_cases hji : j = i
    · subst hji
      have hagrees := hmove.agrees
      rw [Loop.tick_ended hmove.tick hj] at hagrees
      exact (of_decide_eq_true hagrees).symm
    · rw [(hmove.others j hji).1] at hj
      exact h.ended j hj
  · rw [(hmove.others j (hnot j hj)).1]
    exact h.joined j hj
  · rw [hstop]
    exact h.stop
  · rw [hlive]
    exact h.live
  · rw [hprinted, h.printed]
    symm
    apply lines_congr
    intro j hj
    exact (hmove.others j (hnot j (hj.trans_le (shown_le_joined hP h.inRange)))).2

variable [DecidableEq β] {garbage : ℕ → δ} {as : List (Action ε)}

theorem Holds.step (hP : P.reported ≤ P.threads) {a : Action ε} (h : Holds P s.pc s)
    (ht : P.tick a s = some t) (hrunning : t.pc ≠ .exitFailure) : Holds P t.pc t := by
  cases a with
  | main o => exact h.mainMove (tick_main_move ht) hrunning
  | thread i e => exact h.threadMove hP (tick_thread_move ht)

theorem tick_exitFailure {a : Action ε} (h : s.pc = .exitFailure) : P.tick a s = none := by
  rcases a with (_ | _) | ⟨i, e⟩
  · rw [Pool.tick, mainSuccess, h]
  · rw [Pool.tick, mainFailure, h]
  · rw [Pool.tick, if_pos (.inr h)]

theorem Holds.stop_of_exitFailure {a : Action ε} (h : Holds P s.pc s) (ht : P.tick a s = some t)
    (hexit : t.pc = .exitFailure) : t.stop = false := by
  cases a with
  | main o =>
      cases tick_main_move ht with
      | exit hpc => exact h.stop.trans hpc
      | _ => cases hexit
  | thread i e =>
      have hmove := tick_thread_move ht
      exact absurd (hmove.rest.1.symm.trans hexit) hmove.running.2

/-- Invariants of the schedule and the state, as long as the process goes on. -/
theorem history {Q : List (Action ε) → State β δ ρ → Prop} (hP : P.reported ≤ P.threads)
    (h : (P.main garbage).Run as (P.main garbage).init s) (nil : Q [] (P.main garbage).init)
    (snoc : ∀ as a u v, Holds P u.pc u → v.pc ≠ .exitFailure → P.tick a u = some v → Q as u →
      Q (as ++ [a]) v) :
    s.pc = .exitFailure ∧ s.stop = false ∨ Holds P s.pc s ∧ Q as s := by
  refine h.history
    (P := fun as s => s.pc = .exitFailure ∧ s.stop = false ∨ Holds P s.pc s ∧ Q as s)
    (.inr ⟨holds_init garbage, nil⟩) ?_
  rintro as a u v (⟨hexit, -⟩ | ⟨hu, hQ⟩) htick
  · rw [show (P.main garbage).tick a u = P.tick a u from rfl, tick_exitFailure hexit] at htick
    cases htick
  · by_cases hv : v.pc = .exitFailure
    · exact .inl ⟨hv, hu.stop_of_exitFailure htick hv⟩
    · have hholds := hu.step hP htick hv
      exact .inr ⟨hholds, snoc as a u v hu hv htick hQ⟩

theorem holds_of_run (hP : P.reported ≤ P.threads)
    (h : (P.main garbage).Run as (P.main garbage).init s) (hs : s.pc ≠ .exitFailure) :
    Holds P s.pc s :=
  ((history (Q := fun _ _ => True) hP h trivial fun _ _ _ _ _ _ _ _ => trivial).resolve_left
    fun hexit => hs hexit.1).1

end Invariants

section Slots
variable {P} {s t : State β δ ρ} {as : List (Action ε)} {i : ℕ}

/-- What a thread has done in a schedule. -/
def events (i : ℕ) (as : List (Action ε)) : List (Event ε) :=
  as.filterMap fun
    | .thread j e => if j = i then some e else none
    | .main _ => none

theorem events_append (i : ℕ) (as bs : List (Action ε)) :
    events i (as ++ bs) = events i as ++ events i bs := List.filterMap_append

theorem events_thread_self (e : Event ε) : events i [.thread i e] = [e] := by
  simp [events]

theorem events_thread_of_ne {j : ℕ} (h : j ≠ i) (e : Event ε) : events i [.thread j e] = [] := by
  simp [events, h]

theorem events_main (i : ℕ) (o : Outcome) : events (ε := ε) i [.main o] = [] := rfl

/-- The schedule of a thread on its own leads to the thread and slot of the pool. -/
def Alone (P : Pool ε β δ ρ) (as : List (Action ε)) (s : State β δ ρ) (i : ℕ) : Prop :=
  ((P.loop i).thread (P.fresh i)).Run (events i as) ((P.loop i).thread (P.fresh i)).init
    (s.threads i, s.slots i)

/-- Only the creation of a thread changes the threads and slots from the main thread. -/
theorem MainMove.frame (hmove : MainMove P s t) (hs : P.InRange s.pc)
    (hrunning : t.pc ≠ .exitFailure) :
    (P.created t.pc = P.created s.pc ∧ t.threads = s.threads ∧ t.slots = s.slots) ∨
    ∃ i, s.pc = .create i ∧ t.pc = .create (i + 1) ∧
      t.threads = Function.update s.threads i .test ∧
      t.slots = Function.update s.slots i (P.fresh i) := by
  cases hmove with
  | exit hpc => exact absurd rfl hrunning
  | create i hpc hi => exact .inr ⟨i, hpc, rfl, rfl, rfl⟩
  | createDone i hpc hi =>
      rw [hpc] at hs ⊢
      exact .inl ⟨Nat.le_antisymm hi hs, rfl, rfl⟩
  | setup k hpc | setupDone k hpc | malloc k hpc | mallocFails k hpc | mallocDone k hpc
  | sleep hpc | raise hpc | join k hpc | joinDone k hpc | report k hpc | reportDone k hpc
  | free k hpc | freeDone k hpc =>
      rw [hpc]
      exact .inl ⟨rfl, rfl, rfl⟩

/-- The slots of the threads created so far, each with the events of its own thread. -/
def Separate (P : Pool ε β δ ρ) (as : List (Action ε)) (s : State β δ ρ) : Prop :=
  ∀ i, (P.created s.pc ≤ i → events i as = []) ∧ (i < P.created s.pc → P.Alone as s i)

theorem Separate.main (h : P.Separate as s) {o : Outcome} (hmove : MainMove P s t)
    (hs : P.InRange s.pc) (hrunning : t.pc ≠ .exitFailure) :
    P.Separate (as ++ [.main o]) t := by
  intro i
  rw [Alone, events_append, events_main, List.append_nil]
  rcases hmove.frame hs hrunning with
    ⟨hcreated, hthreads, hslots⟩ | ⟨j, hpc, hpc', hthreads, hslots⟩
  · rw [hcreated, hthreads, hslots]
    exact h i
  · have hi := h i
    rw [hpc] at hi
    rw [hpc', hthreads, hslots]
    refine ⟨fun hle => hi.1 (Nat.le_of_succ_le hle), fun hlt => ?_⟩
    rcases Nat.lt_succ_iff_lt_or_eq.mp hlt with hlt | rfl
    · rw [Function.update_of_ne hlt.ne, Function.update_of_ne hlt.ne]
      exact hi.2 hlt
    · rw [Function.update_self, Function.update_self, hi.1 le_rfl]
      exact System.run_nil.mpr rfl

theorem Separate.thread (h : P.Separate as s) (hs : Holds P s.pc s) {j : ℕ} {e : Event ε}
    (hmove : ThreadMove P s j e t) : P.Separate (as ++ [.thread j e]) t := by
  have hj : j < P.created s.pc := by
    by_contra hle
    exact (Loop.tick_started hmove.tick).1.1 ((hs.absent j).mpr (not_lt.mp hle))
  intro i
  rw [hmove.rest.1, Alone, events_append]
  by_cases hij : j = i
  · subst hij
    rw [events_thread_self]
    refine ⟨fun hle => absurd hj (not_lt.mpr hle), fun hlt => ?_⟩
    exact System.run_snoc.mpr ⟨_, (h j).2 hlt, hmove.tick⟩
  · obtain ⟨hthread, hslot⟩ := hmove.others i (Ne.symm hij)
    rw [events_thread_of_ne hij, List.append_nil, hthread, hslot]
    exact h i

theorem separate_of_run [DecidableEq β] {garbage : ℕ → δ} (hP : P.reported ≤ P.threads)
    (h : (P.main garbage).Run as (P.main garbage).init s) :
    s.pc = .exitFailure ∧ s.stop = false ∨ Holds P s.pc s ∧ P.Separate as s := by
  refine history (Q := P.Separate) hP h ?_ ?_
  · exact fun i => ⟨fun _ => rfl, fun hi => absurd hi (Nat.not_lt_zero i)⟩
  · intro as a u v hu hv htick ih
    cases a with
    | main o => exact ih.main (tick_main_move htick) hu.inRange hv
    | thread j e => exact ih.thread hu (tick_thread_move htick)

/-- A complete run: every thread has ended, and what is printed is what the slots hold
after the events of their own threads. -/
theorem report_of_run [DecidableEq β] {garbage : ℕ → δ} (hP : P.reported ≤ P.threads)
    (h : (P.main garbage).Run as (P.main garbage).init s) (hs : s.pc = .returned) :
    s.printed = P.lines s.slots P.reported ∧ s.live = ∅ ∧
    ∀ i < P.threads, s.threads i = .ended ∧ P.Alone as s i := by
  have hsep := separate_of_run hP h
  rw [hs] at hsep
  obtain ⟨hholds, hsep⟩ := hsep.resolve_left fun hexit => nomatch hexit.1
  refine ⟨hholds.printed, hholds.live, fun i hi => ⟨hholds.joined i hi, (hsep i).2 ?_⟩⟩
  rw [hs]
  exact hi

end Slots

end Pool
end MicrokernelBenchmark.WorkerPool
