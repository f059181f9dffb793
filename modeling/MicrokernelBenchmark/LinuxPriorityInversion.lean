import MicrokernelBenchmark.TransitionSystem
import MicrokernelBenchmark.Synchronization
import MicrokernelBenchmark.BusyLoop

/-!
# Priority inversion with three start semaphores

`linux_priority_inversion`: all threads are created first and then released one
after the other, with a sleep of `main` between two posts. A sleep ends at any
time and orders nothing. The first call of the high thread to lock the mutex is
recorded with what it finds; no step reads the record.

Nothing makes `main` or the high thread wait for the low one, so the high thread
can lock first. The condition under which it waits behind the low thread is on
two steps, the last post of `main` and the unlock of the low thread.
-/
namespace MicrokernelBenchmark.LinuxPriorityInversion
open TransitionSystem System Synchronization BusyLoop

inductive SchedPolicy where
  | fifo
  | rr
  | other
deriving DecidableEq, Repr

inductive Task where
  | low
  | high
deriving DecidableEq, Repr

inductive MainPc where
  | createLow
  | createMed
  | createHigh
  | postLow
  | sleepLow
  | postMed
  | sleepMed
  | postHigh
  | joinHigh
  | returned
deriving DecidableEq, Repr

inductive LowPc where
  | absent
  | waitStart
  | lock
  | clockStart
  | hold
  | unlock
  | done
deriving DecidableEq, Repr

inductive MedPc where
  | absent
  | waitStart
  | clockStart
  | spin
  | done
deriving DecidableEq, Repr

inductive HighPc where
  | absent
  | waitStart
  | clockT0
  | lock
  | blocked
  | clockT1
  | print
  | unlock
  | done
deriving DecidableEq, Repr

def MainPc.place : MainPc → ℕ
  | .createLow => 0
  | .createMed => 1
  | .createHigh => 2
  | .postLow => 3
  | .sleepLow => 4
  | .postMed => 5
  | .sleepMed => 6
  | .postHigh => 7
  | .joinHigh => 8
  | .returned => 9

def LowPc.place : LowPc → ℕ
  | .absent => 0
  | .waitStart => 1
  | .lock => 2
  | .clockStart => 3
  | .hold => 4
  | .unlock => 5
  | .done => 6

def HighPc.place : HighPc → ℕ
  | .absent => 0
  | .waitStart => 1
  | .clockT0 => 2
  | .lock => 3
  | .blocked => 4
  | .clockT1 => 5
  | .print => 6
  | .unlock => 7
  | .done => 8

/-- The line "Linux (%s): high waited = %llu ms". -/
structure Report where
  pname : String
  waitedMs : ℤ
deriving DecidableEq, Repr

def pname : SchedPolicy → String
  | .fifo => "FIFO"
  | .rr => "RR"
  | .other => "UNKNOWN"

/-- What the high thread finds when it calls `pthread_mutex_lock`. -/
structure Attempt where
  lowAcquired : Bool
  owner : Option Task
deriving DecidableEq, Repr

structure State where
  semLowStart : Semaphore := {}
  semMedStart : Semaphore := {}
  semHighStart : Semaphore := {}
  mutex : Mutex Task := {}
  main : MainPc := .createLow
  low : LowPc := .absent
  lowT0 : ℤ := 0
  med : MedPc := .absent
  medT0 : ℤ := 0
  high : HighPc := .absent
  t0 : ℤ := 0
  t1 : ℤ := 0
  printed : List Report := []
  attempt : Option Attempt := none
deriving DecidableEq

inductive Action where
  | main
  | low (now : Timespec)
  | med (now : Timespec)
  | high (now : Timespec)
deriving DecidableEq, Repr

def mainStep (s : State) : Option State :=
  match s.main with
  | .createLow => some { s with main := .createMed, low := .waitStart }
  | .createMed => some { s with main := .createHigh, med := .waitStart }
  | .createHigh => some { s with main := .postLow, high := .waitStart }
  | .postLow => some { s with main := .sleepLow, semLowStart := s.semLowStart.post }
  | .sleepLow => some { s with main := .postMed }
  | .postMed => some { s with main := .sleepMed, semMedStart := s.semMedStart.post }
  | .sleepMed => some { s with main := .postHigh }
  | .postHigh => some { s with main := .joinHigh, semHighStart := s.semHighStart.post }
  | .joinHigh => if s.high = .done then some { s with main := .returned } else none
  | .returned => none

def lowTask (now : Timespec) (s : State) : Option State :=
  match s.low with
  | .absent | .done => none
  | .waitStart => s.semLowStart.wait.map fun sem => { s with low := .lock, semLowStart := sem }
  | .lock => (s.mutex.lock .low).map fun m => { s with low := .clockStart, mutex := m }
  | .clockStart => some { s with low := .hold, lowT0 := nowNs now }
  | .hold => some (if spins holdNs s.lowT0 now then s else { s with low := .unlock })
  | .unlock => (s.mutex.unlock .low).map fun m => { s with low := .done, mutex := m }

def medTask (now : Timespec) (s : State) : Option State :=
  match s.med with
  | .absent | .done => none
  | .waitStart =>
      s.semMedStart.wait.map fun sem => { s with med := .clockStart, semMedStart := sem }
  | .clockStart => some { s with med := .spin, medT0 := nowNs now }
  | .spin => some (if spins medNs s.medT0 now then s else { s with med := .done })

/-- The low thread has got the mutex, now or earlier. -/
def LowPc.Acquired (p : LowPc) : Prop := LowPc.clockStart.place ≤ p.place

instance (p : LowPc) : Decidable p.Acquired := inferInstanceAs (Decidable (_ ≤ _))

def State.found (s : State) : Attempt := ⟨s.low.Acquired, s.mutex.owner⟩

def highTask (policy : SchedPolicy) (now : Timespec) (s : State) : Option State :=
  match s.high with
  | .absent | .done => none
  | .waitStart =>
      s.semHighStart.wait.map fun sem => { s with high := .clockT0, semHighStart := sem }
  | .clockT0 => some { s with high := .lock, t0 := nowNs now }
  | .lock =>
      match s.mutex.lock .high with
      | some m => some { s with high := .clockT1, mutex := m, attempt := some s.found }
      | none => some { s with high := .blocked, attempt := some s.found }
  | .blocked => (s.mutex.lock .high).map fun m => { s with high := .clockT1, mutex := m }
  | .clockT1 => some { s with high := .print, t1 := nowNs now }
  | .print => some { s with
      high := .unlock, printed := s.printed ++ [⟨pname policy, waitedMs s.t0 s.t1⟩] }
  | .unlock => (s.mutex.unlock .high).map fun m => { s with high := .done, mutex := m }

/-- The return of `main` ends the process with all its threads. -/
def tick (policy : SchedPolicy) (a : Action) (s : State) : Option State :=
  if s.main = .returned then none
  else match a with
    | .main => mainStep s
    | .low now => lowTask now s
    | .med now => medTask now s
    | .high now => highTask policy now s

def main (policy : SchedPolicy) : System Action State := ⟨{}, tick policy⟩

/-- The high thread comes to the mutex after the low one has got it, and what
it prints is a wait behind the low thread. -/
structure BehindHolder (s : State) : Prop where
  acquired : ∀ att ∈ s.attempt, att.lowAcquired = true
  behind : s.printed ≠ [] → ∃ att ∈ s.attempt, att.owner = some .low

/-- The condition on a step: `main` releases the high thread only when the low
one has got the mutex, and that one gives it back only when the high thread has
come to it. -/
def InOrder : Action → State → Prop
  | .main, s => s.main = .postHigh → s.low.Acquired
  | .low _, s => s.low = .unlock → s.attempt.isSome
  | _, _ => True

instance : ∀ a s, Decidable (InOrder a s)
  | .main, s => inferInstanceAs (Decidable (s.main = .postHigh → s.low.Acquired))
  | .low _, s => inferInstanceAs (Decidable (s.low = .unlock → s.attempt.isSome))
  | .med _, _ => isTrue trivial
  | .high _, _ => isTrue trivial

def inOrder (policy : SchedPolicy) : System Action State := (main policy).restrict InOrder

/-- What the places of the threads say, in every run. -/
structure Invariant (s : State) : Prop where
  lowCreated : s.low = .absent ↔ s.main.place < 1
  highCreated : s.high = .absent ↔ s.main.place < 3
  lowStart : s.semLowStart.posted = if 4 ≤ s.main.place then 1 else 0
  lowStartTaken : s.semLowStart.taken = if 2 ≤ s.low.place then 1 else 0
  highStart : s.semHighStart.posted = if 8 ≤ s.main.place then 1 else 0
  highStartTaken : s.semHighStart.taken = if 2 ≤ s.high.place then 1 else 0
  lowInside : s.mutex.owner = some .low ↔ 3 ≤ s.low.place ∧ s.low.place ≤ 5
  highInside : s.mutex.owner = some .high ↔ 5 ≤ s.high.place ∧ s.high.place ≤ 7
  attempted : s.attempt.isSome ↔ 4 ≤ s.high.place
  printed : s.printed = [] ↔ s.high.place ≤ 6

theorem invariant_init : Invariant {} := by
  constructor <;> simp [MainPc.place, LowPc.place, HighPc.place]

section Steps
variable {policy : SchedPolicy} {s t : State} {now : Timespec}

theorem Invariant.main (h : Invariant s) (ht : mainStep s = some t) : Invariant t := by
  cases hpc : s.main <;> simp only [mainStep, hpc, Option.some.injEq,
    Option.ite_none_right_eq_some, reduceCtorEq] at ht
  case createLow =>
    have hlow : s.low = .absent := h.lowCreated.mpr (by simp [hpc, MainPc.place])
    subst ht
    exact { h with
      lowCreated := by simp [MainPc.place]
      highCreated := by simpa [hpc, MainPc.place] using h.highCreated
      lowStart := by simpa [hpc, MainPc.place] using h.lowStart
      highStart := by simpa [hpc, MainPc.place] using h.highStart
      lowStartTaken := by simpa [hlow, LowPc.place] using h.lowStartTaken
      lowInside := by simpa [hlow, LowPc.place] using h.lowInside }
  case createHigh =>
    have hhigh : s.high = .absent := h.highCreated.mpr (by simp [hpc, MainPc.place])
    subst ht
    exact { h with
      lowCreated := by simpa [hpc, MainPc.place] using h.lowCreated
      highCreated := by simp [MainPc.place]
      lowStart := by simpa [hpc, MainPc.place] using h.lowStart
      highStart := by simpa [hpc, MainPc.place] using h.highStart
      highStartTaken := by simpa [hhigh, HighPc.place] using h.highStartTaken
      highInside := by simpa [hhigh, HighPc.place] using h.highInside
      attempted := by simpa [hhigh, HighPc.place] using h.attempted
      printed := by simpa [hhigh, HighPc.place] using h.printed }
  case joinHigh =>
    obtain ⟨-, rfl⟩ := ht
    exact { h with
      lowCreated := by simpa [hpc, MainPc.place] using h.lowCreated
      highCreated := by simpa [hpc, MainPc.place] using h.highCreated
      lowStart := by simpa [hpc, MainPc.place] using h.lowStart
      highStart := by simpa [hpc, MainPc.place] using h.highStart }
  case createMed | postLow | sleepLow | postMed | sleepMed | postHigh =>
    subst ht
    exact { h with
      lowCreated := by simpa [hpc, MainPc.place] using h.lowCreated
      highCreated := by simpa [hpc, MainPc.place] using h.highCreated
      lowStart := by simpa [hpc, MainPc.place] using h.lowStart
      highStart := by simpa [hpc, MainPc.place] using h.highStart }

theorem Invariant.low (h : Invariant s) (ht : lowTask now s = some t) : Invariant t := by
  cases hpc : s.low <;> simp only [lowTask, hpc, Option.some.injEq, Option.map_eq_some_iff,
    Semaphore.wait_eq_some, Mutex.lock_eq_some, Mutex.unlock_eq_some, reduceCtorEq] at ht
  case waitStart =>
    obtain ⟨sem, ⟨hposted, htaken⟩, rfl⟩ := ht
    exact { h with
      lowCreated := by simpa [hpc] using h.lowCreated
      lowStart := hposted.trans h.lowStart
      lowStartTaken := by simpa [hpc, LowPc.place, h.lowStartTaken] using htaken
      lowInside := by simpa [hpc, LowPc.place] using h.lowInside }
  case lock =>
    obtain ⟨m, ⟨hfree, rfl⟩, rfl⟩ := ht
    exact { h with
      lowCreated := by simpa [hpc] using h.lowCreated
      lowStartTaken := by simpa [hpc, LowPc.place] using h.lowStartTaken
      lowInside := by simp [LowPc.place]
      highInside := by simpa [hfree] using h.highInside }
  case clockStart =>
    subst ht
    exact { h with
      lowCreated := by simpa [hpc] using h.lowCreated
      lowStartTaken := by simpa [hpc, LowPc.place] using h.lowStartTaken
      lowInside := by simpa [hpc, LowPc.place] using h.lowInside }
  case hold =>
    subst ht
    split
    · exact h
    · exact { h with
        lowCreated := by simpa [hpc] using h.lowCreated
        lowStartTaken := by simpa [hpc, LowPc.place] using h.lowStartTaken
        lowInside := by simpa [hpc, LowPc.place] using h.lowInside }
  case unlock =>
    obtain ⟨m, ⟨hown, rfl⟩, rfl⟩ := ht
    exact { h with
      lowCreated := by simpa [hpc] using h.lowCreated
      lowStartTaken := by simpa [hpc, LowPc.place] using h.lowStartTaken
      lowInside := by simp [LowPc.place]
      highInside := by simpa [hown] using h.highInside }

theorem Invariant.med (h : Invariant s) (ht : medTask now s = some t) : Invariant t := by
  cases hpc : s.med <;> simp only [medTask, hpc, Option.some.injEq, Option.map_eq_some_iff,
    reduceCtorEq] at ht
  case waitStart =>
    obtain ⟨sem, -, rfl⟩ := ht
    exact { h with }
  case clockStart =>
    subst ht
    exact { h with }
  case spin =>
    subst ht
    split
    · exact h
    · exact { h with }

theorem Invariant.high (h : Invariant s) (ht : highTask policy now s = some t) :
    Invariant t := by
  cases hpc : s.high <;> simp only [highTask, hpc, Option.some.injEq, Option.map_eq_some_iff,
    Semaphore.wait_eq_some, Mutex.lock_eq_some, Mutex.unlock_eq_some, reduceCtorEq] at ht
  case waitStart =>
    obtain ⟨sem, ⟨hposted, htaken⟩, rfl⟩ := ht
    exact { h with
      highCreated := by simpa [hpc, HighPc.place] using h.highCreated
      highStartTaken := by simpa [hpc, HighPc.place, h.highStartTaken] using htaken
      highInside := by simpa [hpc, HighPc.place] using h.highInside
      attempted := by simpa [hpc, HighPc.place] using h.attempted
      printed := by simpa [hpc, HighPc.place] using h.printed
      highStart := hposted.trans h.highStart }
  case clockT0 | clockT1 =>
    subst ht
    exact { h with
      highCreated := by simpa [hpc, HighPc.place] using h.highCreated
      highStartTaken := by simpa [hpc, HighPc.place] using h.highStartTaken
      highInside := by simpa [hpc, HighPc.place] using h.highInside
      attempted := by simpa [hpc, HighPc.place] using h.attempted
      printed := by simpa [hpc, HighPc.place] using h.printed }
  case lock =>
    split at ht
    case h_1 m hlock =>
      obtain ⟨hfree, rfl⟩ := Mutex.lock_eq_some.mp hlock
      rw [← Option.some.inj ht]
      exact { h with
        highCreated := by simpa [hpc] using h.highCreated
        highStartTaken := by simpa [hpc, HighPc.place] using h.highStartTaken
        lowInside := by simpa [hfree] using h.lowInside
        highInside := by simp [HighPc.place]
        attempted := by simp [HighPc.place]
        printed := by simpa [hpc, HighPc.place] using h.printed }
    case h_2 hlock =>
      rw [← Option.some.inj ht]
      exact { h with
        highCreated := by simpa [hpc] using h.highCreated
        highStartTaken := by simpa [hpc, HighPc.place] using h.highStartTaken
        highInside := by simpa [hpc, HighPc.place] using h.highInside
        attempted := by simp [HighPc.place]
        printed := by simpa [hpc, HighPc.place] using h.printed }
  case blocked =>
    obtain ⟨m, ⟨hfree, rfl⟩, rfl⟩ := ht
    exact { h with
      highCreated := by simpa [hpc, HighPc.place] using h.highCreated
      highStartTaken := by simpa [hpc, HighPc.place] using h.highStartTaken
      highInside := by simp [HighPc.place]
      attempted := by simpa [hpc, HighPc.place] using h.attempted
      printed := by simpa [hpc, HighPc.place] using h.printed
      lowInside := by simpa [hfree] using h.lowInside }
  case print =>
    subst ht
    exact { h with
      highCreated := by simpa [hpc, HighPc.place] using h.highCreated
      highStartTaken := by simpa [hpc, HighPc.place] using h.highStartTaken
      highInside := by simpa [hpc, HighPc.place] using h.highInside
      attempted := by simpa [hpc, HighPc.place] using h.attempted
      printed := by simp [HighPc.place] }
  case unlock =>
    obtain ⟨m, ⟨hown, rfl⟩, rfl⟩ := ht
    exact { h with
      highCreated := by simpa [hpc, HighPc.place] using h.highCreated
      highStartTaken := by simpa [hpc, HighPc.place] using h.highStartTaken
      highInside := by simp [HighPc.place]
      attempted := by simpa [hpc, HighPc.place] using h.attempted
      printed := by simpa [hpc, HighPc.place] using h.printed
      lowInside := by simpa [hown] using h.lowInside }

theorem Invariant.tick (h : Invariant s) {a : Action} (ht : tick policy a s = some t) :
    Invariant t := by
  simp only [LinuxPriorityInversion.tick, Option.ite_none_left_eq_some] at ht
  obtain ⟨-, ht⟩ := ht
  cases a with
  | main => exact h.main ht
  | low now => exact h.low ht
  | med now => exact h.med ht
  | high now => exact h.high ht

theorem invariant_of_reachable (h : (main policy).Reachable s) : Invariant s :=
  Reachable.invariant h invariant_init fun _ _ _ hs ht => hs.tick ht

/-- What the runs in order add: the low thread holds the mutex from the release
of the high thread on until that one has come to it. -/
structure Held (s : State) : Prop where
  invariant : Invariant s
  posted : 8 ≤ s.main.place → 3 ≤ s.low.place
  held : s.low = .done → s.attempt.isSome
  found : ∀ att ∈ s.attempt, att = ⟨true, some .low⟩

theorem held_init : Held {} := by
  refine ⟨invariant_init, ?_, ?_, ?_⟩ <;> simp [MainPc.place]

theorem Held.main (h : Held s) (hok : s.main = .postHigh → s.low.Acquired)
    (ht : mainStep s = some t) : Held t := by
  have hinv := h.invariant.main ht
  cases hpc : s.main <;> simp only [mainStep, hpc, Option.some.injEq,
    Option.ite_none_right_eq_some, reduceCtorEq] at ht
  case createLow =>
    subst ht
    exact { h with invariant := hinv, posted := by simp [MainPc.place], held := by simp }
  case postHigh =>
    subst ht
    exact { h with invariant := hinv, posted := fun _ => hok hpc }
  case joinHigh =>
    obtain ⟨-, rfl⟩ := ht
    exact { h with invariant := hinv, posted := fun _ => h.posted (by simp [hpc, MainPc.place]) }
  all_goals
    subst ht
    exact { h with invariant := hinv, posted := by simp [MainPc.place] }

theorem Held.low (h : Held s) (hok : s.low = .unlock → s.attempt.isSome)
    (ht : lowTask now s = some t) : Held t := by
  have hinv := h.invariant.low ht
  have hposted : 8 ≤ s.main.place → 3 ≤ s.low.place := h.posted
  cases hpc : s.low <;> simp only [lowTask, hpc, Option.some.injEq, Option.map_eq_some_iff,
    reduceCtorEq] at ht <;> simp only [hpc, LowPc.place] at hposted
  case waitStart =>
    obtain ⟨sem, -, rfl⟩ := ht
    exact { h with
      invariant := hinv
      posted := fun hm => absurd (hposted hm) (by decide)
      held := by simp }
  case lock =>
    obtain ⟨m, -, rfl⟩ := ht
    exact { h with invariant := hinv, posted := by simp [LowPc.place], held := by simp }
  case clockStart =>
    subst ht
    exact { h with invariant := hinv, posted := by simp [LowPc.place], held := by simp }
  case hold =>
    subst ht
    split
    · exact h
    · rw [if_neg ‹_›] at hinv
      exact { h with invariant := hinv, posted := by simp [LowPc.place], held := by simp }
  case unlock =>
    obtain ⟨m, -, rfl⟩ := ht
    exact { h with
      invariant := hinv
      posted := by simp [LowPc.place]
      held := fun _ => hok hpc }

theorem Held.med (h : Held s) (ht : medTask now s = some t) : Held t := by
  have hinv := h.invariant.med ht
  cases hpc : s.med <;> simp only [medTask, hpc, Option.some.injEq, Option.map_eq_some_iff,
    reduceCtorEq] at ht
  case waitStart =>
    obtain ⟨sem, -, rfl⟩ := ht
    exact { h with invariant := hinv }
  case clockStart =>
    subst ht
    exact { h with invariant := hinv }
  case spin =>
    subst ht
    split
    · exact h
    · rw [if_neg ‹_›] at hinv
      exact { h with invariant := hinv }

/-- The high thread has been released. -/
theorem Invariant.released (h : Invariant s) (hhigh : 2 ≤ s.high.place) :
    8 ≤ s.main.place := by
  have hle := s.semHighStart.le
  rw [h.highStart, h.highStartTaken, if_pos hhigh] at hle
  by_contra hmain
  simp [hmain] at hle

theorem Held.found_eq (h : Held s) (hpc : s.high = .lock) : s.found = ⟨true, some .low⟩ := by
  have hposted : 3 ≤ s.low.place :=
    h.posted (h.invariant.released (by simp [hpc, HighPc.place]))
  have hnone : ¬ s.attempt.isSome := by simp [h.invariant.attempted, hpc, HighPc.place]
  have hnotDone : s.low ≠ .done := fun hdone => hnone (h.held hdone)
  have hplace : s.low.place ≤ 5 := by
    cases hl : s.low <;> first | contradiction | simp [LowPc.place]
  have howner : s.mutex.owner = some .low := h.invariant.lowInside.mpr ⟨hposted, hplace⟩
  have hacquired : s.low.Acquired := hposted
  simp [State.found, hacquired, howner]

theorem Held.high (h : Held s) (ht : highTask policy now s = some t) : Held t := by
  have hinv := h.invariant.high ht
  cases hpc : s.high <;> simp only [highTask, hpc, Option.some.injEq, Option.map_eq_some_iff,
    reduceCtorEq] at ht
  case waitStart | blocked | unlock =>
    obtain ⟨_, -, rfl⟩ := ht
    exact { h with invariant := hinv }
  case lock =>
    have hfound := h.found_eq hpc
    split at ht
    all_goals
      have heq := Option.some.inj ht
      subst heq
      exact { h with
        invariant := hinv
        held := fun _ => rfl
        found := by simp [hfound] }
  all_goals
    subst ht
    exact { h with invariant := hinv }

theorem Held.tick (h : Held s) {a : Action} (hok : InOrder a s)
    (ht : tick policy a s = some t) : Held t := by
  simp only [LinuxPriorityInversion.tick, Option.ite_none_left_eq_some] at ht
  obtain ⟨-, ht⟩ := ht
  cases a with
  | main => exact h.main hok ht
  | low now => exact h.low hok ht
  | med now => exact h.med ht
  | high now => exact h.high ht

theorem held_of_reachable (h : (inOrder policy).Reachable s) : Held s := by
  apply Reachable.invariant h held_init
  intro a u v hu ht
  obtain ⟨hok, ht⟩ := restrict_tick.mp ht
  exact hu.tick hok ht

theorem Held.behindHolder (h : Held s) : BehindHolder s where
  acquired := by
    intro att hatt
    rw [h.found att hatt]
  behind := by
    intro hprinted
    have hplace : ¬ s.high.place ≤ 6 := fun hle => hprinted (h.invariant.printed.mpr hle)
    have hsome : s.attempt.isSome := h.invariant.attempted.mpr (by omega)
    obtain ⟨att, hatt⟩ := Option.isSome_iff_exists.mp hsome
    exact ⟨att, hatt, by rw [h.found att hatt]⟩

/-- Once released, the high thread can move until it has printed, unless it is
blocked, and all that it ever records is what it finds. -/
theorem Invariant.high_step (h : Invariant s) (policy : SchedPolicy) (hmain : s.main = .joinHigh)
    (hplace : s.high.place ≤ 6) (hfree : s.high = .blocked → s.mutex.owner = none) :
    ∃ t, highTask policy ⟨0, 0⟩ s = some t ∧ s.high.place < t.high.place ∧ t.main = s.main ∧
      t.low = s.low ∧ (t.attempt = s.attempt ∨ t.attempt = some s.found) := by
  cases hpc : s.high with
  | absent =>
      have hnot : s.high ≠ .absent := by simp [h.highCreated, hmain, MainPc.place]
      exact absurd hpc hnot
  | waitStart =>
      have hposted : s.semHighStart.posted = 1 := by simp [h.highStart, hmain, MainPc.place]
      have htaken : s.semHighStart.taken = 0 := by simp [h.highStartTaken, hpc, HighPc.place]
      cases hsem : s.semHighStart.wait with
      | none =>
          have heq := Semaphore.wait_eq_none.mp hsem
          omega
      | some sem =>
          refine ⟨{ s with high := .clockT0, semHighStart := sem }, ?_, ?_, rfl, rfl, .inl rfl⟩
          · rw [highTask, hpc, hsem]
            rfl
          · simp [HighPc.place]
  | lock =>
      cases hlock : s.mutex.lock .high with
      | none =>
          refine ⟨{ s with high := .blocked, attempt := some s.found }, ?_, ?_, rfl, rfl,
            .inr rfl⟩
          · rw [highTask, hpc, hlock]
          · simp [HighPc.place]
      | some m =>
          refine ⟨{ s with high := .clockT1, mutex := m, attempt := some s.found }, ?_, ?_, rfl,
            rfl, .inr rfl⟩
          · rw [highTask, hpc, hlock]
          · simp [HighPc.place]
  | blocked =>
      have hlock : s.mutex.lock .high = some ⟨some .high⟩ :=
        Mutex.lock_eq_some.mpr ⟨hfree hpc, rfl⟩
      refine ⟨{ s with high := .clockT1, mutex := ⟨some .high⟩ }, ?_, ?_, rfl, rfl, .inl rfl⟩
      · rw [highTask, hpc, hlock]
        rfl
      · simp [HighPc.place]
  | clockT0 =>
      refine ⟨{ s with high := .lock, t0 := nowNs ⟨0, 0⟩ }, ?_, ?_, rfl, rfl, .inl rfl⟩
      · rw [highTask, hpc]
      · simp [HighPc.place]
  | clockT1 =>
      refine ⟨{ s with high := .print, t1 := nowNs ⟨0, 0⟩ }, ?_, ?_, rfl, rfl, .inl rfl⟩
      · rw [highTask, hpc]
      · simp [HighPc.place]
  | print =>
      refine ⟨{ s with
        high := .unlock, printed := s.printed ++ [⟨pname policy, waitedMs s.t0 s.t1⟩] }, ?_, ?_,
        rfl, rfl, .inl rfl⟩
      · rw [highTask, hpc]
      · simp [HighPc.place]
  | unlock | done => simp [hpc, HighPc.place] at hplace

theorem Invariant.main_step (h : Invariant s) (hmain : s.main.place < 8) (hlow : s.low = .done) :
    ∃ t, mainStep s = some t ∧ t.main.place = s.main.place + 1 ∧
      s.high.place ≤ t.high.place ∧ t.low = s.low ∧ t.attempt = s.attempt := by
  cases hpc : s.main with
  | createLow =>
      have hcreated : s.low = .absent := h.lowCreated.mpr (by simp [hpc, MainPc.place])
      simp [hlow] at hcreated
  | createHigh =>
      have habsent : s.high = .absent := h.highCreated.mpr (by simp [hpc, MainPc.place])
      refine ⟨{ s with main := .postLow, high := .waitStart }, by rw [mainStep, hpc], rfl, ?_,
        rfl, rfl⟩
      simp [habsent, HighPc.place]
  | joinHigh | returned => simp [hpc, MainPc.place] at hmain
  | createMed | postLow | sleepLow | postMed | sleepMed | postHigh =>
      have hstep : (mainStep s).isSome := by rw [mainStep, hpc]; rfl
      obtain ⟨t, ht⟩ := Option.isSome_iff_exists.mp hstep
      refine ⟨t, ht, ?_⟩
      simp only [mainStep, hpc, Option.some.injEq] at ht
      subst ht
      exact ⟨rfl, Nat.le_refl _, rfl, rfl⟩

theorem tick_main (policy : SchedPolicy) (hmain : s.main ≠ .returned) :
    tick policy .main s = mainStep s :=
  if_neg hmain

theorem tick_high (policy : SchedPolicy) (hmain : s.main ≠ .returned) :
    tick policy (.high now) s = highTask policy now s := if_neg hmain

/-- Released before the low thread has the mutex, the high thread can come first. -/
theorem exists_early_attempt (h : Invariant s) (hmain : s.main = .joinHigh)
    (hbad : ¬ s.low.Acquired) (hnone : s.attempt = none) :
    ∃ as u, (main policy).Run as s u ∧ ¬ BehindHolder u := by
  have hgoal : ∃ as u, (∀ a ∈ as, True) ∧ (main policy).Run as s u ∧
      ∃ att ∈ u.attempt, att.lowAcquired = false := by
    apply exists_run_to (I := fun u => Invariant u ∧ u.main = .joinHigh ∧ ¬ u.low.Acquired ∧
        ∀ att ∈ u.attempt, att.lowAcquired = false) (fun _ => True) (fun u => 8 - u.high.place)
      ?_ s ⟨h, hmain, hbad, by simp [hnone]⟩
    rintro u ⟨hu, humain, hulow, hall⟩ hno
    have hunone : u.attempt = none := by
      cases hatt : u.attempt with
      | none => rfl
      | some att => exact absurd ⟨att, hatt, hall att hatt⟩ hno
    have hplace : ¬ 4 ≤ u.high.place := by simp [← hu.attempted, hunone]
    have hblocked : u.high ≠ .blocked := fun hb => hplace (by simp [hb, HighPc.place])
    obtain ⟨v, hv, hlt, hvmain, hvlow, hatt⟩ :=
      hu.high_step policy humain (by omega) fun hb => absurd hb hblocked
    have htick := (tick_high policy (by simp [humain])).trans hv
    refine ⟨.high ⟨0, 0⟩, v, trivial, htick, ⟨hu.tick htick, hvmain.trans humain,
      by rw [hvlow]; exact hulow, ?_⟩, by omega⟩
    intro att hmem
    rcases hatt with heq | heq
    · simp [heq, hunone] at hmem
    · have hatt' : u.found = att := by simpa [heq] using hmem
      simp [← hatt', State.found, hulow]
  obtain ⟨as, u, -, hrun, att, hmem, hfalse⟩ := hgoal
  refine ⟨as, u, hrun, fun hgood => ?_⟩
  rw [hgood.acquired att hmem] at hfalse
  cases hfalse

/-- Given back before the high thread has come to it, the mutex is found free. -/
theorem exists_late_attempt (h : Invariant s) (hmain : s.main ≠ .returned)
    (hlow : s.low = .done) (hnone : s.attempt = none) :
    ∃ as u, (main policy).Run as s u ∧ ¬ BehindHolder u := by
  have hgoal : ∃ as u, (∀ a ∈ as, True) ∧ (main policy).Run as s u ∧
      (u.printed ≠ [] ∧ ∀ att ∈ u.attempt, att.owner ≠ some .low) := by
    apply exists_run_to (I := fun u => Invariant u ∧ u.main ≠ .returned ∧ u.low = .done ∧
        ∀ att ∈ u.attempt, att.owner ≠ some .low) (fun _ => True)
      (fun u => (9 - u.main.place) + (8 - u.high.place)) ?_ s ⟨h, hmain, hlow, by simp [hnone]⟩
    rintro u ⟨hu, humain, hulow, hall⟩ hno
    have hplace : u.high.place ≤ 6 := by
      rw [← hu.printed]
      by_contra hprinted
      exact hno ⟨hprinted, hall⟩
    have hnotLow : u.mutex.owner ≠ some .low := by simp [hu.lowInside, hulow, LowPc.place]
    by_cases hjoin : u.main.place < 8
    · obtain ⟨v, hv, hvmain, hvhigh, hvlow, hatt⟩ := hu.main_step hjoin hulow
      have htick := (tick_main policy humain).trans hv
      refine ⟨.main, v, trivial, htick, ⟨hu.tick htick, ?_, hvlow.trans hulow, by rwa [hatt]⟩,
        by omega⟩
      intro hreturned
      rw [hreturned, MainPc.place] at hvmain
      omega
    · have hjoin : u.main = .joinHigh := by
        cases hm : u.main <;> simp_all [MainPc.place]
      have hfree : u.high = .blocked → u.mutex.owner = none := by
        intro hb
        have hnotHigh : u.mutex.owner ≠ some .high := by simp [hu.highInside, hb, HighPc.place]
        apply Option.eq_none_iff_forall_ne_some.mpr
        intro task
        cases task with
        | low => exact hnotLow
        | high => exact hnotHigh
      obtain ⟨v, hv, hlt, hvmain, hvlow, hatt⟩ := hu.high_step policy hjoin hplace hfree
      have htick := (tick_high policy humain).trans hv
      refine ⟨.high ⟨0, 0⟩, v, trivial, htick, ⟨hu.tick htick, by rwa [hvmain],
        hvlow.trans hulow, ?_⟩, by rw [hvmain]; omega⟩
      intro att hmem
      rcases hatt with heq | heq
      · exact hall att (heq ▸ hmem)
      · have hatt' : u.found = att := by simpa [heq] using hmem
        simp [← hatt', State.found, hnotLow]
  obtain ⟨as, u, -, hrun, hprinted, hall⟩ := hgoal
  refine ⟨as, u, hrun, fun hgood => ?_⟩
  obtain ⟨att, hmem, howner⟩ := hgood.behind hprinted
  exact hall att hmem howner

/-- A step out of order leaves a way on to a wait which is not behind the low thread. -/
theorem exists_violation (h : (main policy).Reachable s) {a : Action} (hbad : ¬ InOrder a s)
    (ht : (main policy).tick a s = some t) :
    ∃ as u, (main policy).Run as t u ∧ ¬ BehindHolder u := by
  have hs := invariant_of_reachable h
  have htinv : Invariant t := hs.tick ht
  have hmain : s.main ≠ .returned := by
    intro hreturned
    simp [main, LinuxPriorityInversion.tick, hreturned] at ht
  cases a with
  | med now => exact absurd trivial hbad
  | high now => exact absurd trivial hbad
  | main =>
      obtain ⟨hpc, hlow⟩ := Classical.not_imp.mp hbad
      have hstep : mainStep s = some t := (tick_main policy hmain).symm.trans ht
      simp only [mainStep, hpc, Option.some.injEq] at hstep
      subst hstep
      have hnone : s.attempt = none := by
        by_contra hsome
        have hplace := hs.attempted.mp (Option.isSome_iff_ne_none.mpr hsome)
        have hreleased := hs.released (by omega)
        simp [hpc, MainPc.place] at hreleased
      exact exists_early_attempt htinv rfl hlow hnone
  | low now =>
      obtain ⟨hpc, hattempt⟩ := Classical.not_imp.mp hbad
      have hstep : lowTask now s = some t := (if_neg hmain).symm.trans ht
      simp only [lowTask, hpc, Option.map_eq_some_iff] at hstep
      obtain ⟨m, -, rfl⟩ := hstep
      exact exists_late_attempt htinv hmain rfl (Option.not_isSome_iff_eq_none.mp hattempt)

end Steps

/-- In every run whose steps are in order the high thread waits behind the low
one, and after any other step some run goes wrong. -/
theorem behindHolder_inOrder (policy : SchedPolicy) :
    (∀ s, (inOrder policy).Reachable s → BehindHolder s) ∧
    ∀ s a t, (main policy).Reachable s → (main policy).tick a s = some t → ¬ InOrder a s →
      ∃ as u, (main policy).Run as t u ∧ ¬ BehindHolder u :=
  ⟨fun _ h => (held_of_reachable h).behindHolder,
    fun _ _ _ h ht hbad => exists_violation h hbad ht⟩

/-- All posts of `main` come before the low thread moves, and the high thread is faster. -/
def highFirst : List Action :=
  List.replicate 8 .main ++ List.replicate 6 (.high ⟨0, 0⟩)

theorem high_locks_first : ∃ s, (main .fifo).Run highFirst (main .fifo).init s ∧
    s.low = .waitStart ∧ s.printed = [⟨"FIFO", 0⟩] ∧ ¬ BehindHolder s := by
  have hrun : ∃ s, (main .fifo).Run highFirst (main .fifo).init s ∧ s.low = .waitStart ∧
      s.printed = [⟨"FIFO", 0⟩] ∧ s.attempt = some ⟨false, none⟩ := ⟨_, rfl, rfl, rfl, rfl⟩
  obtain ⟨s, hs, hlow, hprinted, hattempt⟩ := hrun
  refine ⟨s, hs, hlow, hprinted, fun h => ?_⟩
  have hacquired := h.acquired _ hattempt
  cases hacquired

/-- The low thread has the mutex before the last post and keeps it until the
high thread is blocked. -/
def lowFirst : List Action :=
  List.replicate 4 .main ++ List.replicate 3 (.low ⟨0, 0⟩) ++ List.replicate 4 .main ++
    List.replicate 3 (.high ⟨0, 0⟩) ++ List.replicate 2 (.low ⟨0, 50000000⟩) ++
    List.replicate 3 (.high ⟨0, 50000000⟩)

theorem behindHolder_lowFirst : ∃ s, (inOrder .fifo).Run lowFirst (inOrder .fifo).init s ∧
    s.printed = [⟨"FIFO", 50⟩] ∧ BehindHolder s := by
  have hrun : ∃ s, (inOrder .fifo).Run lowFirst (inOrder .fifo).init s ∧
      s.printed = [⟨"FIFO", 50⟩] := ⟨_, rfl, rfl⟩
  obtain ⟨s, hs, hprinted⟩ := hrun
  exact ⟨s, hs, hprinted, (behindHolder_inOrder .fifo).1 s ⟨lowFirst, hs⟩⟩

end MicrokernelBenchmark.LinuxPriorityInversion
