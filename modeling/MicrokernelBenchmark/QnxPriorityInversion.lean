import MicrokernelBenchmark.TransitionSystem
import MicrokernelBenchmark.Synchronization
import MicrokernelBenchmark.BusyLoop

/-!
# Priority inversion with three semaphores

`qnx_priority_inversion`: `main` creates the low, the high and the medium thread
in this order and waits on a semaphore after each. A schedule picks the party
which moves and the clock reading it gets, if its step reads the clock. Steps of
one thread are numbered in program order, so that what a thread has done is a
bound on its place.

Each semaphore is posted by one thread and taken by `main`, so the places of the
threads are tied to the place of `main`, and through it to each other.
-/
namespace MicrokernelBenchmark.QnxPriorityInversion
open TransitionSystem System Synchronization BusyLoop

inductive SchedPolicy where
  | fifo
  | rr
  | sporadic
deriving DecidableEq, Repr

inductive Task where
  | low
  | high
deriving DecidableEq, Repr

inductive MainPc where
  | createLow
  | waitLowLocked
  | createHigh
  | waitHighReady
  | createMed
  | waitHighDone
  | returned
deriving DecidableEq, Repr

inductive LowPc where
  | absent
  | lock
  | postLocked
  | clockStart
  | hold
  | unlock
  | done
deriving DecidableEq, Repr

inductive HighPc where
  | absent
  | postReady
  | clockT0
  | lock
  | clockT1
  | print
  | unlock
  | postDone
  | done
deriving DecidableEq, Repr

inductive MedPc where
  | absent
  | clockStart
  | spin
  | done
deriving DecidableEq, Repr

def MainPc.place : MainPc → ℕ
  | .createLow => 0
  | .waitLowLocked => 1
  | .createHigh => 2
  | .waitHighReady => 3
  | .createMed => 4
  | .waitHighDone => 5
  | .returned => 6

def LowPc.place : LowPc → ℕ
  | .absent => 0
  | .lock => 1
  | .postLocked => 2
  | .clockStart => 3
  | .hold => 4
  | .unlock => 5
  | .done => 6

def HighPc.place : HighPc → ℕ
  | .absent => 0
  | .postReady => 1
  | .clockT0 => 2
  | .lock => 3
  | .clockT1 => 4
  | .print => 5
  | .unlock => 6
  | .postDone => 7
  | .done => 8

/-- The line "QNX (%s): high waited = %llu ms". -/
structure Report where
  pname : String
  waitedMs : ℤ
deriving DecidableEq, Repr

def pname : SchedPolicy → String
  | .fifo => "FIFO"
  | .rr => "RR"
  | .sporadic => "SPORADIC"

structure State where
  semLowLocked : Semaphore := {}
  semHighReady : Semaphore := {}
  semHighDone : Semaphore := {}
  mutex : Mutex Task := {}
  main : MainPc := .createLow
  low : LowPc := .absent
  lowStart : ℤ := 0
  high : HighPc := .absent
  t0 : ℤ := 0
  t1 : ℤ := 0
  med : MedPc := .absent
  medStart : ℤ := 0
  printed : List Report := []
deriving DecidableEq

inductive Action where
  | main
  | low (now : Timespec)
  | high (now : Timespec)
  | med (now : Timespec)
deriving DecidableEq, Repr

def mainStep (s : State) : Option State :=
  match s.main with
  | .createLow => some { s with main := .waitLowLocked, low := .lock }
  | .waitLowLocked =>
      s.semLowLocked.wait.map fun sem => { s with main := .createHigh, semLowLocked := sem }
  | .createHigh => some { s with main := .waitHighReady, high := .postReady }
  | .waitHighReady =>
      s.semHighReady.wait.map fun sem => { s with main := .createMed, semHighReady := sem }
  | .createMed => some { s with main := .waitHighDone, med := .clockStart }
  | .waitHighDone =>
      s.semHighDone.wait.map fun sem => { s with main := .returned, semHighDone := sem }
  | .returned => none

def lowTask (now : Timespec) (s : State) : Option State :=
  match s.low with
  | .absent | .done => none
  | .lock => (s.mutex.lock .low).map fun m => { s with low := .postLocked, mutex := m }
  | .postLocked => some { s with low := .clockStart, semLowLocked := s.semLowLocked.post }
  | .clockStart => some { s with low := .hold, lowStart := nowNs now }
  | .hold => some (if spins holdNs s.lowStart now then s else { s with low := .unlock })
  | .unlock => (s.mutex.unlock .low).map fun m => { s with low := .done, mutex := m }

def highTask (policy : SchedPolicy) (now : Timespec) (s : State) : Option State :=
  match s.high with
  | .absent | .done => none
  | .postReady => some { s with high := .clockT0, semHighReady := s.semHighReady.post }
  | .clockT0 => some { s with high := .lock, t0 := nowNs now }
  | .lock => (s.mutex.lock .high).map fun m => { s with high := .clockT1, mutex := m }
  | .clockT1 => some { s with high := .print, t1 := nowNs now }
  | .print => some { s with
      high := .unlock, printed := s.printed ++ [⟨pname policy, waitedMs s.t0 s.t1⟩] }
  | .unlock => (s.mutex.unlock .high).map fun m => { s with high := .postDone, mutex := m }
  | .postDone => some { s with high := .done, semHighDone := s.semHighDone.post }

def medTask (now : Timespec) (s : State) : Option State :=
  match s.med with
  | .absent | .done => none
  | .clockStart => some { s with med := .spin, medStart := nowNs now }
  | .spin => some (if spins medNs s.medStart now then s else { s with med := .done })

/-- The return of `main` ends the process with all its threads. -/
def tick (policy : SchedPolicy) (a : Action) (s : State) : Option State :=
  if s.main = .returned then none
  else match a with
    | .main => mainStep s
    | .low now => lowTask now s
    | .high now => highTask policy now s
    | .med now => medTask now s

def main (policy : SchedPolicy) : System Action State := ⟨{}, tick policy⟩

/-- The low thread has got the mutex, now or earlier. -/
def LowPc.Acquired (p : LowPc) : Prop := LowPc.postLocked.place ≤ p.place

/-- The high thread has come to its `pthread_mutex_lock`. -/
def HighPc.Attempted (p : HighPc) : Prop := HighPc.lock.place ≤ p.place

def HighPc.Announced (p : HighPc) : Prop := HighPc.clockT0.place ≤ p.place

def LowPc.Inside (p : LowPc) : Prop :=
  LowPc.postLocked.place ≤ p.place ∧ p.place ≤ LowPc.unlock.place

def HighPc.Inside (p : HighPc) : Prop :=
  HighPc.clockT1.place ≤ p.place ∧ p.place ≤ HighPc.unlock.place

/-- What the places of the threads say about semaphores, mutex and output. -/
structure Invariant (policy : SchedPolicy) (s : State) : Prop where
  lowCreated : s.low = .absent ↔ s.main.place < 1
  highCreated : s.high = .absent ↔ s.main.place < 3
  medCreated : s.med = .absent ↔ s.main.place < 5
  lowLocked : s.semLowLocked.posted = if 3 ≤ s.low.place then 1 else 0
  lowLockedTaken : s.semLowLocked.taken = if 2 ≤ s.main.place then 1 else 0
  highReady : s.semHighReady.posted = if 2 ≤ s.high.place then 1 else 0
  highReadyTaken : s.semHighReady.taken = if 4 ≤ s.main.place then 1 else 0
  highDone : s.semHighDone.posted = if 8 ≤ s.high.place then 1 else 0
  highDoneTaken : s.semHighDone.taken = if 6 ≤ s.main.place then 1 else 0
  lowInside : s.mutex.owner = some .low ↔ 2 ≤ s.low.place ∧ s.low.place ≤ 5
  highInside : s.mutex.owner = some .high ↔ 4 ≤ s.high.place ∧ s.high.place ≤ 6
  printed : s.printed =
    if 6 ≤ s.high.place then [⟨pname policy, waitedMs s.t0 s.t1⟩] else []

theorem invariant_init (policy : SchedPolicy) : Invariant policy {} := by
  constructor <;> simp [MainPc.place, LowPc.place, HighPc.place]

section Steps
variable {policy : SchedPolicy} {s t : State} {now : Timespec}

theorem Invariant.main (h : Invariant policy s) (ht : mainStep s = some t) :
    Invariant policy t := by
  cases hpc : s.main <;> simp only [mainStep, hpc, Option.some.injEq, Option.map_eq_some_iff,
    Semaphore.wait_eq_some, reduceCtorEq] at ht
  case createLow =>
    have hlow : s.low = .absent := h.lowCreated.mpr (by simp [hpc, MainPc.place])
    subst ht
    exact { h with
      lowCreated := by simp [MainPc.place]
      highCreated := by simpa [hpc, MainPc.place] using h.highCreated
      medCreated := by simpa [hpc, MainPc.place] using h.medCreated
      lowLockedTaken := by simpa [hpc, MainPc.place] using h.lowLockedTaken
      highReadyTaken := by simpa [hpc, MainPc.place] using h.highReadyTaken
      highDoneTaken := by simpa [hpc, MainPc.place] using h.highDoneTaken
      lowLocked := by simpa [hlow, LowPc.place] using h.lowLocked
      lowInside := by simpa [hlow, LowPc.place] using h.lowInside }
  case waitLowLocked =>
    obtain ⟨sem, ⟨hposted, htaken⟩, rfl⟩ := ht
    exact { h with
      lowCreated := by simpa [hpc, MainPc.place] using h.lowCreated
      highCreated := by simpa [hpc, MainPc.place] using h.highCreated
      medCreated := by simpa [hpc, MainPc.place] using h.medCreated
      highReadyTaken := by simpa [hpc, MainPc.place] using h.highReadyTaken
      highDoneTaken := by simpa [hpc, MainPc.place] using h.highDoneTaken
      lowLocked := hposted.trans h.lowLocked
      lowLockedTaken := by simpa [hpc, MainPc.place, h.lowLockedTaken] using htaken }
  case createHigh =>
    have hhigh : s.high = .absent := h.highCreated.mpr (by simp [hpc, MainPc.place])
    subst ht
    exact { h with
      highCreated := by simp [MainPc.place]
      lowCreated := by simpa [hpc, MainPc.place] using h.lowCreated
      medCreated := by simpa [hpc, MainPc.place] using h.medCreated
      lowLockedTaken := by simpa [hpc, MainPc.place] using h.lowLockedTaken
      highReadyTaken := by simpa [hpc, MainPc.place] using h.highReadyTaken
      highDoneTaken := by simpa [hpc, MainPc.place] using h.highDoneTaken
      highReady := by simpa [hhigh, HighPc.place] using h.highReady
      highDone := by simpa [hhigh, HighPc.place] using h.highDone
      highInside := by simpa [hhigh, HighPc.place] using h.highInside
      printed := by simpa [hhigh, HighPc.place] using h.printed }
  case waitHighReady =>
    obtain ⟨sem, ⟨hposted, htaken⟩, rfl⟩ := ht
    exact { h with
      lowCreated := by simpa [hpc, MainPc.place] using h.lowCreated
      highCreated := by simpa [hpc, MainPc.place] using h.highCreated
      medCreated := by simpa [hpc, MainPc.place] using h.medCreated
      lowLockedTaken := by simpa [hpc, MainPc.place] using h.lowLockedTaken
      highDoneTaken := by simpa [hpc, MainPc.place] using h.highDoneTaken
      highReady := hposted.trans h.highReady
      highReadyTaken := by simpa [hpc, MainPc.place, h.highReadyTaken] using htaken }
  case createMed =>
    subst ht
    exact { h with
      medCreated := by simp [MainPc.place]
      lowCreated := by simpa [hpc, MainPc.place] using h.lowCreated
      highCreated := by simpa [hpc, MainPc.place] using h.highCreated
      lowLockedTaken := by simpa [hpc, MainPc.place] using h.lowLockedTaken
      highReadyTaken := by simpa [hpc, MainPc.place] using h.highReadyTaken
      highDoneTaken := by simpa [hpc, MainPc.place] using h.highDoneTaken }
  case waitHighDone =>
    obtain ⟨sem, ⟨hposted, htaken⟩, rfl⟩ := ht
    exact { h with
      lowCreated := by simpa [hpc, MainPc.place] using h.lowCreated
      highCreated := by simpa [hpc, MainPc.place] using h.highCreated
      medCreated := by simpa [hpc, MainPc.place] using h.medCreated
      lowLockedTaken := by simpa [hpc, MainPc.place] using h.lowLockedTaken
      highReadyTaken := by simpa [hpc, MainPc.place] using h.highReadyTaken
      highDone := hposted.trans h.highDone
      highDoneTaken := by simpa [hpc, MainPc.place, h.highDoneTaken] using htaken }

theorem Invariant.low (h : Invariant policy s) (ht : lowTask now s = some t) :
    Invariant policy t := by
  cases hpc : s.low <;> simp only [lowTask, hpc, Option.some.injEq, Option.map_eq_some_iff,
    Mutex.lock_eq_some, Mutex.unlock_eq_some, reduceCtorEq] at ht
  case lock =>
    obtain ⟨m, ⟨hfree, rfl⟩, rfl⟩ := ht
    exact { h with
      lowCreated := by simpa [hpc] using h.lowCreated
      lowLocked := by simpa [hpc, LowPc.place] using h.lowLocked
      lowInside := by simp [LowPc.place]
      highInside := by simpa [hfree] using h.highInside }
  case postLocked | clockStart =>
    subst ht
    exact { h with
      lowCreated := by simpa [hpc] using h.lowCreated
      lowLocked := by simpa [hpc, LowPc.place] using h.lowLocked
      lowInside := by simpa [hpc, LowPc.place] using h.lowInside }
  case hold =>
    subst ht
    split
    · exact h
    · exact { h with
        lowCreated := by simpa [hpc] using h.lowCreated
        lowLocked := by simpa [hpc, LowPc.place] using h.lowLocked
        lowInside := by simpa [hpc, LowPc.place] using h.lowInside }
  case unlock =>
    obtain ⟨m, ⟨hown, rfl⟩, rfl⟩ := ht
    exact { h with
      lowCreated := by simpa [hpc] using h.lowCreated
      lowLocked := by simpa [hpc, LowPc.place] using h.lowLocked
      lowInside := by simp [LowPc.place]
      highInside := by simpa [hown] using h.highInside }

theorem Invariant.high (h : Invariant policy s) (ht : highTask policy now s = some t) :
    Invariant policy t := by
  cases hpc : s.high <;> simp only [highTask, hpc, Option.some.injEq, Option.map_eq_some_iff,
    Mutex.lock_eq_some, Mutex.unlock_eq_some, reduceCtorEq] at ht
  case lock =>
    obtain ⟨m, ⟨hfree, rfl⟩, rfl⟩ := ht
    exact { h with
      highCreated := by simpa [hpc] using h.highCreated
      highReady := by simpa [hpc, HighPc.place] using h.highReady
      highDone := by simpa [hpc, HighPc.place] using h.highDone
      highInside := by simp [HighPc.place]
      printed := by simpa [hpc, HighPc.place] using h.printed
      lowInside := by simpa [hfree] using h.lowInside }
  case unlock =>
    obtain ⟨m, ⟨hown, rfl⟩, rfl⟩ := ht
    exact { h with
      highCreated := by simpa [hpc] using h.highCreated
      highReady := by simpa [hpc, HighPc.place] using h.highReady
      highDone := by simpa [hpc, HighPc.place] using h.highDone
      highInside := by simp [HighPc.place]
      printed := by simpa [hpc, HighPc.place] using h.printed
      lowInside := by simpa [hown] using h.lowInside }
  case postReady | clockT0 | clockT1 | print | postDone =>
    subst ht
    exact { h with
      highCreated := by simpa [hpc] using h.highCreated
      highReady := by simpa [hpc, HighPc.place] using h.highReady
      highDone := by simpa [hpc, HighPc.place] using h.highDone
      highInside := by simpa [hpc, HighPc.place] using h.highInside
      printed := by simpa [hpc, HighPc.place] using h.printed }

theorem Invariant.med (h : Invariant policy s) (ht : medTask now s = some t) :
    Invariant policy t := by
  cases hpc : s.med <;> simp only [medTask, hpc, Option.some.injEq, reduceCtorEq] at ht
  case clockStart =>
    subst ht
    exact { h with medCreated := by simpa [hpc] using h.medCreated }
  case spin =>
    subst ht
    split
    · exact h
    · exact { h with medCreated := by simpa [hpc] using h.medCreated }

theorem Invariant.tick (h : Invariant policy s) {a : Action} (ht : tick policy a s = some t) :
    Invariant policy t := by
  simp only [QnxPriorityInversion.tick, Option.ite_none_left_eq_some] at ht
  obtain ⟨-, ht⟩ := ht
  cases a with
  | main => exact h.main ht
  | low now => exact h.low ht
  | high now => exact h.high ht
  | med now => exact h.med ht

theorem invariant_of_reachable (h : (main policy).Reachable s) : Invariant policy s :=
  Reachable.invariant h (invariant_init policy) fun _ _ _ hs ht => hs.tick ht

/-- A post of the low thread lies before the place of `main` behind its wait. -/
theorem Invariant.low_posted (h : Invariant policy s) (hmain : 2 ≤ s.main.place) :
    3 ≤ s.low.place := by
  have hle := s.semLowLocked.le
  rw [h.lowLocked, h.lowLockedTaken, if_pos hmain] at hle
  by_contra hlow
  simp [hlow] at hle

theorem Invariant.high_posted (h : Invariant policy s) (hmain : 4 ≤ s.main.place) :
    2 ≤ s.high.place := by
  have hle := s.semHighReady.le
  rw [h.highReady, h.highReadyTaken, if_pos hmain] at hle
  by_contra hhigh
  simp [hhigh] at hle

theorem Invariant.high_done (h : Invariant policy s) (hmain : 6 ≤ s.main.place) :
    8 ≤ s.high.place := by
  have hle := s.semHighDone.le
  rw [h.highDone, h.highDoneTaken, if_pos hmain] at hle
  by_contra hhigh
  simp [hhigh] at hle

theorem Invariant.acquired (h : Invariant policy s) (hhigh : s.high ≠ .absent) :
    s.low.Acquired := by
  have hmain : 3 ≤ s.main.place := by
    by_contra hlt
    exact hhigh (h.highCreated.mpr (Nat.lt_of_not_le hlt))
  exact Nat.le_of_succ_le (h.low_posted (Nat.le_of_succ_le hmain))

theorem Invariant.announced (h : Invariant policy s) (hmed : s.med ≠ .absent) :
    s.high.Announced := by
  have hmain : 5 ≤ s.main.place := by
    by_contra hlt
    exact hmed (h.medCreated.mpr (Nat.lt_of_not_le hlt))
  exact h.high_posted (Nat.le_of_succ_le hmain)

theorem Invariant.exclusive (h : Invariant policy s) : ¬ (s.low.Inside ∧ s.high.Inside) := by
  rintro ⟨hlow, hhigh⟩
  have hlow : s.mutex.owner = some .low := h.lowInside.mpr hlow
  have hhigh : s.mutex.owner = some .high := h.highInside.mpr hhigh
  simp [hlow] at hhigh

/-- The steps which are left, a busy loop counted as one. -/
def State.left (s : State) : ℕ := (6 - s.main.place) + (6 - s.low.place) + (8 - s.high.place)

/-- A step of a thread while `main` is there, and closer to its return. -/
def Advances (policy : SchedPolicy) (s : State) : Prop :=
  ∃ a t, QnxPriorityInversion.tick policy a s = some t ∧ t.left < s.left

theorem Invariant.low_advances (h : Invariant policy s) (hmain : s.main ≠ .returned)
    (hcreated : s.low ≠ .absent) (hdone : s.low ≠ .done)
    (hfree : s.low = .lock → s.mutex.owner = none) : Advances policy s := by
  have hstep : ∀ now t, lowTask now s = some t → t.left < s.left → Advances policy s := by
    intro now t ht hlt
    exact ⟨.low now, t, by rw [QnxPriorityInversion.tick, if_neg hmain]; exact ht, hlt⟩
  cases hpc : s.low with
  | absent => exact absurd hpc hcreated
  | done => exact absurd hpc hdone
  | lock =>
      have hlock : s.mutex.lock .low = some ⟨some .low⟩ := Mutex.lock_eq_some.mpr ⟨hfree hpc, rfl⟩
      apply hstep ⟨0, 0⟩ { s with low := .postLocked, mutex := ⟨some .low⟩ }
      · simp [lowTask, hpc, hlock]
      · simp [State.left, hpc, LowPc.place]
  | postLocked =>
      apply hstep ⟨0, 0⟩ { s with low := .clockStart, semLowLocked := s.semLowLocked.post }
      · simp [lowTask, hpc]
      · simp [State.left, hpc, LowPc.place]
  | clockStart =>
      apply hstep ⟨0, 0⟩ { s with low := .hold, lowStart := nowNs ⟨0, 0⟩ }
      · simp [lowTask, hpc]
      · simp [State.left, hpc, LowPc.place]
  | hold =>
      have hlimit : 0 ≤ holdNs := by decide
      obtain ⟨now, -, hover⟩ := exists_not_spins s.lowStart hlimit (by decide)
      apply hstep now { s with low := .unlock }
      · simp [lowTask, hpc, hover]
      · simp [State.left, hpc, LowPc.place]
  | unlock =>
      have hown : s.mutex.owner = some .low := h.lowInside.mpr (by simp [hpc, LowPc.place])
      have hunlock : s.mutex.unlock .low = some ⟨none⟩ := Mutex.unlock_eq_some.mpr ⟨hown, rfl⟩
      apply hstep ⟨0, 0⟩ { s with low := .done, mutex := ⟨none⟩ }
      · simp [lowTask, hpc, hunlock]
      · simp [State.left, hpc, LowPc.place]

theorem Invariant.high_advances (h : Invariant policy s) (hmain : s.main ≠ .returned)
    (hcreated : s.high ≠ .absent) (hdone : s.high ≠ .done)
    (hfree : s.high = .lock → s.mutex.owner = none) : Advances policy s := by
  have hstep : ∀ t, highTask policy ⟨0, 0⟩ s = some t → t.left < s.left → Advances policy s := by
    intro t ht hlt
    exact ⟨.high ⟨0, 0⟩, t, by rw [QnxPriorityInversion.tick, if_neg hmain]; exact ht, hlt⟩
  cases hpc : s.high with
  | absent => exact absurd hpc hcreated
  | done => exact absurd hpc hdone
  | lock =>
      have hlock : s.mutex.lock .high = some ⟨some .high⟩ :=
        Mutex.lock_eq_some.mpr ⟨hfree hpc, rfl⟩
      apply hstep { s with high := .clockT1, mutex := ⟨some .high⟩ }
      · simp [highTask, hpc, hlock]
      · simp [State.left, hpc, HighPc.place]
  | unlock =>
      have hown : s.mutex.owner = some .high := h.highInside.mpr (by simp [hpc, HighPc.place])
      have hunlock : s.mutex.unlock .high = some ⟨none⟩ := Mutex.unlock_eq_some.mpr ⟨hown, rfl⟩
      apply hstep { s with high := .postDone, mutex := ⟨none⟩ }
      · simp [highTask, hpc, hunlock]
      · simp [State.left, hpc, HighPc.place]
  | postReady | clockT0 | clockT1 | print | postDone =>
      apply hstep _ (by rw [highTask, hpc])
      simp [State.left, hpc, HighPc.place]

theorem Invariant.main_advances {t : State} (hmain : s.main ≠ .returned)
    (ht : mainStep s = some t) (hlt : t.left < s.left) : Advances policy s :=
  ⟨.main, t, by rw [QnxPriorityInversion.tick, if_neg hmain]; exact ht, hlt⟩

theorem owner_eq_none {m : Mutex Task} (hlow : m.owner ≠ some .low)
    (hhigh : m.owner ≠ some .high) : m.owner = none := by
  apply Option.eq_none_iff_forall_ne_some.mpr
  intro task
  cases task with
  | low => exact hlow
  | high => exact hhigh

/-- Until `main` returns, the thread it waits for can move, or the thread that
holds the mutex which this one waits for. -/
theorem Invariant.advances (h : Invariant policy s) (hmain : s.main ≠ .returned) :
    Advances policy s := by
  cases hpc : s.main with
  | returned => exact absurd hpc hmain
  | createLow =>
      have hlow : s.low = .absent := h.lowCreated.mpr (by simp [hpc, MainPc.place])
      apply main_advances hmain (by rw [mainStep, hpc])
      simp [State.left, hpc, hlow, MainPc.place, LowPc.place]
  | createHigh =>
      have hhigh : s.high = .absent := h.highCreated.mpr (by simp [hpc, MainPc.place])
      apply main_advances hmain (by rw [mainStep, hpc])
      simp only [State.left, hpc, hhigh, MainPc.place, HighPc.place]
      omega
  | createMed =>
      apply main_advances hmain (by rw [mainStep, hpc])
      simp [State.left, hpc, MainPc.place]
  | waitLowLocked =>
      cases hsem : s.semLowLocked.wait with
      | some sem =>
          apply main_advances hmain (by rw [mainStep, hpc, hsem]; rfl)
          simp [State.left, hpc, MainPc.place]
      | none =>
          have hplace : s.low.place < 3 := by
            have hposted := Semaphore.wait_eq_none.mp hsem
            rw [h.lowLocked, h.lowLockedTaken] at hposted
            by_contra hlt
            simp [hpc, MainPc.place, Nat.le_of_not_lt hlt] at hposted
          have hcreated : s.low ≠ .absent := by simp [h.lowCreated, hpc, MainPc.place]
          have habsent : s.high = .absent := h.highCreated.mpr (by simp [hpc, MainPc.place])
          refine h.low_advances hmain hcreated (fun hl => ?_) fun hl => ?_
          · simp [hl, LowPc.place] at hplace
          · have hlow : s.mutex.owner ≠ some .low := by simp [h.lowInside, hl, LowPc.place]
            have hhigh : s.mutex.owner ≠ some .high := by
              simp [h.highInside, habsent, HighPc.place]
            exact owner_eq_none hlow hhigh
  | waitHighReady =>
      cases hsem : s.semHighReady.wait with
      | some sem =>
          apply main_advances hmain (by rw [mainStep, hpc, hsem]; rfl)
          simp [State.left, hpc, MainPc.place]
      | none =>
          have hplace : s.high.place < 2 := by
            have hposted := Semaphore.wait_eq_none.mp hsem
            rw [h.highReady, h.highReadyTaken] at hposted
            by_contra hlt
            simp [hpc, MainPc.place, Nat.le_of_not_lt hlt] at hposted
          have hcreated : s.high ≠ .absent := by simp [h.highCreated, hpc, MainPc.place]
          refine h.high_advances hmain hcreated (fun hh => ?_) fun hh => ?_
          · simp [hh, HighPc.place] at hplace
          · simp [hh, HighPc.place] at hplace
  | waitHighDone =>
      cases hsem : s.semHighDone.wait with
      | some sem =>
          apply main_advances hmain (by rw [mainStep, hpc, hsem]; rfl)
          simp [State.left, hpc, MainPc.place]
      | none =>
          have hplace : s.high.place < 8 := by
            have hposted := Semaphore.wait_eq_none.mp hsem
            rw [h.highDone, h.highDoneTaken] at hposted
            by_contra hlt
            simp [hpc, MainPc.place, Nat.le_of_not_lt hlt] at hposted
          have hcreated : s.high ≠ .absent := by simp [h.highCreated, hpc, MainPc.place]
          by_cases hblocked : s.mutex.owner = some .low
          · -- the high thread may be blocked, the holder is not
            have hinside := h.lowInside.mp hblocked
            refine h.low_advances hmain (fun hl => ?_) (fun hl => ?_) fun hl => ?_ <;>
              simp [hl, LowPc.place] at hinside
          · refine h.high_advances hmain hcreated (fun hh => ?_) fun hh => ?_
            · simp [hh, HighPc.place] at hplace
            · have hhigh : s.mutex.owner ≠ some .high := by
                simp [h.highInside, hh, HighPc.place]
              exact owner_eq_none hblocked hhigh

theorem exists_return (h : (main policy).Reachable s) :
    ∃ as t, (main policy).Run as s t ∧ t.main = .returned := by
  have hgoal : ∃ as t, (∀ a ∈ as, True) ∧ (main policy).Run as s t ∧ t.main = .returned := by
    apply exists_run_to (I := Invariant policy) (fun _ => True) State.left ?_ s
      (invariant_of_reachable h)
    intro u hu hmain
    obtain ⟨a, t, ht, hlt⟩ := hu.advances hmain
    exact ⟨a, t, trivial, ht, hu.tick ht, hlt⟩
  obtain ⟨as, t, -, hrun, ht⟩ := hgoal
  exact ⟨as, t, hrun, ht⟩

theorem Invariant.printed_once (h : Invariant policy s) (hmain : s.main = .returned) :
    s.printed = [⟨pname policy, waitedMs s.t0 s.t1⟩] := by
  have hdone := h.high_done (by simp [hmain, MainPc.place])
  rw [h.printed, if_pos (Nat.le_trans (by decide) hdone)]

theorem Invariant.printed_le (h : Invariant policy s) : s.printed.length ≤ 1 := by
  rw [h.printed]
  split <;> simp

end Steps

/-- The orchestration in every reachable state: the order of the first steps,
one measured wait, mutual exclusion, and a way on to the return of `main`. -/
theorem orchestrated (policy : SchedPolicy) (s : State) (h : (main policy).Reachable s) :
    (s.high.Attempted → s.low.Acquired) ∧
    (s.med ≠ .absent → s.high.Announced) ∧
    s.printed.length ≤ 1 ∧
    (s.main = .returned → s.printed = [⟨pname policy, waitedMs s.t0 s.t1⟩]) ∧
    ¬ (s.low.Inside ∧ s.high.Inside) ∧
    (s.main ≠ .returned → ∃ a, (main policy).Enabled a s) ∧
    ∃ as t, (main policy).Run as s t ∧ t.main = .returned := by
  have hinv := invariant_of_reachable h
  refine ⟨fun hattempt => ?_, hinv.announced, hinv.printed_le, hinv.printed_once, hinv.exclusive,
    fun hmain => ?_, exists_return h⟩
  · apply hinv.acquired
    intro habsent
    simp [HighPc.Attempted, habsent, HighPc.place] at hattempt
  · obtain ⟨a, t, ht, -⟩ := hinv.advances hmain
    exact ⟨a, Option.isSome_iff_exists.mpr ⟨t, ht⟩⟩

/-- The high thread waits 42 ms behind the low one, which spins once more. -/
def schedule : List Action :=
  [.main, .low ⟨0, 0⟩, .low ⟨0, 0⟩, .main, .main, .high ⟨0, 0⟩, .main, .high ⟨0, 10000000⟩,
    .low ⟨0, 0⟩, .main, .low ⟨0, 20000000⟩, .low ⟨0, 50000000⟩, .low ⟨0, 0⟩, .high ⟨0, 0⟩,
    .high ⟨0, 52000000⟩, .high ⟨0, 0⟩, .high ⟨0, 0⟩, .high ⟨0, 0⟩, .main]

theorem orchestrated_schedule : ∃ s, (main .fifo).Run schedule (main .fifo).init s ∧
    s.low.Acquired ∧ s.high.Announced ∧ s.main = .returned ∧
    s.printed = [⟨pname .fifo, waitedMs s.t0 s.t1⟩] ∧ waitedMs s.t0 s.t1 = 42 := by
  have hreturn : ∃ s, (main .fifo).Run schedule (main .fifo).init s ∧ s.high = .done ∧
      s.med = .clockStart ∧ s.main = .returned ∧ waitedMs s.t0 s.t1 = 42 :=
    ⟨_, rfl, rfl, rfl, rfl, rfl⟩
  obtain ⟨s, hrun, hhigh, hmed, hmain, hwaited⟩ := hreturn
  obtain ⟨hacquired, hannounced, -, hprinted, -⟩ := orchestrated .fifo s ⟨schedule, hrun⟩
  refine ⟨s, hrun, hacquired ?_, hannounced ?_, hmain, hprinted hmain, hwaited⟩
  · rw [hhigh]
    exact Nat.le_of_ble_eq_true rfl
  · simp [hmed]

end MicrokernelBenchmark.QnxPriorityInversion
