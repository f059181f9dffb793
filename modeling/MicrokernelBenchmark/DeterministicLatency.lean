import MicrokernelBenchmark.PeriodicLatency
import MicrokernelBenchmark.WorkerPool
import Mathlib.Algebra.Group.Action.Defs
import Mathlib.Algebra.Order.BigOperators.Group.Finset

/-!
# Wake-up latency under load

`main` of `deterministic_latency` with its load threads and `rt_thread`. The load
threads exist before `rt_thread` is created and end only when they see that it
has cleared `running`, so it measures under load from its first clock reading to
its last one. What it prints is the result of its loop on the readings which it
has taken, however the threads interleave.
-/
namespace MicrokernelBenchmark.DeterministicLatency
open TransitionSystem FixedWidth WorkerPool PeriodicLatency

def iterations : ℕ := 10000

def loadThreads : ℕ := 3

/-- In the counting loop or before `usleep`. -/
inductive LoadPlace where
  | spin (i : ℕ)
  | usleep
deriving DecidableEq, Repr

def spins : ℕ := 1000000

/-- `load_thread` goes on as long as `running` is set; its flag is the negation. -/
def loadThread : Loop Unit LoadPlace Unit where
  enter := .spin 0
  step _ place data :=
    match place with
    | .spin i => some (some (if i < spins then .spin (i + 1) else .usleep), data)
    | .usleep => some (none, data)

inductive RtPlace where
  | absent
  | start
  | sleep (i : ℕ) (next : Timespec) (maxLatency : ℤ)
  | read (i : ℕ) (next : Timespec) (maxLatency : ℤ)
  | print (maxLatency : ℤ)
  | clear
  | ended
deriving DecidableEq, Repr

inductive Pc where
  | create (i : ℕ)
  | createRt
  | joinRt
  | join (i : ℕ)
  | returned
  | exitFailure
deriving DecidableEq, Repr

structure State where
  pc : Pc := .create 0
  running : Bool := true
  loaders : ℕ → Thread LoadPlace := fun _ => .absent
  rt : RtPlace := .absent
  printed : List ℤ := []

/-- The outcome of `sleep` is that of `TimerTimeout` on QNX and of `clock_nanosleep`
elsewhere. -/
inductive RtCall where
  | clockGettime (t : Timespec)
  | sleep (o : Outcome)
  | print
  | clear
deriving DecidableEq, Repr

inductive Action where
  | main (o : Outcome)
  | load (i : ℕ) (e : Event Unit)
  | rt (c : RtCall)
deriving DecidableEq, Repr

def advance (next : Timespec) : Timespec :=
  let nsec := long (next.tvNsec + periodNs)
  if nsecPerSec ≤ nsec then
    ⟨long (next.tvSec + nsec.tdiv nsecPerSec), nsec.tmod nsecPerSec⟩
  else ⟨next.tvSec, nsec⟩

def latency (now next : Timespec) : ℤ :=
  let dsec := long (now.tvSec - next.tvSec)
  let dnsec := long (now.tvNsec - next.tvNsec)
  llabs (long (long (dsec * nsecPerSec) + dnsec))

section Program
variable (qnx : Bool) (iterations loadThreads : ℕ)

/-- The test of the loop of `rt_thread` and the advance of the deadline behind it. -/
def loopTest (i : ℕ) (next : Timespec) (maxLatency : ℤ) : RtPlace :=
  if i < iterations then .sleep i (advance next) maxLatency else .print maxLatency

/-- Only on QNX a failure leaves the loop. -/
def rtThread (s : State) : RtCall → Option State
  | .clockGettime t =>
      match s.rt with
      | .start => some { s with rt := loopTest iterations 0 t 0 }
      | .read i next maxLatency => some { s with
          rt := loopTest iterations (i + 1) next
            (if maxLatency < latency t next then latency t next else maxLatency) }
      | _ => none
  | .sleep o =>
      match s.rt with
      | .sleep i next maxLatency => some { s with
          rt := if qnx = true ∧ o = .failure then .print maxLatency
            else .read i next maxLatency }
      | _ => none
  | .print =>
      match s.rt with
      | .print maxLatency => some { s with rt := .clear, printed := s.printed ++ [maxLatency] }
      | _ => none
  | .clear => if s.rt = .clear then some { s with rt := .ended, running := false } else none

def mainSuccess (s : State) : Option State :=
  match s.pc with
  | .create i =>
      if i < loadThreads then some { s with
        pc := .create (i + 1)
        loaders := Function.update s.loaders i .test }
      else some { s with pc := .createRt }
  | .createRt => some { s with pc := .joinRt, rt := .start }
  | .joinRt => if s.rt = .ended then some { s with pc := .join 0 } else none
  | .join i =>
      if i < loadThreads then
        if s.loaders i = .ended then some { s with pc := .join (i + 1) } else none
      else some { s with pc := .returned }
  | .returned | .exitFailure => none

def mainFailure (s : State) : Option State :=
  match s.pc with
  | .create i => if i < loadThreads then some { s with pc := .exitFailure } else none
  | .createRt => some { s with pc := .exitFailure }
  | _ => none

/-- The threads end with the process. -/
def tick (a : Action) (s : State) : Option State :=
  if s.pc = .returned ∨ s.pc = .exitFailure then none
  else
    match a with
    | .main .success => mainSuccess loadThreads s
    | .main .failure => mainFailure loadThreads s
    | .rt c => rtThread qnx iterations s c
    | .load i e =>
        if e.agrees (!s.running) then
          (loadThread.tick e (s.loaders i, ())).map fun p => { s with
            loaders := Function.update s.loaders i p.1 }
        else none

def main : System Action State := ⟨{}, tick qnx iterations loadThreads⟩

end Program

section Moves
variable {qnx : Bool} {iterations loadThreads : ℕ} {s t : State}

inductive RtMove (qnx : Bool) (iterations : ℕ) (s : State) : RtCall → State → Prop
  | start (t : Timespec) (hrt : s.rt = .start) :
      RtMove qnx iterations s (.clockGettime t) { s with rt := loopTest iterations 0 t 0 }
  | read (t : Timespec) (i : ℕ) (next : Timespec) (maxLatency : ℤ)
      (hrt : s.rt = .read i next maxLatency) :
      RtMove qnx iterations s (.clockGettime t) { s with
        rt := loopTest iterations (i + 1) next
          (if maxLatency < latency t next then latency t next else maxLatency) }
  | timeout (i : ℕ) (next : Timespec) (maxLatency : ℤ) (hrt : s.rt = .sleep i next maxLatency)
      (hqnx : qnx = true) :
      RtMove qnx iterations s (.sleep .failure) { s with rt := .print maxLatency }
  | sleep (o : Outcome) (i : ℕ) (next : Timespec) (maxLatency : ℤ)
      (hrt : s.rt = .sleep i next maxLatency) :
      RtMove qnx iterations s (.sleep o) { s with rt := .read i next maxLatency }
  | print (maxLatency : ℤ) (hrt : s.rt = .print maxLatency) :
      RtMove qnx iterations s .print { s with
        rt := .clear
        printed := s.printed ++ [maxLatency] }
  | clear (hrt : s.rt = .clear) :
      RtMove qnx iterations s .clear { s with rt := .ended, running := false }

inductive MainMove (loadThreads : ℕ) (s : State) : State → Prop
  | exit (hrt : (∃ i, s.pc = .create i) ∨ s.pc = .createRt) :
      MainMove loadThreads s { s with pc := .exitFailure }
  | create (i : ℕ) (hpc : s.pc = .create i) (hi : i < loadThreads) :
      MainMove loadThreads s { s with
        pc := .create (i + 1)
        loaders := Function.update s.loaders i .test }
  | createDone (i : ℕ) (hpc : s.pc = .create i) (hi : loadThreads ≤ i) :
      MainMove loadThreads s { s with pc := .createRt }
  | createRt (hpc : s.pc = .createRt) :
      MainMove loadThreads s { s with pc := .joinRt, rt := .start }
  | joinRt (hpc : s.pc = .joinRt) (hrt : s.rt = .ended) :
      MainMove loadThreads s { s with pc := .join 0 }
  | join (i : ℕ) (hpc : s.pc = .join i) (hi : i < loadThreads) (hended : s.loaders i = .ended) :
      MainMove loadThreads s { s with pc := .join (i + 1) }
  | joinDone (i : ℕ) (hpc : s.pc = .join i) (hi : loadThreads ≤ i) :
      MainMove loadThreads s { s with pc := .returned }

/-- A step of a load thread, which leaves everything else alone. -/
structure LoadMove (s : State) (i : ℕ) (e : Event Unit) (t : State) : Prop where
  agrees : e.agrees (!s.running)
  tick : loadThread.tick e (s.loaders i, ()) = some (t.loaders i, ())
  others : ∀ j, j ≠ i → t.loaders j = s.loaders j
  rest : t.pc = s.pc ∧ t.running = s.running ∧ t.rt = s.rt ∧ t.printed = s.printed

/-- What a step does, while the process goes on. -/
inductive Move (qnx : Bool) (iterations loadThreads : ℕ) (s : State) : Action → State → Prop
  | main (o : Outcome) (t : State) (h : MainMove loadThreads s t) :
      Move qnx iterations loadThreads s (.main o) t
  | rt (c : RtCall) (t : State) (h : RtMove qnx iterations s c t) :
      Move qnx iterations loadThreads s (.rt c) t
  | load (i : ℕ) (e : Event Unit) (t : State) (h : LoadMove s i e t) :
      Move qnx iterations loadThreads s (.load i e) t

theorem rtThread_move {c : RtCall} (h : rtThread qnx iterations s c = some t) :
    RtMove qnx iterations s c t := by
  cases c with
  | clockGettime now =>
      rw [rtThread] at h
      cases hrt : s.rt with
      | start =>
          rw [hrt] at h
          obtain rfl := Option.some.inj h
          exact .start now hrt
      | read i next maxLatency =>
          rw [hrt] at h
          obtain rfl := Option.some.inj h
          exact .read now i next maxLatency hrt
      | _ =>
          rw [hrt] at h
          cases h
  | sleep o =>
      rw [rtThread] at h
      cases hrt : s.rt with
      | sleep i next maxLatency =>
          rw [hrt] at h
          obtain rfl := Option.some.inj h
          split
          case isTrue hfail =>
            rw [hfail.2]
            exact .timeout i next maxLatency hrt hfail.1
          case isFalse => exact .sleep o i next maxLatency hrt
      | _ =>
          rw [hrt] at h
          cases h
  | print =>
      rw [rtThread] at h
      cases hrt : s.rt with
      | print maxLatency =>
          rw [hrt] at h
          obtain rfl := Option.some.inj h
          exact .print maxLatency hrt
      | _ =>
          rw [hrt] at h
          cases h
  | clear =>
      obtain ⟨hrt, h⟩ := Option.ite_none_right_eq_some.mp h
      obtain rfl := Option.some.inj h
      exact .clear hrt

theorem mainSuccess_move (h : mainSuccess loadThreads s = some t) : MainMove loadThreads s t := by
  rw [mainSuccess] at h
  cases hpc : s.pc with
  | create i =>
      simp only [hpc] at h
      split at h <;> obtain rfl := Option.some.inj h
      case isTrue hi => exact .create i hpc hi
      case isFalse hi => exact .createDone i hpc (not_lt.mp hi)
  | createRt =>
      rw [hpc] at h
      obtain rfl := Option.some.inj h
      exact .createRt hpc
  | joinRt =>
      rw [hpc] at h
      obtain ⟨hrt, h⟩ := Option.ite_none_right_eq_some.mp h
      obtain rfl := Option.some.inj h
      exact .joinRt hpc hrt
  | join i =>
      simp only [hpc] at h
      split at h
      case isTrue hi =>
        obtain ⟨hended, h⟩ := Option.ite_none_right_eq_some.mp h
        obtain rfl := Option.some.inj h
        exact .join i hpc hi hended
      case isFalse hi =>
        obtain rfl := Option.some.inj h
        exact .joinDone i hpc (not_lt.mp hi)
  | returned | exitFailure =>
      rw [hpc] at h
      cases h

theorem mainFailure_move (h : mainFailure loadThreads s = some t) : MainMove loadThreads s t := by
  rw [mainFailure] at h
  cases hpc : s.pc with
  | create i =>
      rw [hpc] at h
      obtain ⟨-, h⟩ := Option.ite_none_right_eq_some.mp h
      obtain rfl := Option.some.inj h
      exact .exit (.inl ⟨i, hpc⟩)
  | createRt =>
      rw [hpc] at h
      obtain rfl := Option.some.inj h
      exact .exit (.inr hpc)
  | _ =>
      rw [hpc] at h
      cases h

theorem tick_move {a : Action} (h : (main qnx iterations loadThreads).tick a s = some t) :
    (s.pc ≠ .returned ∧ s.pc ≠ .exitFailure) ∧ Move qnx iterations loadThreads s a t := by
  change tick qnx iterations loadThreads a s = some t at h
  rw [tick.eq_def] at h
  obtain ⟨hpc, h⟩ := Option.ite_none_left_eq_some.mp h
  refine ⟨not_or.mp hpc, ?_⟩
  cases a with
  | main o =>
      cases o with
      | success => exact .main _ t (mainSuccess_move h)
      | failure => exact .main _ t (mainFailure_move h)
  | rt c => exact .rt c t (rtThread_move h)
  | load i e =>
      obtain ⟨hagrees, h⟩ := Option.ite_none_right_eq_some.mp h
      obtain ⟨p, htick, rfl⟩ := Option.map_eq_some_iff.mp h
      refine .load i e _ ⟨hagrees, ?_, fun j hj => Function.update_of_ne hj .., rfl, rfl, rfl, rfl⟩
      dsimp only
      rw [htick, Function.update_self]

end Moves

section Invariants

def Pc.created (loadThreads : ℕ) : Pc → ℕ
  | .create i => i
  | .exitFailure => 0
  | _ => loadThreads

def Pc.joined (loadThreads : ℕ) : Pc → ℕ
  | .join i => i
  | .returned => loadThreads
  | _ => 0

def Pc.InRange (loadThreads : ℕ) : Pc → Prop
  | .create i | .join i => i ≤ loadThreads
  | _ => True

/-- Whether `rt_thread` has been created, and whether it has been joined. -/
def Pc.rtCreated : Pc → Bool
  | .create _ | .createRt => false
  | _ => true

def Pc.rtJoined : Pc → Bool
  | .join _ | .returned => true
  | _ => false

/-- What holds at a place of the main thread. -/
structure Holds (loadThreads : ℕ) (pc : Pc) (s : State) : Prop where
  inRange : pc.InRange loadThreads
  absent : ∀ i, s.loaders i = .absent ↔ pc.created loadThreads ≤ i
  rtAbsent : s.rt = .absent ↔ pc.rtCreated = false
  running : s.running = false ↔ s.rt = .ended
  ended : ∀ i, s.loaders i = .ended → s.running = false
  rtJoined : pc.rtJoined = true → s.rt = .ended
  joined : ∀ i < pc.joined loadThreads, s.loaders i = .ended

variable {qnx : Bool} {iterations loadThreads : ℕ} {s t : State} {a : Action} {as : List Action}

theorem holds_init : Holds loadThreads (main qnx iterations loadThreads).init.pc
    (main qnx iterations loadThreads).init where
  inRange := Nat.zero_le loadThreads
  absent i := ⟨fun _ => Nat.zero_le i, fun _ => rfl⟩
  rtAbsent := ⟨fun _ => rfl, fun _ => rfl⟩
  running := ⟨nofun, nofun⟩
  ended _ h := nomatch h
  rtJoined := nofun
  joined i hi := absurd hi (Nat.not_lt_zero i)

theorem Holds.create {i : ℕ} (h : Holds loadThreads (.create i) s) (hi : i < loadThreads) :
    Holds loadThreads (.create (i + 1)) { s with
      pc := .create (i + 1)
      loaders := Function.update s.loaders i .test } := by
  refine { h with inRange := hi, absent := fun j => ?_, ended := fun j hj => ?_, joined := nofun }
  · have hj := h.absent j
    dsimp only
    rw [Function.update_apply]
    simp only [Pc.created] at hj ⊢
    split
    case isTrue heq => simp [heq]
    case isFalse hne => rw [hj]; omega
  · dsimp only at hj
    rw [Function.update_apply] at hj
    split at hj
    case isTrue => cases hj
    case isFalse => exact h.ended j hj

theorem Holds.mainMove (h : Holds loadThreads s.pc s) (hmove : MainMove loadThreads s t)
    (hgoes : t.pc ≠ .exitFailure) : Holds loadThreads t.pc t := by
  cases hmove with
  | exit => exact absurd rfl hgoes
  | create i hpc hi =>
      rw [hpc] at h
      exact h.create hi
  | createDone i hpc hi =>
      rw [hpc] at h
      have heq : i = loadThreads := Nat.le_antisymm h.inRange hi
      have habsent := h.absent
      rw [heq] at habsent
      exact { h with inRange := trivial, absent := habsent }
  | createRt hpc =>
      rw [hpc] at h
      have hrt : s.rt = .absent := h.rtAbsent.mpr rfl
      have hrunning : s.running ≠ false := by
        rw [Ne, h.running, hrt]
        exact nofun
      exact { h with
        rtAbsent := ⟨nofun, nofun⟩
        running := ⟨fun hstopped => absurd hstopped hrunning, nofun⟩
        rtJoined := nofun }
  | joinRt hpc hrt =>
      rw [hpc] at h
      exact { h with inRange := Nat.zero_le _, rtJoined := fun _ => hrt }
  | join i hpc hi hended =>
      rw [hpc] at h
      refine { h with inRange := hi, joined := fun j hj => ?_ }
      rcases Nat.lt_succ_iff_lt_or_eq.mp hj with hj | rfl
      · exact h.joined j hj
      · exact hended
  | joinDone i hpc hi =>
      rw [hpc] at h
      have heq : i = loadThreads := Nat.le_antisymm h.inRange hi
      have hjoined := h.joined
      rw [heq] at hjoined
      exact { h with inRange := trivial, joined := hjoined }

/-- A step of `rt_thread` which does not end it. -/
theorem Holds.rtGoes (h : Holds loadThreads s.pc s) {place : RtPlace} (printed : List ℤ)
    (hrt : s.rt ≠ .absent ∧ s.rt ≠ .ended) (hplace : place ≠ .absent ∧ place ≠ .ended) :
    Holds loadThreads s.pc { s with rt := place, printed := printed } where
  inRange := h.inRange
  absent := h.absent
  rtAbsent := by
    rw [← h.rtAbsent]
    exact iff_of_false hplace.1 hrt.1
  running := by
    dsimp only
    rw [h.running]
    exact iff_of_false hrt.2 hplace.2
  ended := h.ended
  rtJoined hpc := absurd (h.rtJoined hpc) hrt.2
  joined := h.joined

theorem loopTest_ne (i : ℕ) (next : Timespec) (maxLatency : ℤ) :
    loopTest iterations i next maxLatency ≠ .absent ∧
    loopTest iterations i next maxLatency ≠ .ended := by
  unfold loopTest
  split
  · exact ⟨nofun, nofun⟩
  · exact ⟨nofun, nofun⟩

theorem Holds.rtMove {c : RtCall} (h : Holds loadThreads s.pc s)
    (hmove : RtMove qnx iterations s c t) : Holds loadThreads t.pc t := by
  cases hmove with
  | start now hrt | read now i next maxLatency hrt =>
      exact h.rtGoes s.printed (by rw [hrt]; exact ⟨nofun, nofun⟩) (loopTest_ne _ _ _)
  | timeout i next maxLatency hrt | sleep o i next maxLatency hrt =>
      exact h.rtGoes s.printed (by rw [hrt]; exact ⟨nofun, nofun⟩) ⟨nofun, nofun⟩
  | print maxLatency hrt =>
      exact h.rtGoes _ (by rw [hrt]; exact ⟨nofun, nofun⟩) ⟨nofun, nofun⟩
  | clear hrt =>
      have hcreated : s.pc.rtCreated ≠ false := by
        rw [Ne, ← h.rtAbsent, hrt]
        exact nofun
      exact { h with
        rtAbsent := iff_of_false nofun hcreated
        running := ⟨fun _ => rfl, fun _ => rfl⟩
        ended := fun _ _ => rfl
        rtJoined := fun _ => rfl }

theorem Holds.loadMove {i : ℕ} {e : Event Unit} (h : Holds loadThreads s.pc s)
    (hmove : LoadMove s i e t) : Holds loadThreads t.pc t := by
  obtain ⟨hpc, hrunning, hrt, -⟩ := hmove.rest
  obtain ⟨⟨habsent, hended⟩, habsent'⟩ := Loop.tick_started hmove.tick
  rw [hpc]
  refine ⟨h.inRange, fun j => ?_, ?_, ?_, fun j hj => ?_, ?_, fun j hj => ?_⟩
  · by_cases hj : j = i
    · subst hj
      rw [← h.absent j]
      exact iff_of_false habsent' habsent
    · rw [hmove.others j hj, h.absent j]
  · rw [hrt]
    exact h.rtAbsent
  · rw [hrunning, hrt]
    exact h.running
  · rw [hrunning]
    by_cases hji : j = i
    · subst hji
      have hagrees := hmove.agrees
      rw [Loop.tick_ended hmove.tick hj] at hagrees
      have hstopped : true = !s.running := of_decide_eq_true hagrees
      exact Bool.not_eq_true' _ |>.mp hstopped.symm
    · rw [hmove.others j hji] at hj
      exact h.ended j hj
  · rw [hrt]
    exact h.rtJoined
  · have hji : j ≠ i := by
      rintro rfl
      exact hended (h.joined j hj)
    rw [hmove.others j hji]
    exact h.joined j hj

theorem Holds.step (h : Holds loadThreads s.pc s)
    (hmove : Move qnx iterations loadThreads s a t) (hgoes : t.pc ≠ .exitFailure) :
    Holds loadThreads t.pc t := by
  cases hmove with
  | main o t h' => exact h.mainMove h' hgoes
  | rt c t h' => exact h.rtMove h'
  | load i e t h' => exact h.loadMove h'

end Invariants

section Measurement
variable {qnx : Bool} {iterations loadThreads : ℕ} {s t : State} {a : Action} {as : List Action}

/-- The clock readings of `rt_thread`. -/
def readings (as : List Action) : List Timespec :=
  as.filterMap fun
    | .rt (.clockGettime t) => some t
    | _ => none

def wakes (nows : List Timespec) : List Wake := nows.map (Wake.mk .success)

/-- The loop has come past the readings `nows`, with the deadline `next` before its advance
and the result `maxLatency` so far. -/
def Past (start : Timespec) (nows : List Timespec) (next : Timespec) (maxLatency : ℤ) : Prop :=
  ∀ ws, (rtThreadLoop start 0 (wakes nows ++ ws)).worst = (rtThreadLoop next maxLatency ws).worst

theorem Past.read {start next : Timespec} {nows : List Timespec} {maxLatency : ℤ}
    (h : Past start nows next maxLatency) (t : Timespec) :
    Past start (nows ++ [t]) (advance next)
      (if maxLatency < latency t (advance next) then latency t (advance next) else maxLatency) := by
  intro ws
  have hwakes : wakes (nows ++ [t]) ++ ws = wakes nows ++ ⟨.success, t⟩ :: ws := by
    rw [wakes, List.map_append, List.append_assoc]
    rfl
  rw [hwakes, h]
  rfl

theorem Past.worst {start next : Timespec} {nows : List Timespec} {maxLatency : ℤ}
    (h : Past start nows next maxLatency) :
    (PeriodicLatency.rtThread start (wakes nows)).worst = maxLatency := by
  have hend := h []
  rw [List.append_nil] at hend
  exact hend

/-- A `TimerTimeout` has failed, which is what leaves the loop early. -/
def TimedOut (qnx : Bool) (as : List Action) : Prop := qnx = true ∧ .rt (.sleep .failure) ∈ as

/-- The readings that a place of `rt_thread` has behind it, and what is printed there. They are
fewer than the loop has iterations only behind a time-out. -/
def Taken (timedOut : Prop) (iterations : ℕ) (rs : List Timespec) (printed : List ℤ) :
    RtPlace → Prop
  | .absent | .start => rs = [] ∧ printed = []
  | .sleep i next maxLatency | .read i next maxLatency =>
      printed = [] ∧ i < iterations ∧ ∃ start nows last, rs = start :: nows ∧ nows.length = i ∧
        next = advance last ∧ Past start nows last maxLatency
  | .print maxLatency =>
      printed = [] ∧ ∃ start nows, rs = start :: nows ∧ nows.length ≤ iterations ∧
        (¬ timedOut → nows.length = iterations) ∧
        (PeriodicLatency.rtThread start (wakes nows)).worst = maxLatency
  | .clear | .ended => ∃ start nows, rs = start :: nows ∧ nows.length ≤ iterations ∧
      (¬ timedOut → nows.length = iterations) ∧
      printed = [(PeriodicLatency.rtThread start (wakes nows)).worst]

theorem Taken.mono {timedOut timedOut' : Prop} {rs : List Timespec} {printed : List ℤ}
    {place : RtPlace} (h : Taken timedOut iterations rs printed place)
    (hmono : timedOut → timedOut') : Taken timedOut' iterations rs printed place := by
  cases place with
  | print maxLatency =>
      obtain ⟨hprinted, start, nows, hrs, hle, hcount, hworst⟩ := h
      exact ⟨hprinted, start, nows, hrs, hle, fun hnot => hcount (mt hmono hnot), hworst⟩
  | clear | ended =>
      obtain ⟨start, nows, hrs, hle, hcount, hprinted⟩ := h
      exact ⟨start, nows, hrs, hle, fun hnot => hcount (mt hmono hnot), hprinted⟩
  | _ => exact h

theorem taken_loopTest {timedOut : Prop} {start next : Timespec} {nows : List Timespec}
    {maxLatency : ℤ} (hle : nows.length ≤ iterations) (h : Past start nows next maxLatency) :
    Taken timedOut iterations (start :: nows) []
      (loopTest iterations nows.length next maxLatency) := by
  unfold loopTest
  split
  case isTrue hlt => exact ⟨rfl, hlt, start, nows, next, rfl, rfl, rfl, h⟩
  case isFalse hge =>
    have heq : nows.length = iterations := Nat.le_antisymm hle (not_lt.mp hge)
    exact ⟨rfl, start, nows, rfl, hle, fun _ => heq, h.worst⟩

theorem taken_rtMove {timedOut : Prop} {rs : List Timespec} {c : RtCall}
    (h : Taken timedOut iterations rs s.printed s.rt) (hmove : RtMove qnx iterations s c t)
    (htimeout : qnx = true → c = .sleep .failure → timedOut) :
    Taken timedOut iterations (rs ++ readings [.rt c]) t.printed t.rt := by
  cases hmove with
  | start now hrt =>
      rw [hrt] at h
      obtain ⟨rfl, hprinted⟩ := h
      rw [hprinted]
      have hpast : Past now [] now 0 := fun ws => rfl
      exact taken_loopTest (Nat.zero_le _) hpast
  | read now i next maxLatency hrt =>
      rw [hrt] at h
      obtain ⟨hprinted, hi, start, nows, last, rfl, rfl, rfl, hpast⟩ := h
      have hle : (nows ++ [now]).length ≤ iterations := by
        rw [List.length_append]
        exact hi
      have htest : Taken timedOut iterations _ _ _ := taken_loopTest hle (hpast.read now)
      rw [List.length_append] at htest
      rw [hprinted]
      exact htest
  | timeout i next maxLatency hrt hqnx =>
      rw [hrt] at h
      obtain ⟨hprinted, hi, start, nows, last, rfl, rfl, rfl, hpast⟩ := h
      exact ⟨hprinted, start, nows, List.append_nil _, hi.le,
        fun hnot => absurd (htimeout hqnx rfl) hnot, hpast.worst⟩
  | sleep o i next maxLatency hrt =>
      rw [hrt] at h
      rw [show readings [.rt (.sleep o)] = [] from rfl, List.append_nil]
      exact h
  | print maxLatency hrt =>
      rw [hrt] at h
      obtain ⟨hprinted, start, nows, rfl, hle, hcount, hworst⟩ := h
      refine ⟨start, nows, List.append_nil _, hle, hcount, ?_⟩
      rw [hworst, hprinted]
      rfl
  | clear hrt =>
      rw [hrt] at h
      rw [show readings [.rt .clear] = [] from rfl, List.append_nil]
      exact h

theorem history {Q : List Action → State → Prop}
    (h : (main qnx iterations loadThreads).Run as (main qnx iterations loadThreads).init s)
    (nil : Q [] (main qnx iterations loadThreads).init)
    (snoc : ∀ as a u v, Holds loadThreads u.pc u → v.pc ≠ .exitFailure →
      Move qnx iterations loadThreads u a v → Q as u → Q (as ++ [a]) v) :
    s.pc = .exitFailure ∨ Holds loadThreads s.pc s ∧ Q as s := by
  refine h.history
    (P := fun as s => s.pc = .exitFailure ∨ Holds loadThreads s.pc s ∧ Q as s)
    (.inr ⟨holds_init, nil⟩) ?_
  rintro as a u v hu htick
  obtain ⟨hgoes, hmove⟩ := tick_move htick
  obtain ⟨hholds, hQ⟩ := hu.resolve_left hgoes.2
  by_cases hv : v.pc = .exitFailure
  · exact .inl hv
  · exact .inr ⟨hholds.step hmove hv, snoc as a u v hholds hv hmove hQ⟩

theorem taken_of_run
    (h : (main qnx iterations loadThreads).Run as (main qnx iterations loadThreads).init s) :
    s.pc = .exitFailure ∨ Holds loadThreads s.pc s ∧
      Taken (TimedOut qnx as) iterations (readings as) s.printed s.rt := by
  refine history (Q := fun as s =>
    Taken (TimedOut qnx as) iterations (readings as) s.printed s.rt) h
    ⟨rfl, rfl⟩ ?_
  intro as a u v hholds hgoes hmove htaken
  have happend : readings (as ++ [a]) = readings as ++ readings [a] := List.filterMap_append
  replace htaken : Taken (TimedOut qnx (as ++ [a])) iterations (readings as) u.printed u.rt :=
    htaken.mono (And.imp_right (List.mem_append_left [a]))
  rw [happend]
  cases hmove with
  | rt c v hmove =>
      refine taken_rtMove htaken hmove fun hqnx hc => ⟨hqnx, ?_⟩
      rw [hc]
      exact List.mem_append_right as List.mem_cons_self
  | load i e v hmove =>
      rw [hmove.rest.2.2.1, hmove.rest.2.2.2]
      exact (List.append_nil (readings as)).symm ▸ htaken
  | main o v hmove =>
      rw [show readings [.main o] = [] from rfl, List.append_nil]
      cases hmove with
      | createRt hpc =>
          have habsent : u.rt = .absent := hholds.rtAbsent.mpr (by rw [hpc]; rfl)
          rw [habsent] at htaken
          exact htaken
      | exit => exact absurd rfl hgoes
      | _ => exact htaken

theorem get_wakes (nows : List Timespec) (i : ℕ) (hi : i < (wakes nows).length) :
    ((wakes nows).get ⟨i, hi⟩).now = nows.get ⟨i, by simpa [wakes] using hi⟩ := by
  simp [wakes]

/-- Without overflow the result is the greatest distance of a reading from its deadline. -/
theorem isGreatest_worst {start : Timespec} {nows : List Timespec}
    (h : Schedule start (wakes nows)) :
    IsGreatest {x | x = 0 ∨ ∃ i, ∃ hi : i < nows.length,
        x = |(nows.get ⟨i, hi⟩).instant - (deadline start (i + 1)).instant|}
      (PeriodicLatency.rtThread start (wakes nows)).worst := by
  have hworst := idealLoop_worst start.instant 0 (wakes nows)
  rw [rtThread_eq, maxLatencyScheduling_eq h]
  convert hworst using 2
  ext x
  refine or_congr_right (exists_congr fun i => ?_)
  have hlength : (wakes nows).length = nows.length := List.length_map _
  have hdistance : ∀ hi : i < nows.length, distance start.instant (wakes nows) i (hlength ▸ hi) =
      |(nows.get ⟨i, hi⟩).instant - (deadline start (i + 1)).instant| := by
    intro hi
    rw [distance, get_wakes, deadline, Timespec.instant_ofInstant]
  constructor
  · rintro ⟨hi, rfl⟩
    exact ⟨hlength ▸ hi, (hdistance hi).symm⟩
  · rintro ⟨hi, rfl⟩
    exact ⟨hlength ▸ hi, hdistance (hlength ▸ hi)⟩

/-- When `main` has returned, the printed latency is the result of the loop on the readings
of `rt_thread`, as many as the loop has iterations unless a `TimerTimeout` has failed. -/
theorem printed_of_returned
    (h : (main qnx iterations loadThreads).Run as (main qnx iterations loadThreads).init s)
    (hs : s.pc = .returned) :
    ∃ start nows, readings as = start :: nows ∧ nows.length ≤ iterations ∧
      (qnx = false ∨ .rt (.sleep .failure) ∉ as → nows.length = iterations) ∧
      s.printed = [(PeriodicLatency.rtThread start (wakes nows)).worst] ∧
      (Schedule start (wakes nows) →
        IsGreatest {x | x = 0 ∨ ∃ i, ∃ hi : i < nows.length,
            x = |(nows.get ⟨i, hi⟩).instant - (deadline start (i + 1)).instant|}
          (PeriodicLatency.rtThread start (wakes nows)).worst) := by
  have htaken := taken_of_run h
  rw [hs] at htaken
  obtain ⟨hholds, htaken⟩ := htaken.resolve_left nofun
  rw [hholds.rtJoined rfl] at htaken
  obtain ⟨start, nows, hreadings, hle, hcount, hprinted⟩ := htaken
  refine ⟨start, nows, hreadings, hle, fun hkept => hcount ?_, hprinted, isGreatest_worst⟩
  rintro ⟨hqnx, hfailure⟩
  exact hkept.elim (by simp [hqnx]) (absurd hfailure)

/-- One period, which ends two hundred microseconds late. -/
def schedule : List Action :=
  List.replicate 3 (.main .success) ++
  [.rt (.clockGettime ⟨5, 0⟩), .rt (.sleep .success), .rt (.clockGettime ⟨5, 1200000⟩),
    .rt .print, .rt .clear, .main .success, .load 0 (.test true)] ++
  List.replicate 2 (.main .success)

theorem printed_of_returned_once : ∃ s, (main true 1 1).Run schedule (main true 1 1).init s ∧
    ∃ start nows, readings schedule = start :: nows ∧ nows.length = 1 ∧
      s.printed = [(PeriodicLatency.rtThread start (wakes nows)).worst] := by
  have hrun : ∃ s, (main true 1 1).Run schedule (main true 1 1).init s ∧ s.pc = .returned :=
    ⟨_, rfl, rfl⟩
  obtain ⟨s, hrun, hpc⟩ := hrun
  obtain ⟨start, nows, hreadings, -, hcount, hprinted, -⟩ := printed_of_returned hrun hpc
  exact ⟨s, hrun, start, nows, hreadings, hcount (.inr (by decide)), hprinted⟩

/-- Whenever `rt_thread` reads the clock or sleeps, all load threads have been created and
none of them has ended. -/
theorem measures_under_load
    (h : (main qnx iterations loadThreads).Run as (main qnx iterations loadThreads).init s)
    {c : RtCall} (ht : (main qnx iterations loadThreads).tick (.rt c) s = some t) :
    ∀ i < loadThreads, s.loaders i ≠ .absent ∧ s.loaders i ≠ .ended := by
  obtain ⟨hgoes, hmove⟩ := tick_move ht
  obtain ⟨hholds, -⟩ := (taken_of_run h).resolve_left hgoes.2
  have hrt : s.rt ≠ .absent ∧ s.rt ≠ .ended := by
    cases hmove with
    | rt c t hmove =>
        cases hmove with
        | start now hrt | read now i next maxLatency hrt | timeout i next maxLatency hrt
        | sleep o i next maxLatency hrt | print maxLatency hrt | clear hrt =>
            rw [hrt]
            exact ⟨nofun, nofun⟩
  intro i hi
  refine ⟨fun habsent => ?_, fun hended => hrt.2 (hholds.running.mp (hholds.ended i hended))⟩
  have hcreated : s.pc.rtCreated ≠ false := fun hpc => hrt.1 (hholds.rtAbsent.mpr hpc)
  have hle := (hholds.absent i).mp habsent
  cases hpc : s.pc with
  | create i | createRt =>
      rw [hpc] at hcreated
      exact hcreated rfl
  | exitFailure => exact hgoes.2 hpc
  | joinRt | join i | returned =>
      rw [hpc] at hle
      exact absurd hi (not_lt.mpr hle)

theorem measures_under_load_once : ∃ s, (main false 1 1).Run (schedule.take 5)
    (main false 1 1).init s ∧ s.loaders 0 ≠ .absent ∧ s.loaders 0 ≠ .ended := by
  have hrun : ∃ s t, (main false 1 1).Run (schedule.take 5) (main false 1 1).init s ∧
      (main false 1 1).tick (.rt (.clockGettime ⟨5, 1200000⟩)) s = some t := ⟨_, _, rfl, rfl⟩
  obtain ⟨s, t, hrun, htick⟩ := hrun
  exact ⟨s, hrun, measures_under_load hrun htick 0 Nat.zero_lt_one⟩

end Measurement

section Ends
variable {qnx : Bool} {iterations loadThreads : ℕ} {s t : State} {a : Action} {as : List Action}

def LoadPlace.left : LoadPlace → ℕ
  | .spin i => spins - i + 1
  | .usleep => 0

theorem loadThread_terminating : loadThread.Terminating LoadPlace.left where
  live place data := by
    cases place with
    | spin i => exact ⟨(), rfl⟩
    | usleep => exact ⟨(), rfl⟩
  lt e place data place' data' h := by
    cases place with
    | usleep => cases h
    | spin i =>
        have hplace := Option.some.inj (Prod.mk.inj (Option.some.inj h)).1
        rw [← hplace]
        split
        case isTrue hi =>
          simp only [LoadPlace.left]
          omega
        case isFalse => exact Nat.succ_pos _

theorem LoadPlace.left_le (place : LoadPlace) : place.left ≤ spins + 1 := by
  cases place <;> simp only [LoadPlace.left] <;> omega

/-- The steps of the main thread once `running` is cleared. -/
def Pc.left (loadThreads : ℕ) : Pc → ℕ
  | .joinRt => loadThreads + 2
  | .join i => loadThreads - i + 1
  | _ => 0

def left (loadThreads : ℕ) (s : State) : ℕ :=
  s.pc.left loadThreads +
    ∑ i ∈ Finset.range loadThreads, (s.loaders i).left LoadPlace.left

theorem left_le (s : State) : left loadThreads s ≤ loadThreads * (spins + 3) + loadThreads + 2 := by
  have hthread : ∀ i ∈ Finset.range loadThreads,
      (s.loaders i).left LoadPlace.left ≤ spins + 3 := by
    intro i _
    cases s.loaders i with
    | absent | test | ended =>
        simp only [Thread.left]
        omega
    | pass place => exact Nat.add_le_add_right place.left_le 2
  have hsum := Finset.sum_le_sum hthread
  rw [Finset.sum_const, Finset.card_range, smul_eq_mul] at hsum
  have hmain : s.pc.left loadThreads ≤ loadThreads + 2 := by
    cases s.pc <;> simp only [Pc.left] <;> omega
  rw [left]
  omega

theorem Holds.lt_loadThreads {i : ℕ} (h : Holds loadThreads s.pc s) (hrunning : s.running = false)
    (hgoes : s.pc ≠ .exitFailure) (hi : s.loaders i ≠ .absent) : i < loadThreads := by
  have hrt := h.running.mp hrunning
  have hcreated : s.pc.created loadThreads = loadThreads := by
    have hpc : s.pc.rtCreated ≠ false := by
      rw [Ne, ← h.rtAbsent, hrt]
      exact nofun
    cases hp : s.pc with
    | create k | createRt =>
        rw [hp] at hpc
        exact absurd rfl hpc
    | exitFailure => exact absurd hp hgoes
    | _ => rfl
  by_contra hle
  refine hi ((h.absent i).mpr ?_)
  rw [hcreated]
  exact not_lt.mp hle

/-- Once `running` is cleared, each step takes something from what is left. -/
theorem Holds.step_lt (h : Holds loadThreads s.pc s) (hrunning : s.running = false)
    (hgoes : s.pc ≠ .exitFailure) (hmove : Move qnx iterations loadThreads s a t) :
    left loadThreads t < left loadThreads s ∧ t.running = false ∧ t.pc ≠ .exitFailure := by
  have hrt := h.running.mp hrunning
  have hpc : s.pc.rtCreated ≠ false := by
    rw [Ne, ← h.rtAbsent, hrt]
    exact nofun
  rw [left, left]
  cases hmove with
  | rt c t hmove =>
      cases hmove with
      | start now h' | read now i next maxLatency h' | timeout i next maxLatency h'
      | sleep o i next maxLatency h' | print maxLatency h' | clear h' =>
          rw [h'] at hrt
          cases hrt
  | main o t hmove =>
      cases hmove with
      | exit hcreate =>
          rcases hcreate with ⟨i, hp⟩ | hp
          · exact absurd (by rw [hp]; rfl) hpc
          · exact absurd (by rw [hp]; rfl) hpc
      | create i hp | createDone i hp | createRt hp => exact absurd (by rw [hp]; rfl) hpc
      | joinRt hp | join i hp | joinDone i hp =>
          refine ⟨Nat.add_lt_add_right ?_ _, hrunning, nofun⟩
          rw [hp]
          simp only [Pc.left]
          omega
  | load i e t hmove =>
      obtain ⟨htpc, htrunning, -⟩ := hmove.rest
      have hi := h.lt_loadThreads hrunning hgoes (Loop.tick_started hmove.tick).1.1
      have hagrees := hmove.agrees
      rw [hrunning] at hagrees
      have hlt := loadThread_terminating.tick_lt hmove.tick hagrees
      rw [htpc]
      refine ⟨Nat.add_lt_add_left (Finset.sum_lt_sum (fun j _ => ?_)
        ⟨i, Finset.mem_range.mpr hi, hlt⟩) _, htrunning.trans hrunning, hgoes⟩
      by_cases hj : j = i
      · subst hj
        exact hlt.le
      · rw [hmove.others j hj]

/-- While the program has not ended, some thread can go on without a failing call. -/
theorem Holds.enabled (h : Holds loadThreads s.pc s) (hs : s.pc ≠ .returned)
    (hgoes : s.pc ≠ .exitFailure) :
    ∃ a, a ≠ .main .failure ∧ ((main qnx iterations loadThreads).tick a s).isSome := by
  have hnot : ¬ (s.pc = .returned ∨ s.pc = .exitFailure) := not_or.mpr ⟨hs, hgoes⟩
  have hmain : (mainSuccess loadThreads s).isSome →
      ∃ a, a ≠ .main .failure ∧ ((main qnx iterations loadThreads).tick a s).isSome := by
    intro hsome
    refine ⟨.main .success, nofun, ?_⟩
    change (tick qnx iterations loadThreads (.main .success) s).isSome
    rw [tick.eq_def, if_neg hnot]
    exact hsome
  have hrtStep : ∀ c, (rtThread qnx iterations s c).isSome →
      ∃ a, a ≠ .main .failure ∧ ((main qnx iterations loadThreads).tick a s).isSome := by
    intro c hsome
    refine ⟨.rt c, nofun, ?_⟩
    change (tick qnx iterations loadThreads (.rt c) s).isSome
    rw [tick.eq_def, if_neg hnot]
    exact hsome
  cases hpc : s.pc with
  | create i =>
      apply hmain
      simp only [mainSuccess, hpc]
      split <;> rfl
  | createRt =>
      apply hmain
      rw [mainSuccess, hpc]
      rfl
  | joinRt =>
      cases hrt : s.rt with
      | absent =>
          have hcreated := h.rtAbsent.mp hrt
          rw [hpc] at hcreated
          cases hcreated
      | start =>
          apply hrtStep (.clockGettime ⟨0, 0⟩)
          rw [rtThread, hrt]
          rfl
      | sleep i next maxLatency =>
          apply hrtStep (.sleep .success)
          rw [rtThread, hrt]
          rfl
      | read i next maxLatency =>
          apply hrtStep (.clockGettime ⟨0, 0⟩)
          rw [rtThread, hrt]
          rfl
      | print maxLatency =>
          apply hrtStep .print
          rw [rtThread, hrt]
          rfl
      | clear =>
          apply hrtStep .clear
          rw [rtThread, if_pos hrt]
          rfl
      | ended =>
          apply hmain
          simp only [mainSuccess, hpc, hrt, if_true]
          rfl
  | join i =>
      by_cases hwait : i < loadThreads ∧ s.loaders i ≠ .ended
      · have hcreated : s.loaders i ≠ .absent := by
          rw [Ne, h.absent i, hpc]
          exact not_le.mpr hwait.1
        obtain ⟨e, hagrees, he⟩ := loadThread_terminating.exists_tick (p := (s.loaders i, ()))
          (!s.running) ⟨hcreated, hwait.2⟩
        refine ⟨.load i e, nofun, ?_⟩
        change (tick qnx iterations loadThreads (.load i e) s).isSome
        rw [tick.eq_def, if_neg hnot]
        dsimp only
        rw [if_pos hagrees, Option.isSome_map]
        exact he
      · apply hmain
        simp only [mainSuccess, hpc]
        split
        case isTrue hi =>
          rw [if_pos (not_not.mp fun hended => hwait ⟨hi, hended⟩)]
          rfl
        case isFalse => rfl
  | returned => exact absurd hpc hs
  | exitFailure => exact absurd hpc hgoes

/-- No state but the last ones is stuck, and once `rt_thread` has cleared `running` the program
returns after a bounded number of steps. -/
theorem never_stuck
    (h : (main qnx iterations loadThreads).Run as (main qnx iterations loadThreads).init s)
    (hgoes : s.pc ≠ .exitFailure) :
    (s.pc = .returned ∨
      ∃ a, a ≠ .main .failure ∧ ((main qnx iterations loadThreads).tick a s).isSome) ∧
    (s.running = false → ∀ bs t, (main qnx iterations loadThreads).Run bs s t →
      bs.length ≤ loadThreads * (spins + 3) + loadThreads + 2) := by
  obtain ⟨hholds, -⟩ := (taken_of_run h).resolve_left hgoes
  constructor
  · by_cases hs : s.pc = .returned
    · exact .inl hs
    · exact .inr (hholds.enabled hs hgoes)
  · intro hrunning bs t hrun
    have hbound := hrun.length_add_le
      (I := fun u => Holds loadThreads u.pc u ∧ u.running = false ∧ u.pc ≠ .exitFailure)
      (fun _ => True) (left loadThreads) (fun _ _ => trivial) ⟨hholds, hrunning, hgoes⟩ ?_
    · exact (Nat.le_of_add_right_le hbound).trans (left_le s)
    · rintro a u v - ⟨hu, hurunning, hugoes⟩ htick
      obtain ⟨-, hmove⟩ := tick_move htick
      obtain ⟨hlt, hvrunning, hvgoes⟩ := hu.step_lt hurunning hugoes hmove
      exact ⟨⟨hu.step hmove hvgoes, hvrunning, hvgoes⟩, hlt⟩

/-- The load thread has not yet seen that `running` is cleared. -/
theorem never_stuck_once : ∃ s, (main false 1 1).Run (schedule.take 8) (main false 1 1).init s ∧
    ∃ a, a ≠ .main .failure ∧ ((main false 1 1).tick a s).isSome := by
  have hrun : ∃ s, (main false 1 1).Run (schedule.take 8) (main false 1 1).init s ∧
      s.pc = .joinRt := ⟨_, rfl, rfl⟩
  obtain ⟨s, hrun, hpc⟩ := hrun
  refine ⟨s, hrun, (never_stuck hrun ?_).1.resolve_left ?_⟩
  · rw [hpc]
    exact nofun
  · rw [hpc]
    exact nofun

end Ends

end MicrokernelBenchmark.DeterministicLatency
