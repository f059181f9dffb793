import MicrokernelBenchmark.Mean
import MicrokernelBenchmark.SleepJitter
import MicrokernelBenchmark.WorkerPoolEnds
import Mathlib.Algebra.BigOperators.Ring.Finset
import Mathlib.Algebra.Order.Ring.Rat
import Mathlib.Data.Rat.Cast.Defs

/-!
# The thread version of the sleep and wake benchmark

`main` of `sleep_wake_thread` with its sleep threads and its load threads, which
are numbered in the order of their creation. A sleep thread adds up in its
element of `sleep_data` what its sleeps took too long; a load thread only keeps
a processor busy. What is printed of a sleep thread is the mean over the pairs
of clock readings which this thread has taken in the run.
-/
namespace MicrokernelBenchmark.SleepWakeThread
open TransitionSystem FixedWidth WorkerPool DisjointIntervals
open SleepWakeProcess SleepJitter Mean

def defaultNumSleepThreads : ℕ := 2

def defaultNumLoadThreads : ℕ := 2

/-- `nanosleep` also returns early, on a signal. -/
inductive Call where
  | clockGettime (t : Timespec)
  | nanosleep
  | count
deriving DecidableEq, Repr

inductive Place where
  | start
  | asleep (start : Timespec)
  | finish (start : Timespec)
  | busy
deriving DecidableEq, Repr

/-- The passes of both loops. The counter of a load thread is a local variable that nothing
reads. -/
def step : Call → Place → SleepThreadData → Option (Option Place × SleepThreadData)
  | .clockGettime t, .start, data => some (some (.asleep t), data)
  | .nanosleep, .asleep start, data => some (some (.finish start), data)
  | .clockGettime t, .finish start, data => some (none, data.sample start t)
  | .count, .busy, data => some (none, data)
  | _, _, _ => none

def sleepThread : Loop Call Place SleepThreadData := ⟨.start, step⟩

def loadThread : Loop Call Place SleepThreadData := ⟨.busy, step⟩

/-- The first argument has to be positive. -/
def numSleepThreads : Option ℤ → ℕ
  | none => defaultNumSleepThreads
  | some x => if x ≤ 0 then defaultNumSleepThreads else x.toNat

/-- The second argument must not be negative. -/
def numLoadThreads : Option ℤ → ℕ
  | none => defaultNumLoadThreads
  | some x => if x < 0 then defaultNumLoadThreads else x.toNat

/-- The printed numbers, before they are rounded. -/
structure Line where
  threadId : ℤ
  iterations : ℤ
  avgJitter : ℚ
deriving DecidableEq, Repr

def line (data : SleepThreadData) : Option Line :=
  if 0 < data.iterations then
    some ⟨data.threadId, data.iterations, data.totalJitterNs / data.iterations⟩
  else none

section Program
variable (linux : Bool) (sleepArg loadArg : Option ℤ)

/-- The arrays are `sleep_threads`, `sleep_data` and `load_threads`, in this order. -/
def pool : Pool Call Place SleepThreadData Line where
  setup := if linux then 2 else 0
  arrays := 3
  size k := if k = 2 then numLoadThreads loadArg else numSleepThreads sleepArg
  threads := numSleepThreads sleepArg + numLoadThreads loadArg
  handle i :=
    if i < numSleepThreads sleepArg then (0, i) else (2, i - numSleepThreads sleepArg)
  reported := numSleepThreads sleepArg
  slotArray := 1
  loop i := if i < numSleepThreads sleepArg then sleepThread else loadThread
  fresh i := { threadId := i }
  line := line

def main (garbage : ℕ → SleepThreadData) :
    System (Action Call) (State Place SleepThreadData Line) :=
  (pool linux sleepArg loadArg).main garbage

end Program

/-- The clock readings of one thread. -/
def clockReadings (es : List (Event Call)) : List Timespec :=
  es.filterMap fun
    | .step (.clockGettime t) => some t
    | _ => none

/-- The list by twos. -/
def pairs {α : Type*} : List α → List (α × α)
  | x :: y :: xs => (x, y) :: pairs xs
  | _ => []

/-- The two readings around each sleep of thread `i` in a run. -/
def passes (i : ℕ) (as : List (Action Call)) : List (Timespec × Timespec) :=
  pairs (clockReadings (Pool.events i as))

theorem pairs_ends {α : Type*} (ps : List (α × α)) : pairs (ends ps) = ps := by
  induction ps with
  | nil => rfl
  | cons p ps ih => rw [ends_cons, pairs, ih]

section Sleeper
variable {es : List (Event Call)} {p q : Thread Place × SleepThreadData} {i : ℕ}

/-- The reading before a sleep that is not over yet. -/
def pending : Thread Place → List Timespec
  | .pass (.asleep start) | .pass (.finish start) => [start]
  | _ => []

/-- The data is what the completed passes make of it. -/
structure Measured (i : ℕ) (es : List (Event Call)) (p : Thread Place × SleepThreadData)
    (ps : List (Timespec × Timespec)) : Prop where
  data : p.2 = sleepThreadFunction { threadId := i } ps
  readings : clockReadings es = ends ps ++ pending p.1
  sleeps : p.1 ≠ .pass .busy

theorem clockReadings_append (es fs : List (Event Call)) :
    clockReadings (es ++ fs) = clockReadings es ++ clockReadings fs := List.filterMap_append

theorem Measured.tick {ps : List (Timespec × Timespec)} {e : Event Call} (h : Measured i es p ps)
    (ht : sleepThread.tick e p = some q) : ∃ ps', Measured i (es ++ [e]) q ps' := by
  obtain ⟨th, data⟩ := p
  have hdata : data = _ := h.data
  have hreadings := h.readings
  cases th with
  | absent | ended => cases e <;> cases ht
  | test =>
      cases e with
      | step e => cases ht
      | test seen =>
          obtain rfl := Option.some.inj ht
          refine ⟨ps, hdata, ?_, ?_⟩
          · rw [clockReadings_append, hreadings, List.append_assoc]
            cases seen <;> rfl
          · cases seen <;> exact nofun
  | pass place =>
      cases e with
      | test seen => cases ht
      | step e =>
          cases place with
          | busy => exact absurd rfl h.sleeps
          | start =>
              cases e <;> cases ht
              refine ⟨ps, hdata, ?_, nofun⟩
              rw [clockReadings_append, hreadings, List.append_assoc]
              rfl
          | asleep start =>
              cases e <;> cases ht
              refine ⟨ps, hdata, ?_, nofun⟩
              rw [clockReadings_append, hreadings, List.append_assoc]
              rfl
          | finish start =>
              cases e with
              | nanosleep | count => cases ht
              | clockGettime t =>
                  cases ht
                  refine ⟨ps ++ [(start, t)], ?_, ?_, nofun⟩
                  · rw [sleepThreadFunction_concat, ← hdata]
                  · have hends : ends (ps ++ [(start, t)]) = ends ps ++ [start, t] :=
                      List.flatMap_append
                    rw [clockReadings_append, hreadings, hends, List.append_assoc,
                      List.append_assoc]
                    rfl

theorem measured_of_run
    (h : (sleepThread.thread { threadId := i }).Run es
      (sleepThread.thread { threadId := i }).init p) :
    ∃ ps, Measured i es p ps := by
  refine h.history (P := fun es p => ∃ ps, Measured i es p ps) ⟨[], rfl, rfl, nofun⟩ ?_
  rintro es e p q ⟨ps, hps⟩ ht
  exact hps.tick ht

/-- A thread that has ended has taken its readings by twos. -/
theorem measured_of_ended
    (h : (sleepThread.thread { threadId := i }).Run es
      (sleepThread.thread { threadId := i }).init p)
    (hp : p.1 = .ended) :
    p.2 = sleepThreadFunction { threadId := i } (pairs (clockReadings es)) ∧
    ends (pairs (clockReadings es)) = clockReadings es := by
  obtain ⟨ps, hps⟩ := measured_of_run h
  have hreadings : clockReadings es = ends ps := by
    rw [hps.readings, hp]
    exact List.append_nil _
  rw [hreadings, pairs_ends]
  exact ⟨hps.data, rfl⟩

end Sleeper

section Report
variable {linux : Bool} {sleepArg loadArg : Option ℤ} {garbage : ℕ → SleepThreadData}
  {as : List (Action Call)} {s t : State Place SleepThreadData Line}

theorem numSleepThreads_pos (arg : Option ℤ) : 0 < numSleepThreads arg := by
  unfold numSleepThreads defaultNumSleepThreads
  split
  · decide
  · split <;> omega

theorem reported_le (linux : Bool) (sleepArg loadArg : Option ℤ) :
    (pool linux sleepArg loadArg).reported ≤ (pool linux sleepArg loadArg).threads :=
  Nat.le_add_right ..

/-- What the delays above the interval add up to over the passes of a thread. -/
def delays (ps : List (Timespec × Timespec)) : List ℚ :=
  ((elapsedTimes ps).map (excess sleepIntervalNs)).map Int.cast

/-- The clock of thread `i` is monotonic in the run, and its numbers are of type `long`. -/
structure Regular (i : ℕ) (as : List (Action Call)) : Prop where
  clock : ClockReadings (ends (passes i as))
  span : Fits (span (passes i as))
  count : (passes i as).length < 2 ^ 63

theorem threadId_eq (data : SleepThreadData) (ps : List (Timespec × Timespec)) :
    (sleepThreadFunction data ps).threadId = data.threadId := by
  induction ps generalizing data with
  | nil => rfl
  | cons p ps ih => exact ih (data.sample p.1 p.2)

theorem length_delays (ps : List (Timespec × Timespec)) : (delays ps).length = ps.length := by
  rw [delays, List.length_map, List.length_map, elapsedTimes, lengths, List.length_map, intervals,
    List.length_map]

/-- A printed mean is the exact one. -/
theorem line_of_passes {ps : List (Timespec × Timespec)} (i : ℕ)
    (hclock : ClockReadings (ends ps)) (hspan : Fits (SleepJitter.span ps))
    (hcount : ps.length < 2 ^ 63) :
    line (sleepThreadFunction { threadId := i } ps) =
      if ps = [] then none else some ⟨i, ps.length, mean (delays ps)⟩ := by
  have hsum := sum_elapsedTimes_prefix hclock (List.prefix_refl ps)
  have htotal : (sleepThreadFunction { threadId := i } ps).totalJitterNs =
      ((elapsedTimes ps).map (excess sleepIntervalNs)).sum := by
    apply totalJitterNs_eq rfl (elapsedTimes_nonneg hclock)
    rw [Fits] at hspan ⊢
    omega
  have hiterations : (sleepThreadFunction { threadId := i } ps).iterations = ps.length := by
    rw [iterations_eq rfl, long_of_fits ⟨by omega, by omega⟩]
  have hmean : mean (delays ps) =
      ((((elapsedTimes ps).map (excess sleepIntervalNs)).sum : ℤ) : ℚ) / ps.length := by
    rw [mean, length_delays, delays, ← Int.cast_list_sum]
  rw [line, hiterations, htotal, threadId_eq, hmean, Int.cast_natCast]
  cases ps with
  | nil => rfl
  | cons p ps =>
      rw [if_pos (by rw [List.length_cons]; omega), if_neg (List.cons_ne_nil p ps)]

/-- When `main` has returned, sleep and load threads have all ended, and each sleep thread
with at least one pass stands in the report with the mean of its own delays. -/
theorem report_exact
    (h : (main linux sleepArg loadArg garbage).Run as (main linux sleepArg loadArg garbage).init s)
    (hs : s.pc = .returned) (hregular : ∀ i < numSleepThreads sleepArg, Regular i as) :
    s.printed = ((List.range (numSleepThreads sleepArg)).flatMap fun i =>
      if passes i as = [] then []
      else [⟨i, (passes i as).length, mean (delays (passes i as))⟩]) ∧
    (∀ i < numSleepThreads sleepArg,
      clockReadings (Pool.events i as) = ends (passes i as)) ∧
    (∀ i < numSleepThreads sleepArg + numLoadThreads loadArg, s.threads i = .ended) ∧
    s.live = ∅ := by
  obtain ⟨hprinted, hlive, hthreads⟩ := Pool.report_of_run (reported_le _ _ _) h hs
  have hsleeper : ∀ i < numSleepThreads sleepArg,
      s.slots i = sleepThreadFunction { threadId := i } (passes i as) ∧
      ends (passes i as) = clockReadings (Pool.events i as) := by
    intro i hi
    obtain ⟨hended, halone⟩ := hthreads i (Nat.lt_add_right _ hi)
    have hloop : (pool linux sleepArg loadArg).loop i = sleepThread := if_pos hi
    rw [Pool.Alone, hloop] at halone
    exact measured_of_ended halone hended
  refine ⟨?_, fun i hi => (hsleeper i hi).2.symm, fun i hi => (hthreads i hi).1, hlive⟩
  rw [hprinted, Pool.lines]
  apply List.flatMap_congr
  intro i hi
  have hi' := List.mem_range.mp hi
  have hline : line (s.slots i) = _ := (hsleeper i hi').1 ▸
    line_of_passes i (hregular i hi').clock (hregular i hi').span (hregular i hi').count
  change (line (s.slots i)).toList = _
  rw [hline]
  split <;> rfl

/-- One sleep thread, which sleeps three milliseconds too long, and one load thread. -/
def schedule : List (Action Call) :=
  List.replicate 8 (.main .success) ++
  [.thread 0 (.test false), .thread 0 (.step (.clockGettime ⟨0, 990000000⟩)),
    .thread 0 (.step .nanosleep), .thread 0 (.step (.clockGettime ⟨1, 3000000⟩))] ++
  List.replicate 2 (.main .success) ++ [.thread 0 (.test true), .thread 1 (.test true)] ++
  List.replicate 9 (.main .success)

theorem report_exact_once : ∃ s, (main false (some 1) (some 1) fun _ => ⟨7, 9, 9⟩).Run schedule
    (main false (some 1) (some 1) fun _ => ⟨7, 9, 9⟩).init s ∧ s.printed = [⟨0, 1, 3000000⟩] := by
  have hrun : ∃ s, (main false (some 1) (some 1) fun _ => ⟨7, 9, 9⟩).Run schedule
      (main false (some 1) (some 1) fun _ => ⟨7, 9, 9⟩).init s ∧ s.pc = .returned := ⟨_, rfl, rfl⟩
  obtain ⟨s, hrun, hpc⟩ := hrun
  have hpasses : passes 0 schedule = [(⟨0, 990000000⟩, ⟨1, 3000000⟩)] := rfl
  have hregular : ∀ i < numSleepThreads (some 1), Regular i schedule := by
    intro i hi
    obtain rfl : i = 0 := Nat.lt_one_iff.mp hi
    refine ⟨?_, ?_, ?_⟩
    · rw [hpasses]
      exact ⟨by decide, by decide⟩
    · rw [hpasses]
      decide
    · rw [hpasses]
      decide
  refine ⟨s, hrun, ?_⟩
  have hmean : mean (delays (passes 0 schedule)) = 3000000 := by
    rw [hpasses]
    decide +kernel
  have hrange : List.range (numSleepThreads (some 1)) = [0] := rfl
  rw [(report_exact hrun hpc hregular).1, hrange, List.flatMap_singleton, hmean, hpasses]
  rfl

theorem inBounds (linux : Bool) (sleepArg loadArg : Option ℤ) :
    (pool linux sleepArg loadArg).InBounds where
  reported := reported_le linux sleepArg loadArg
  handle i hi := by
    have hlt : i < numSleepThreads sleepArg + numLoadThreads loadArg := hi
    simp only [pool]
    split
    case isTrue hsleep => exact ⟨Nat.zero_lt_succ 2, hsleep⟩
    case isFalse hsleep =>
      refine ⟨Nat.lt_succ_self 2, ?_⟩
      rw [if_pos rfl]
      omega
  slot _ hi := ⟨Nat.one_lt_succ_succ 1, hi⟩

/-- The elements of the three arrays which `main` or a thread uses are allocated at that
time, and so is what is freed. -/
theorem arrays_allocated
    (h : (main linux sleepArg loadArg garbage).Run as (main linux sleepArg loadArg garbage).init s)
    {a : Action Call} (ht : (main linux sleepArg loadArg garbage).tick a s = some t) :
    (∀ x ∈ (pool linux sleepArg loadArg).uses a s,
      x.1 ∈ s.live ∧ x.2 < (pool linux sleepArg loadArg).size x.1) ∧
    ∀ k ∈ (pool linux sleepArg loadArg).frees a s, k ∈ s.live :=
  Pool.uses_live (inBounds linux sleepArg loadArg) h ht

/-- The thread reads the clock a second time while the arrays are allocated. -/
theorem arrays_allocated_asleep : ∃ s, (main false (some 1) (some 1) fun _ => ⟨7, 9, 9⟩).Run
    (schedule.take 11) (main false (some 1) (some 1) fun _ => ⟨7, 9, 9⟩).init s ∧ 1 ∈ s.live := by
  have hrun : ∃ s t, (main false (some 1) (some 1) fun _ => ⟨7, 9, 9⟩).Run (schedule.take 11)
      (main false (some 1) (some 1) fun _ => ⟨7, 9, 9⟩).init s ∧
      (main false (some 1) (some 1) fun _ => ⟨7, 9, 9⟩).tick
        (.thread 0 (.step (.clockGettime ⟨1, 3000000⟩))) s = some t := ⟨_, _, rfl, rfl⟩
  obtain ⟨s, t, hrun, htick⟩ := hrun
  exact ⟨s, hrun, ((arrays_allocated hrun htick).1 (1, 0) List.mem_cons_self).1⟩

/-- The steps that a pass has left. -/
def stepsLeft : Place → ℕ
  | .start => 2
  | .asleep _ => 1
  | .finish _ | .busy => 0

theorem loop_step (i : ℕ) : ((pool linux sleepArg loadArg).loop i).step = step := by
  simp only [pool]
  split <;> rfl

theorem terminating (i : ℕ) : ((pool linux sleepArg loadArg).loop i).Terminating stepsLeft := by
  constructor
  · intro place data
    rw [loop_step]
    cases place with
    | start => exact ⟨.clockGettime ⟨0, 0⟩, rfl⟩
    | asleep start => exact ⟨.nanosleep, rfl⟩
    | finish start => exact ⟨.clockGettime ⟨0, 0⟩, rfl⟩
    | busy => exact ⟨.count, rfl⟩
  · intro e place data place' data' h
    rw [loop_step] at h
    cases e <;> cases place <;> cases h
    · exact Nat.lt_succ_self 1
    · exact Nat.zero_lt_one

/-- The clock readings that a pass has left. -/
def readingsLeft : Thread Place → ℕ
  | .pass .start => 2
  | .pass (.asleep _) | .pass (.finish _) => 1
  | _ => 0

def isReading : Event Call → Bool
  | .step (.clockGettime _) => true
  | _ => false

theorem length_clockReadings (es : List (Event Call)) :
    (clockReadings es).length = es.countP isReading := by
  induction es with
  | nil => rfl
  | cons e es ih =>
      have hcons : clockReadings (e :: es) = clockReadings [e] ++ clockReadings es :=
        clockReadings_append [e] es
      rw [hcons, List.length_append, ih, List.countP_cons, Nat.add_comm]
      congr 1
      rcases e with seen | (t | _ | _) <;> rfl

theorem readingsLeft_tick {i : ℕ} {e : Event Call} {p q : Thread Place × SleepThreadData}
    (h : ((pool linux sleepArg loadArg).loop i).tick e p = some q)
    (hagrees : e.agrees true = true) :
    [e].countP isReading + readingsLeft q.1 ≤ readingsLeft p.1 := by
  obtain ⟨th, data⟩ := p
  cases th with
  | absent | ended => cases e <;> cases h
  | test =>
      cases e with
      | step e => cases h
      | test seen =>
          have hseen : seen = true := of_decide_eq_true hagrees
          obtain rfl := Option.some.inj h
          rw [hseen]
          exact Nat.le_refl 0
  | pass place =>
      cases e with
      | test seen => cases h
      | step e =>
          rw [Loop.tick, loop_step] at h
          cases e <;> cases place <;> cases h
          · exact Nat.le_refl 2
          · exact Nat.le_refl 1
          · exact Nat.le_refl 1
          · exact Nat.le_refl 0

/-- Once `stop` is set, the program returns after a bounded number of steps, whatever the
interleaving, and a sleep thread can only finish the pass that it has begun. -/
theorem ends_after_stop
    (h : (main linux sleepArg loadArg garbage).Run as (main linux sleepArg loadArg garbage).init s)
    (hstop : s.stop = true) {bs : List (Action Call)}
    (hrun : (main linux sleepArg loadArg garbage).Run bs s t) :
    bs.length ≤ 6 * numSleepThreads sleepArg + 5 * numLoadThreads loadArg + 6 ∧
    (t.pc = .returned ∨
      ∃ a, a ≠ .main .failure ∧ ((main linux sleepArg loadArg garbage).tick a t).isSome) ∧
    ∀ i, (clockReadings (Pool.events i bs)).length ≤ 2 := by
  have hP := reported_le linux sleepArg loadArg
  obtain ⟨hlength, hgoes⟩ := Pool.shutdown (fun _ => stepsLeft) hP terminating h hstop hrun
  refine ⟨?_, hgoes, fun i => ?_⟩
  · have hbound : ∀ (i : ℕ) place, stepsLeft place ≤ 2 := by
      intro _ place
      cases place <;> simp only [stepsLeft] <;> omega
    have hleft : _ ≤ (numSleepThreads sleepArg + numLoadThreads loadArg) * (2 + 2) +
        (numSleepThreads sleepArg + numLoadThreads loadArg) + numSleepThreads sleepArg + 3 + 3 :=
      Pool.left_le (P := pool linux sleepArg loadArg) (fun _ => stepsLeft) hbound s
    omega
  · have hcount := Pool.countP_events_le hP h hstop hrun i isReading readingsLeft
      fun e p q htick hagrees => readingsLeft_tick htick hagrees
    have htwo : readingsLeft (s.threads i) ≤ 2 := by
      unfold readingsLeft
      split <;> decide
    rw [length_clockReadings]
    exact (Nat.le_of_add_right_le hcount).trans htwo

/-- The flag is set while the thread sleeps. -/
theorem ends_after_stop_asleep : ∃ s t : State Place SleepThreadData Line,
    (main false (some 1) (some 1) fun _ => ⟨7, 9, 9⟩).Run ([.thread 0 (.step .nanosleep)]) s t ∧
    s.stop = true ∧ ([Action.thread 0 (.step Call.nanosleep)]).length ≤ 17 := by
  have hrun : ∃ s t, (main false (some 1) (some 1) fun _ => ⟨7, 9, 9⟩).Run
      (schedule.take 10 ++ List.replicate 2 (.main .success))
      (main false (some 1) (some 1) fun _ => ⟨7, 9, 9⟩).init s ∧ s.stop = true ∧
      (main false (some 1) (some 1) fun _ => ⟨7, 9, 9⟩).Run ([.thread 0 (.step .nanosleep)]) s t :=
    ⟨_, _, rfl, rfl, rfl⟩
  obtain ⟨s, t, hreached, hstop, hrun⟩ := hrun
  exact ⟨s, t, hrun, hstop, (ends_after_stop hreached hstop hrun).1⟩

end Report

end MicrokernelBenchmark.SleepWakeThread
