import MicrokernelBenchmark.DisjointIntervals
import MicrokernelBenchmark.SleepWakeProcess

/-!
# Accumulating the jitter of the sleeps

The loops of `sleep_thread_function` and of `sleep_proc_function` on the clock
readings which they take. What an iteration adds is what its sleep took above
ten milliseconds, so the total stays below the time from the first reading to
the last one, and as long as this time is a `long` no addition wraps.
-/
namespace MicrokernelBenchmark.SleepJitter
open TransitionSystem FixedWidth SleepWakeProcess DisjointIntervals

structure SleepThreadData where
  threadId : ℤ
  totalJitterNs : ℤ := 0
  iterations : ℤ := 0
deriving DecidableEq, Repr

def SleepThreadData.sample (d : SleepThreadData) (start finish : Timespec) : SleepThreadData :=
  let elapsedNs := timespecDiffNs finish start
  let jitter := long (elapsedNs - sleepIntervalNs)
  let jitter := if jitter < 0 then 0 else jitter
  { d with
    totalJitterNs := long (d.totalJitterNs + jitter)
    iterations := long (d.iterations + 1) }

/-- One pass for each time that `stop` is read as zero. -/
def sleepThreadFunction (d : SleepThreadData) (passes : List (Timespec × Timespec)) :
    SleepThreadData :=
  passes.foldl (fun d p => d.sample p.1 p.2) d

/-- The readings of one pass of a sleep process. -/
structure Readings where
  before : Timespec
  after : Timespec
  now : Timespec

def Readings.sleep (r : Readings) : Timespec × Timespec := (r.before, r.after)

section Process
variable (expired : Timespec → Timespec → Bool) (testStart : Timespec)

def sleepLoop (d : SleepProcData) : List Readings → SleepProcData
  | [] => d
  | r :: rs =>
      let d := d.sample r.before r.after
      if expired testStart r.now then d else sleepLoop d rs

/-- The data after the passes over the given readings, the test being over with the first
of them that has expired. -/
def sleepProcFunction (procId : ℤ) (rs : List Readings) : SleepProcData :=
  sleepLoop expired testStart ⟨procId, 0, 0⟩ rs

/-- The passes that the loop makes. -/
def made : List Readings → List Readings
  | [] => []
  | r :: rs => if expired testStart r.now then [r] else r :: made rs

end Process

/-- What the monotonic clock returns, one reading after the other. -/
structure ClockReadings (ts : List Timespec) : Prop where
  normalised : ∀ t ∈ ts, t.Normalised
  nondecreasing : ts.Pairwise fun s t => ¬ t.Before s

def intervals (passes : List (Timespec × Timespec)) : List (ℤ × ℤ) :=
  passes.map (Prod.map Timespec.instant Timespec.instant)

/-- How long each of the sleeps took. -/
def elapsedTimes (passes : List (Timespec × Timespec)) : List ℤ := lengths (intervals passes)

/-- The time between the first and the last reading. -/
def span (passes : List (Timespec × Timespec)) : ℤ := extent (ends (intervals passes))

section Intervals
variable {passes front : List (Timespec × Timespec)} {p : Timespec × Timespec}

theorem ends_intervals (passes : List (Timespec × Timespec)) :
    ends (intervals passes) = (ends passes).map Timespec.instant := by
  induction passes with
  | nil => rfl
  | cons p passes ih =>
      have hcons : intervals (p :: passes) = (p.1.instant, p.2.instant) :: intervals passes := rfl
      rw [hcons, ends_cons, ends_cons, ih]
      rfl

theorem ClockReadings.pairwise {ts : List Timespec} (h : ClockReadings ts) :
    (ts.map Timespec.instant).Pairwise (· ≤ ·) := by
  rw [List.pairwise_map]
  apply h.nondecreasing.imp_of_mem
  intro s t hs ht hle
  rw [(h.normalised t ht).before_iff (h.normalised s hs)] at hle
  exact not_lt.mp hle

theorem elapsedTimes_append (front rear : List (Timespec × Timespec)) :
    elapsedTimes (front ++ rear) = elapsedTimes front ++ elapsedTimes rear := by
  rw [elapsedTimes, intervals, List.map_append, lengths, List.map_append]
  rfl

theorem elapsedTimes_nonneg (h : ClockReadings (ends passes)) :
    ∀ x ∈ elapsedTimes passes, 0 ≤ x := by
  apply lengths_nonneg
  rw [ends_intervals]
  exact h.pairwise

theorem sum_elapsedTimes_le (h : ClockReadings (ends passes)) :
    (elapsedTimes passes).sum ≤ span passes := by
  apply sum_lengths_le
  rw [ends_intervals]
  exact h.pairwise

theorem sum_elapsedTimes_prefix (h : ClockReadings (ends passes)) (hfront : front <+: passes) :
    0 ≤ (elapsedTimes front).sum ∧ (elapsedTimes front).sum ≤ span passes := by
  obtain ⟨rear, rfl⟩ := hfront
  have hnonneg := elapsedTimes_nonneg h
  have hsum := sum_elapsedTimes_le h
  rw [elapsedTimes_append] at hnonneg hsum
  rw [List.sum_append] at hsum
  have hfront : 0 ≤ (elapsedTimes front).sum :=
    List.sum_nonneg fun x hx => hnonneg x (List.mem_append_left _ hx)
  have hrear : 0 ≤ (elapsedTimes rear).sum :=
    List.sum_nonneg fun x hx => hnonneg x (List.mem_append_right _ hx)
  exact ⟨hfront, by omega⟩

end Intervals

section Total
variable {d : SleepThreadData} {passes front : List (Timespec × Timespec)}
  {p : Timespec × Timespec}

theorem sleepThreadFunction_concat (d : SleepThreadData) (passes : List (Timespec × Timespec))
    (p : Timespec × Timespec) :
    sleepThreadFunction d (passes ++ [p]) = (sleepThreadFunction d passes).sample p.1 p.2 :=
  List.foldl_concat ..

theorem sample_totalJitterNs {start finish : Timespec} (hlo : 0 ≤ finish.instant - start.instant)
    (hfits : Fits (finish.instant - start.instant)) :
    (d.sample start finish).totalJitterNs =
      long (d.totalJitterNs + excess sleepIntervalNs (finish.instant - start.instant)) := by
  have hjitter : Fits (finish.instant - start.instant - sleepIntervalNs) := by
    unfold Fits sleepIntervalNs at *
    omega
  rw [SleepThreadData.sample]
  dsimp only
  rw [timespecDiffNs_eq, long_of_fits hfits, long_of_fits hjitter, excess]
  split
  case isTrue h => rw [max_eq_right h.le]
  case isFalse h => rw [max_eq_left (not_lt.mp h)]

/-- The partial sums stay below the sum, so none of them wraps. -/
theorem totalJitterNs_eq (hd : d.totalJitterNs = 0) (hnonneg : ∀ x ∈ elapsedTimes passes, 0 ≤ x)
    (hfits : Fits (elapsedTimes passes).sum) :
    (sleepThreadFunction d passes).totalJitterNs =
      ((elapsedTimes passes).map (excess sleepIntervalNs)).sum := by
  induction passes using List.reverseRecOn with
  | nil => exact hd
  | append_singleton passes p ih =>
      have hlast : elapsedTimes [p] = [p.2.instant - p.1.instant] := rfl
      rw [elapsedTimes_append, hlast] at hnonneg hfits ⊢
      have hp : 0 ≤ p.2.instant - p.1.instant := hnonneg _ (by simp)
      have hpasses : ∀ x ∈ elapsedTimes passes, 0 ≤ x :=
        fun x hx => hnonneg x (List.mem_append_left _ hx)
      have hsum : 0 ≤ (elapsedTimes passes).sum := List.sum_nonneg hpasses
      rw [List.sum_append, List.sum_singleton] at hfits
      rw [Fits] at hfits
      have hexcess := sum_excess_nonneg sleepIntervalNs (elapsedTimes passes)
      have hexcess' := sum_excess_le (c := sleepIntervalNs) (by decide) hpasses
      have hlo := excess_nonneg sleepIntervalNs (p.2.instant - p.1.instant)
      have hhi := excess_le (c := sleepIntervalNs) (by decide) hp
      rw [sleepThreadFunction_concat, sample_totalJitterNs hp ⟨by omega, by omega⟩,
        ih hpasses ⟨by omega, by omega⟩, List.map_append, List.sum_append, List.map_singleton,
        List.sum_singleton]
      exact long_of_fits ⟨by omega, by omega⟩

theorem iterations_eq (hd : d.iterations = 0) (passes : List (Timespec × Timespec)) :
    (sleepThreadFunction d passes).iterations = long passes.length := by
  induction passes using List.reverseRecOn with
  | nil => exact hd
  | append_singleton passes p ih =>
      rw [sleepThreadFunction_concat, SleepThreadData.sample, ih, long_long_add,
        List.length_append, List.length_singleton, Nat.cast_add, Nat.cast_one]

end Total

section Process
variable {expired : Timespec → Timespec → Bool} {testStart : Timespec}

/-- The two structures hold the same measurement. -/
def SameMeasurement (d : SleepProcData) (e : SleepThreadData) : Prop :=
  d.totalJitterNs = e.totalJitterNs ∧ d.iterations = e.iterations

theorem SameMeasurement.sample {d : SleepProcData} {e : SleepThreadData}
    (h : SameMeasurement d e) (before after : Timespec) :
    SameMeasurement (d.sample before after) (e.sample before after) := by
  unfold SameMeasurement SleepProcData.sample SleepThreadData.sample
  rw [h.1, h.2]
  exact ⟨rfl, rfl⟩

theorem sleepLoop_same {d : SleepProcData} {e : SleepThreadData} (h : SameMeasurement d e)
    (rs : List Readings) :
    SameMeasurement (sleepLoop expired testStart d rs)
      (sleepThreadFunction e ((made expired testStart rs).map Readings.sleep)) := by
  induction rs generalizing d e with
  | nil => exact h
  | cons r rs ih =>
      have hsample := h.sample r.before r.after
      rw [sleepLoop, made]
      split
      case isTrue => exact hsample
      case isFalse => exact ih hsample

end Process

section System
variable {capacity : ℕ} {expired : Timespec → Timespec → Bool} {testStart : Timespec} {n m i : ℕ}
  {s : State capacity} {c : SleepProc}

def clockCalls (i : ℕ) (r : Readings) : List Action :=
  [.clock (.sleep i) (some r.before), .clock (.sleep i) (some r.after),
    .clock (.sleep i) (some r.now)]

theorem sleeps_setSleep (s : State capacity) (i : ℕ) (c : SleepProc) :
    (s.setSleep i c).sleeps i = some c := Function.update_self ..

theorem setSleep_setSleep (s : State capacity) (i : ℕ) (c c' : SleepProc) :
    (s.setSleep i c).setSleep i c' = s.setSleep i c' := by
  rw [State.setSleep, State.setSleep, State.setSleep, Function.update_idem]

theorem setSleep_self (hs : s.sleeps i = some c) : s.setSleep i c = s := by
  rw [State.setSleep, ← hs, Function.update_eq_self]

theorem tick_clock (hs : s.sleeps i = some c) (t : Timespec) :
    (main capacity expired n m).tick (.clock (.sleep i) (some t)) s =
      sleepClock expired s i c (some t) := by
  change (s.sleeps i).bind _ = _
  rw [hs]
  rfl

theorem run_clockCalls (hs : s.sleeps i = some c) (hc : c.pc = .before testStart) (r : Readings) :
    (main capacity expired n m).Run (clockCalls i r) s
      (s.setSleep i { c with
        pc := if expired testStart r.now then .write else .before testStart
        data := c.data.sample r.before r.after }) := by
  rw [clockCalls, System.run_cons]
  refine ⟨s.setSleep i { c with pc := .after testStart r.before }, ?_, ?_⟩
  · rw [tick_clock hs, sleepClock, hc]
  rw [System.run_cons]
  refine ⟨s.setSleep i
    { c with pc := .now testStart, data := c.data.sample r.before r.after }, ?_, ?_⟩
  · rw [tick_clock (sleeps_setSleep _ _ _), sleepClock]
    dsimp only
    rw [setSleep_setSleep]
  · rw [System.run_single, tick_clock (sleeps_setSleep _ _ _), sleepClock]
    dsimp only
    rw [setSleep_setSleep]

/-- The loop is what the clock calls of a sleep process compute in the whole program. -/
theorem run_passes (hs : s.sleeps i = some c) (hc : c.pc = .before testStart)
    (rs : List Readings) :
    ∃ pc, (main capacity expired n m).Run ((made expired testStart rs).flatMap (clockCalls i)) s
      (s.setSleep i { c with pc := pc, data := sleepLoop expired testStart c.data rs }) := by
  induction rs generalizing s c with
  | nil =>
      refine ⟨c.pc, ?_⟩
      rw [made, List.flatMap_nil, System.run_nil]
      exact (setSleep_self hs).symm
  | cons r rs ih =>
      have hpass : (main capacity expired n m).Run (clockCalls i r) s _ := run_clockCalls hs hc r
      rw [made, sleepLoop]
      split
      case isTrue hexpired =>
        rw [if_pos hexpired] at hpass
        refine ⟨.write, ?_⟩
        rw [List.flatMap_singleton]
        exact hpass
      case isFalse hexpired =>
        rw [if_neg hexpired] at hpass
        obtain ⟨pc, hrest⟩ := ih (sleeps_setSleep s i
          { c with pc := .before testStart, data := c.data.sample r.before r.after }) rfl
        refine ⟨pc, ?_⟩
        rw [setSleep_setSleep] at hrest
        rw [List.flatMap_cons]
        exact hpass.append hrest

end System

/-- What the two functions have measured after any of their iterations. -/
theorem jitter_accumulation {passes : List (Timespec × Timespec)}
    (hclock : ClockReadings (ends passes)) (hspan : Fits (span passes))
    {expired : Timespec → Timespec → Bool} {testStart : Timespec} {rs : List Readings}
    (hrs : (made expired testStart rs).map Readings.sleep = passes) (threadId procId : ℤ) :
    (∀ front, front <+: passes →
      let total := (sleepThreadFunction { threadId := threadId } front).totalJitterNs
      0 ≤ total ∧ total ≤ span passes ∧
      total + ((elapsedTimes front).map fun x => min x sleepIntervalNs).sum =
        (elapsedTimes front).sum) ∧
    (∀ front start finish, front ++ [(start, finish)] <+: passes →
      Fits ((sleepThreadFunction { threadId := threadId } front).totalJitterNs +
        excess sleepIntervalNs (finish.instant - start.instant))) ∧
    SameMeasurement (sleepProcFunction expired testStart procId rs)
      (sleepThreadFunction { threadId := threadId } passes) ∧
    (sleepThreadFunction { threadId := threadId } passes).iterations = long passes.length := by
  have hsum : ∀ front, front <+: passes → (∀ x ∈ elapsedTimes front, 0 ≤ x) ∧
      (elapsedTimes front).sum ≤ span passes ∧
      (sleepThreadFunction { threadId := threadId } front).totalJitterNs =
        ((elapsedTimes front).map (excess sleepIntervalNs)).sum := by
    intro front hfront
    obtain ⟨hlo, hhi⟩ := sum_elapsedTimes_prefix hclock hfront
    have hnonneg : ∀ x ∈ elapsedTimes front, 0 ≤ x := by
      obtain ⟨rear, rfl⟩ := hfront
      intro x hx
      apply elapsedTimes_nonneg hclock
      rw [elapsedTimes_append]
      exact List.mem_append_left _ hx
    have hfits : Fits (elapsedTimes front).sum := by
      rw [Fits] at hspan ⊢
      omega
    exact ⟨hnonneg, hhi, totalJitterNs_eq rfl hnonneg hfits⟩
  refine ⟨?_, ?_, ?_, iterations_eq rfl passes⟩
  · intro front hfront
    obtain ⟨hnonneg, hhi, htotal⟩ := hsum front hfront
    dsimp only
    rw [htotal]
    have hexcess := sum_excess_le (c := sleepIntervalNs) (by decide) hnonneg
    exact ⟨sum_excess_nonneg _ _, hexcess.trans hhi, sum_excess_add_sum_min _ _⟩
  · intro front start finish hprefix
    obtain ⟨hnonneg, hhi, -⟩ := hsum _ hprefix
    obtain ⟨-, -, htotal⟩ := hsum front ((List.prefix_append _ _).trans hprefix)
    have hlast : elapsedTimes (front ++ [(start, finish)]) =
        elapsedTimes front ++ [finish.instant - start.instant] := elapsedTimes_append _ _
    have hexcess := sum_excess_le (c := sleepIntervalNs) (by decide) hnonneg
    have hlo := sum_excess_nonneg sleepIntervalNs (elapsedTimes (front ++ [(start, finish)]))
    rw [hlast, List.map_append, List.sum_append, List.map_singleton, List.sum_singleton] at hlo
    rw [htotal]
    rw [hlast] at hexcess hhi
    rw [List.map_append, List.sum_append, List.map_singleton, List.sum_singleton] at hexcess
    rw [Fits] at hspan ⊢
    omega
  · rw [← hrs]
    exact sleepLoop_same ⟨rfl, rfl⟩ rs

/-- An early sleep and one that takes three milliseconds more across the end of a second. -/
theorem jitter_accumulation_late :
    let passes : List (Timespec × Timespec) :=
      [(⟨0, 985000000⟩, ⟨0, 986000000⟩), (⟨0, 990000000⟩, ⟨1, 3000000⟩)]
    let rs : List Readings := passes.map fun p => ⟨p.1, p.2, p.2⟩
    SameMeasurement (sleepProcFunction (fun _ now => now.tvSec = 1) ⟨0, 0⟩ 0 rs)
      (sleepThreadFunction { threadId := 0 } passes) :=
  (@jitter_accumulation [(⟨0, 985000000⟩, ⟨0, 986000000⟩), (⟨0, 990000000⟩, ⟨1, 3000000⟩)]
    ⟨by decide, by decide⟩ (by decide) (fun _ now => now.tvSec = 1) ⟨0, 0⟩
    [⟨⟨0, 985000000⟩, ⟨0, 986000000⟩, ⟨0, 986000000⟩⟩,
      ⟨⟨0, 990000000⟩, ⟨1, 3000000⟩, ⟨1, 3000000⟩⟩] rfl 0 0).2.2.1

end MicrokernelBenchmark.SleepJitter
