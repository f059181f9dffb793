import MicrokernelBenchmark.CString
import MicrokernelBenchmark.DecimalText
import MicrokernelBenchmark.WorkerPoolEnds

/-!
# The thread fairness benchmark

`main` of `thread_fairness` with its threads. Each thread counts in its element
of `thread_data` until it sees `stop`; `main` joins all of them before it prints
the counters. The counters are shared memory: that a printed counter has lost no
increment is a theorem and not a part of the model.
-/
namespace MicrokernelBenchmark.ThreadFairness
open TransitionSystem WorkerPool CString DecimalText

def defaultNumThreads : ℕ := 4

structure ThreadData where
  threadId : ℕ
  iterations : UInt64
deriving DecidableEq, Repr

/-- The two accesses of `data->iterations++`. -/
inductive Access where
  | load
  | store
deriving DecidableEq, Repr

/-- Between the accesses the thread keeps the value that it has read. -/
def threadFunction : Loop Access (Option UInt64) ThreadData where
  enter := none
  step
    | .load, none, data => some (some (some data.iterations), data)
    | .store, some count, data => some (none, { data with iterations := count + 1 })
    | _, _, _ => none

/-- The number of threads after the argument, if any, went through `atoi`. -/
def numThreads : Option ℤ → ℕ
  | none => defaultNumThreads
  | some x => if x ≤ 0 then defaultNumThreads else x.toNat

def ThreadData.line (data : ThreadData) : List UInt8 :=
  bytes "Thread " ++ printNat data.threadId ++ bytes ": " ++ printNat data.iterations.toNat ++
    bytes " iterations\n"

/-- Array 0 is `threads` and array 1 is `thread_data`. On Linux `sched_setaffinity` and
`setrlimit` come first. -/
def pool (linux : Bool) (arg : Option ℤ) :
    Pool Access (Option UInt64) ThreadData (List UInt8) where
  setup := if linux then 2 else 0
  arrays := 2
  size _ := numThreads arg
  threads := numThreads arg
  handle i := (0, i)
  reported := numThreads arg
  slotArray := 1
  loop _ := threadFunction
  fresh i := ⟨i, 0⟩
  line data := some data.line

def main (linux : Bool) (arg : Option ℤ) (garbage : ℕ → ThreadData) :
    System (Action Access) (State (Option UInt64) ThreadData (List UInt8)) :=
  (pool linux arg).main garbage

/-- How often a thread has written its counter. -/
def increments (i : ℕ) (as : List (Action Access)) : ℕ :=
  (Pool.events i as).count (.step .store)

theorem numThreads_pos (arg : Option ℤ) : 0 < numThreads arg := by
  unfold numThreads defaultNumThreads
  split
  · decide
  · split <;> omega

section Counter
variable {es : List (Event Access)} {p : Thread (Option UInt64) × ThreadData} {d : ThreadData}

/-- The counter is the number of stores, and a value that was loaded is still the counter. -/
structure Counted (i : ℕ) (es : List (Event Access))
    (p : Thread (Option UInt64) × ThreadData) : Prop where
  data : p.2 = ⟨i, UInt64.ofNat (es.count (.step .store))⟩
  loaded : ∀ c, p.1 = .pass (some c) → c = p.2.iterations

theorem count_snoc_of_ne {e : Event Access} (es : List (Event Access)) (he : e ≠ .step .store) :
    (es ++ [e]).count (.step .store) = es.count (.step .store) := by
  rw [List.count_append, List.count_singleton, beq_eq_false_iff_ne.mpr he]
  rfl

theorem Counted.tick {i : ℕ} {e : Event Access} {q : Thread (Option UInt64) × ThreadData}
    (h : Counted i es p) (ht : threadFunction.tick e p = some q) : Counted i (es ++ [e]) q := by
  obtain ⟨th, data⟩ := p
  have hdata : data = _ := h.data
  cases th with
  | absent | ended => cases e <;> cases ht
  | test =>
      cases e with
      | step e => cases ht
      | test seen =>
          obtain rfl := Option.some.inj ht
          refine ⟨?_, fun c hc => ?_⟩
          · rw [count_snoc_of_ne (e := .test seen) es nofun]
            exact hdata
          · cases seen <;> cases hc
  | pass place =>
      cases e with
      | test seen => cases ht
      | step e =>
          cases e with
          | load =>
              cases place with
              | some c => cases ht
              | none =>
                  obtain rfl := Option.some.inj ht
                  refine ⟨?_, fun c hc => (Option.some.inj (Thread.pass.inj hc)).symm⟩
                  rw [count_snoc_of_ne (e := .step .load) es nofun]
                  exact hdata
          | store =>
              cases place with
              | none => cases ht
              | some c =>
                  have hc : c = data.iterations := h.loaded c rfl
                  obtain rfl := Option.some.inj ht
                  refine ⟨?_, nofun⟩
                  dsimp only
                  rw [hc, hdata, List.count_append, List.count_singleton_self, UInt64.ofNat_add]
                  rfl

theorem counted_of_run {i : ℕ}
    (h : (threadFunction.thread ⟨i, 0⟩).Run es (threadFunction.thread ⟨i, 0⟩).init p) :
    Counted i es p := by
  refine h.history (P := Counted i) ⟨rfl, nofun⟩ ?_
  intro es e p q hp ht
  exact hp.tick ht

end Counter

section Runs
variable {linux : Bool} {arg : Option ℤ} {garbage : ℕ → ThreadData} {as bs : List (Action Access)}
  {s t : State (Option UInt64) ThreadData (List UInt8)}

theorem reported_le (linux : Bool) (arg : Option ℤ) :
    (pool linux arg).reported ≤ (pool linux arg).threads := le_rfl

theorem inBounds (linux : Bool) (arg : Option ℤ) : (pool linux arg).InBounds where
  reported := le_rfl
  handle _ hi := ⟨Nat.zero_lt_two, hi⟩
  slot _ hi := ⟨Nat.one_lt_two, hi⟩

/-- When `main` has returned, all threads have ended and each of them stands in the report
with the number of its increments. -/
theorem report_complete (h : (main linux arg garbage).Run as (main linux arg garbage).init s)
    (hs : s.pc = .returned) :
    s.printed = (List.range (numThreads arg)).map (fun i =>
      ThreadData.line ⟨i, UInt64.ofNat (increments i as)⟩) ∧
    (∀ i < numThreads arg, s.threads i = .ended) ∧ s.live = ∅ := by
  obtain ⟨hprinted, hlive, hthreads⟩ := Pool.report_of_run (reported_le linux arg) h hs
  refine ⟨?_, fun i hi => (hthreads i hi).1, hlive⟩
  rw [hprinted, Pool.lines, ← List.flatMap_pure_eq_map]
  apply List.flatMap_congr
  intro i hi
  have halone := (hthreads i (List.mem_range.mp hi)).2
  have hcounted := counted_of_run halone
  have hslot : s.slots i = ⟨i, UInt64.ofNat (increments i as)⟩ := hcounted.data
  rw [hslot]
  rfl

/-- One thread, which counts once and sees `stop` afterwards. -/
def schedule : List (Action Access) :=
  List.replicate 6 (.main .success) ++
  [.thread 0 (.test false), .thread 0 (.step .load), .thread 0 (.step .store)] ++
  List.replicate 2 (.main .success) ++ [.thread 0 (.test true)] ++
  List.replicate 7 (.main .success)

theorem report_complete_once : ∃ s, (main false (some 1) fun _ => ⟨7, 9⟩).Run schedule
    (main false (some 1) fun _ => ⟨7, 9⟩).init s ∧ s.printed = [ThreadData.line ⟨0, 1⟩] := by
  have hrun : ∃ s, (main false (some 1) fun _ => ⟨7, 9⟩).Run schedule
      (main false (some 1) fun _ => ⟨7, 9⟩).init s ∧ s.pc = .returned := ⟨_, rfl, rfl⟩
  obtain ⟨s, hrun, hpc⟩ := hrun
  exact ⟨s, hrun, (report_complete hrun hpc).1⟩

/-- The elements of `threads` and `thread_data` which `main` or a thread uses are allocated
at that time, and so is what is freed. -/
theorem arrays_used (h : (main linux arg garbage).Run as (main linux arg garbage).init s)
    {a : Action Access} (ht : (main linux arg garbage).tick a s = some t) :
    (∀ x ∈ (pool linux arg).uses a s, x.1 ∈ s.live ∧ x.2 < numThreads arg) ∧
    ∀ k ∈ (pool linux arg).frees a s, k ∈ s.live :=
  Pool.uses_live (inBounds linux arg) h ht

/-- The thread loads its counter while the arrays are allocated. -/
theorem arrays_used_load : ∃ s, (main false (some 1) fun _ => ⟨7, 9⟩).Run (schedule.take 7)
    (main false (some 1) fun _ => ⟨7, 9⟩).init s ∧ 1 ∈ s.live := by
  have hrun : ∃ s t, (main false (some 1) fun _ => ⟨7, 9⟩).Run (schedule.take 7)
      (main false (some 1) fun _ => ⟨7, 9⟩).init s ∧
      (main false (some 1) fun _ => ⟨7, 9⟩).tick (.thread 0 (.step .load)) s = some t :=
    ⟨_, _, rfl, rfl⟩
  obtain ⟨s, t, hrun, htick⟩ := hrun
  exact ⟨s, hrun, ((arrays_used hrun htick).1 (1, 0) List.mem_cons_self).1⟩

/-- The accesses that a pass has left. -/
def accessesLeft : Option UInt64 → ℕ
  | none => 1
  | some _ => 0

theorem terminating : threadFunction.Terminating accessesLeft where
  live place data := by
    cases place with
    | none => exact ⟨.load, rfl⟩
    | some c => exact ⟨.store, rfl⟩
  lt e place data place' data' h := by
    cases e <;> cases place <;> cases h
    exact Nat.zero_lt_one

/-- A pass under way, which ends with one increment. -/
def underWay : Thread (Option UInt64) → ℕ
  | .pass _ => 1
  | _ => 0

theorem underWay_tick {e : Event Access} {p q : Thread (Option UInt64) × ThreadData}
    (h : threadFunction.tick e p = some q) (hagrees : e.agrees true) :
    [e].count (.step .store) + underWay q.1 ≤ underWay p.1 := by
  obtain ⟨th, data⟩ := p
  cases th with
  | absent | ended => cases e <;> cases h
  | test =>
      cases e with
      | step e => cases h
      | test seen =>
          have hseen : seen = true := of_decide_eq_true hagrees
          obtain rfl := Option.some.inj h
          rw [hseen]
          exact Nat.le_refl 0
  | pass place =>
      cases e with
      | test seen => cases h
      | step e =>
          cases e <;> cases place <;> cases h
          · exact Nat.le_refl 1
          · exact Nat.le_refl 1

/-- Once `stop` is set, the program returns after a bounded number of steps, whatever the
interleaving, and a thread can only finish the increment that it has begun. -/
theorem returns_after_stop
    (h : (main linux arg garbage).Run as (main linux arg garbage).init s) (hstop : s.stop = true)
    (hrun : (main linux arg garbage).Run bs s t) :
    bs.length ≤ 5 * numThreads arg + 5 ∧
    (t.pc = .returned ∨
      ∃ a, a ≠ .main .failure ∧ ((main linux arg garbage).tick a t).isSome) ∧
    ∀ i, increments i bs ≤ 1 := by
  obtain ⟨hlength, hgoes⟩ := Pool.shutdown (fun _ => accessesLeft)
    (reported_le linux arg) (fun _ => terminating) h hstop hrun
  refine ⟨?_, hgoes, fun i => ?_⟩
  · have hbound : ∀ (i : ℕ) p, accessesLeft p ≤ 1 := by
      rintro i (_ | c)
      · exact Nat.le_refl 1
      · exact Nat.zero_le 1
    have hleft : _ ≤ numThreads arg * (1 + 2) + numThreads arg + numThreads arg + 2 + 3 :=
      Pool.left_le (P := pool linux arg) (fun _ => accessesLeft) hbound s
    omega
  · have hcount := Pool.countP_events_le (reported_le linux arg) h hstop hrun i
      (· == .step .store) underWay fun e p q htick hagrees => underWay_tick htick hagrees
    have hone : underWay (s.threads i) ≤ 1 := by
      unfold underWay
      split <;> decide
    exact (Nat.le_of_add_right_le hcount).trans hone

/-- The flag is set between the two accesses of an increment. -/
theorem returns_after_stop_once : ∃ s t : State (Option UInt64) ThreadData (List UInt8),
    (main false (some 1) fun _ => ⟨7, 9⟩).Run [.thread 0 (.step .store), .thread 0 (.test true)]
      s t ∧ s.stop = true ∧
    increments 0 [.thread 0 (.step .store), .thread 0 (.test true)] ≤ 1 := by
  have hrun : ∃ s t, (main false (some 1) fun _ => ⟨7, 9⟩).Run
      (schedule.take 8 ++ List.replicate 2 (.main .success))
      (main false (some 1) fun _ => ⟨7, 9⟩).init s ∧ s.stop = true ∧
      (main false (some 1) fun _ => ⟨7, 9⟩).Run
        [.thread 0 (.step .store), .thread 0 (.test true)] s t := ⟨_, _, rfl, rfl, rfl⟩
  obtain ⟨s, t, hreached, hstop, hrun⟩ := hrun
  exact ⟨s, t, hrun, hstop, (returns_after_stop hreached hstop hrun).2.2 0⟩

end Runs

end MicrokernelBenchmark.ThreadFairness
