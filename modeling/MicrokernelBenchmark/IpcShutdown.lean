import MicrokernelBenchmark.TransitionSystem
import MicrokernelBenchmark.DeferredCancellation

/-!
# The end of the shared queue benchmark

`main` of `ipc_latency` with its load threads, from the creation of the threads
to its return. The measuring loop is one step of `main` here, whichever way it is
left. Afterwards `main` cancels and joins the load threads one by one and then
closes and unlinks the queue.

The load threads count for ever and call nothing, so with deferred cancellation
the first join never returns.
-/
namespace MicrokernelBenchmark.IpcShutdown
open TransitionSystem DeferredCancellation

def numLoadThreads : ℕ := 3

/-- `while (1) { counter++; }` on an `unsigned long`. -/
def loadThreadFunc : Body (BitVec 64) where
  start := 0
  step counter := some (counter + 1)
  cancellationPoint _ := false

inductive Pc where
  | create (i : ℕ)
  | fork
  | forkFailedClose
  | forkFailedUnlink
  | measure
  | kill
  | cancel (i : ℕ)
  | join (i : ℕ)
  | mqClose
  | mqUnlink
  | returned
  | exitFailure
deriving DecidableEq, Repr

structure State where
  pc : Pc := .create 0
  threads : List (Thread (BitVec 64)) := []
  childRunning : Bool := false
  mqOpen : Bool := true
  linked : Bool := true
deriving DecidableEq, Repr

inductive Action where
  | main (outcome : Outcome)
  | load (i : ℕ)
deriving DecidableEq, Repr

/-- Where the loop over the load threads stands before its test. -/
def shutdownFrom (n i : ℕ) : Pc := if i < n then .cancel i else .mqClose

/-- Only `pthread_create` and `fork` have a failure which changes the course. -/
def mainStep (n : ℕ) (s : State) : Outcome → Option State
  | .success =>
      match s.pc with
      | .create i =>
          if i < n then
            some { s with pc := .create (i + 1), threads := s.threads ++ [loadThreadFunc.spawn] }
          else some { s with pc := .fork }
      | .fork => some { s with pc := .measure, childRunning := true }
      | .forkFailedClose => some { s with pc := .forkFailedUnlink, mqOpen := false }
      | .forkFailedUnlink => some { s with pc := .exitFailure, linked := false }
      | .measure => some { s with pc := .kill }
      | .kill => some { s with pc := shutdownFrom n 0, childRunning := false }
      | .cancel i => some { s with pc := .join i, threads := cancelAt i s.threads }
      | .join i =>
          if s.threads[i]? = some .ended then some { s with pc := shutdownFrom n (i + 1) }
          else none
      | .mqClose => some { s with pc := .mqUnlink, mqOpen := false }
      | .mqUnlink => some { s with pc := .returned, linked := false }
      | .returned | .exitFailure => none
  | .failure =>
      match s.pc with
      | .create i => if i < n then some { s with pc := .exitFailure } else none
      | .fork => some { s with pc := .forkFailedClose }
      | _ => none

/-- The threads end with the process. -/
def tick (n : ℕ) (a : Action) (s : State) : Option State :=
  match a with
  | .main outcome => mainStep n s outcome
  | .load i =>
      if s.pc = .returned ∨ s.pc = .exitFailure then none
      else (tickAt loadThreadFunc i s.threads).map fun threads => { s with threads := threads }

def main (n : ℕ) : System Action State := ⟨{}, tick n⟩

def Pc.AfterLoop : Pc → Prop
  | .kill | .cancel _ | .join _ | .mqClose | .mqUnlink | .returned => True
  | _ => False

def CanFinish (n : ℕ) (s : State) : Prop :=
  ∃ as t, (main n).Run as s t ∧ t.pc = .returned ∧ t.linked = false

/-- `main` is in `pthread_join` and in no continuation the thread ends. -/
def WaitsForEver (n : ℕ) (s : State) : Prop :=
  ∃ i, s.pc = .join i ∧ ∀ as t, (main n).Run as s t → t.threads[i]? ≠ some .ended

def ShutsDown (n : ℕ) : Prop :=
  (∀ s, (main n).Reachable s → s.pc.AfterLoop → CanFinish n s) ∧
    ∀ s, (main n).Reachable s → ¬ WaitsForEver n s

theorem loadThreadFunc_spins : loadThreadFunc.Spins := fun _ => ⟨rfl, rfl⟩

/-- No load thread ends, so `main` gets past the first join only if there is none. -/
structure Invariant (n : ℕ) (s : State) : Prop where
  alive : ∀ th ∈ s.threads, th ≠ .ended
  cancel : ∀ i, s.pc = .cancel i ∨ s.pc = .join i → i = 0 ∧ 0 < n
  past : s.pc = .mqClose ∨ s.pc = .mqUnlink ∨ s.pc = .returned → n = 0
  closed : s.pc = .mqUnlink ∨ s.pc = .returned → s.mqOpen = false
  unlinked : s.pc = .returned → s.linked = false

theorem Invariant.join_blocked {n i : ℕ} {s : State} (h : Invariant n s) :
    s.threads[i]? ≠ some .ended :=
  fun hi => h.alive _ (List.mem_of_getElem? hi) rfl

/-- Before the first cancellation only the threads matter. -/
theorem Invariant.early {n : ℕ} {t : State} (halive : ∀ th ∈ t.threads, th ≠ .ended)
    (hpc : t.pc.AfterLoop → t.pc = .kill) : Invariant n t := by
  refine ⟨halive, fun i hi => ?_, fun hi => ?_, fun hi => ?_, fun hi => ?_⟩
  · rcases hi with hi | hi <;> simp [hi, Pc.AfterLoop] at hpc
  · rcases hi with hi | hi | hi <;> simp [hi, Pc.AfterLoop] at hpc
  · rcases hi with hi | hi <;> simp [hi, Pc.AfterLoop] at hpc
  · simp [hi, Pc.AfterLoop] at hpc

theorem Invariant.shutdownFrom {n : ℕ} {s : State} (h : Invariant n s) :
    Invariant n { s with pc := shutdownFrom n 0, childRunning := false } := by
  rw [IpcShutdown.shutdownFrom]
  split
  case isTrue hn =>
    refine ⟨h.alive, fun i hi => ?_, by simp, by simp, by simp⟩
    simp only [Pc.cancel.injEq, reduceCtorEq, or_false] at hi
    exact ⟨hi.symm, hn⟩
  case isFalse hn => exact ⟨h.alive, by simp, fun _ => Nat.eq_zero_of_not_pos hn, by simp, by simp⟩

theorem Invariant.mainStep {n : ℕ} {s t : State} (h : Invariant n s) {o : Outcome}
    (ht : mainStep n s o = some t) : Invariant n t := by
  have hcreate : ∀ th ∈ s.threads ++ [loadThreadFunc.spawn], th ≠ .ended := by
    intro th hth
    rcases List.mem_append.mp hth with hth | hth
    · exact h.alive th hth
    · simp [List.mem_singleton.mp hth, Body.spawn]
  cases o with
  | success =>
      simp only [IpcShutdown.mainStep] at ht
      split at ht
      case h_1 i hpc =>
        split at ht
        · rw [← Option.some.inj ht]
          exact .early hcreate (by simp [Pc.AfterLoop])
        · rw [← Option.some.inj ht]
          exact .early h.alive (by simp [Pc.AfterLoop])
      case h_6 hpc => exact Option.some.inj ht ▸ h.shutdownFrom
      case h_7 i hpc =>
        rw [← Option.some.inj ht]
        refine ⟨cancelAt_alive h.alive, fun j hj => ?_, by simp, by simp, by simp⟩
        simp only [reduceCtorEq, Pc.join.injEq, false_or] at hj
        exact hj ▸ h.cancel i (.inl hpc)
      case h_8 i hpc =>
        rw [if_neg h.join_blocked] at ht
        cases ht
      case h_9 hpc =>
        rw [← Option.some.inj ht]
        exact ⟨h.alive, by simp, fun _ => h.past (.inl hpc), by simp, by simp⟩
      case h_10 hpc =>
        rw [← Option.some.inj ht]
        exact ⟨h.alive, by simp, fun _ => h.past (.inr (.inl hpc)), fun _ => h.closed (.inl hpc),
          by simp⟩
      case h_11 | h_12 => cases ht
      all_goals
        rw [← Option.some.inj ht]
        exact .early h.alive (by simp [Pc.AfterLoop])
  | failure =>
      simp only [IpcShutdown.mainStep] at ht
      split at ht
      case h_1 i hpc =>
        split at ht
        · rw [← Option.some.inj ht]
          exact .early h.alive (by simp [Pc.AfterLoop])
        · cases ht
      case h_2 hpc =>
        rw [← Option.some.inj ht]
        exact .early h.alive (by simp [Pc.AfterLoop])
      case h_3 => cases ht

theorem Invariant.tick {n : ℕ} {s t : State} {a : Action} (h : Invariant n s)
    (ht : tick n a s = some t) : Invariant n t := by
  cases a with
  | main o => exact h.mainStep ht
  | load i =>
      simp only [IpcShutdown.tick, Option.ite_none_left_eq_some, Option.map_eq_some_iff] at ht
      obtain ⟨_, threads, hthreads, rfl⟩ := ht
      exact ⟨loadThreadFunc_spins.tickAt hthreads h.alive, h.cancel, h.past, h.closed, h.unlinked⟩

theorem invariant_of_reachable {n : ℕ} {s : State} (h : (main n).Reachable s) : Invariant n s :=
  h.invariant ⟨by simp [main], by simp [main], by simp [main], by simp [main], by simp [main]⟩
    fun _ _ _ hs ht => hs.tick ht

/-- The thread is waited for in `pthread_join` and cannot end. -/
theorem waitsForEver_of_join {n i : ℕ} {s : State} (h : (main n).Reachable s)
    (hpc : s.pc = .join i) : WaitsForEver n s := by
  refine ⟨i, hpc, fun as t hrun => ?_⟩
  obtain ⟨bs, hbs⟩ := h
  exact (invariant_of_reachable ⟨bs ++ as, hbs.append hrun⟩).join_blocked

theorem not_canFinish {n : ℕ} (hn : 0 < n) {s : State} (h : (main n).Reachable s) :
    ¬ CanFinish n s := by
  rintro ⟨as, t, hrun, hpc, -⟩
  obtain ⟨bs, hbs⟩ := h
  have hinv := invariant_of_reachable ⟨bs ++ as, hbs.append hrun⟩
  exact Nat.pos_iff_ne_zero.mp hn (hinv.past (.inr (.inr hpc)))

/-- The steps of `main` that are left after the loop when there is no load thread. -/
def Pc.left : Pc → ℕ
  | .kill => 3
  | .mqClose => 2
  | .mqUnlink => 1
  | _ => 0

theorem exists_shutdown_step {s : State} (h : Invariant 0 s) (hafter : s.pc.AfterLoop)
    (hpc : s.pc ≠ .returned) : ∃ t, tick 0 (.main .success) s = some t ∧
      t.pc.AfterLoop ∧ t.pc.left < s.pc.left := by
  cases hp : s.pc with
  | kill =>
      refine ⟨{ s with pc := .mqClose, childRunning := false }, ?_, trivial, by simp [Pc.left]⟩
      simp [tick, IpcShutdown.mainStep, hp, shutdownFrom]
  | mqClose =>
      refine ⟨{ s with pc := .mqUnlink, mqOpen := false }, ?_, trivial, by simp [Pc.left]⟩
      simp [tick, IpcShutdown.mainStep, hp]
  | mqUnlink =>
      refine ⟨{ s with pc := .returned, linked := false }, ?_, trivial, by simp [Pc.left]⟩
      simp [tick, IpcShutdown.mainStep, hp]
  | cancel i => exact absurd (h.cancel i (.inl hp)).2 (Nat.lt_irrefl 0)
  | join i => exact absurd (h.cancel i (.inr hp)).2 (Nat.lt_irrefl 0)
  | returned => exact absurd hp hpc
  | _ => simp [hp, Pc.AfterLoop] at hafter

theorem canFinish_zero {s : State} (h : (main 0).Reachable s) (hafter : s.pc.AfterLoop) :
    CanFinish 0 s := by
  have hgoal : ∃ as t, (∀ a ∈ as, True) ∧ (main 0).Run as s t ∧ t.pc = .returned := by
    apply System.exists_run_to (I := fun s => Invariant 0 s ∧ s.pc.AfterLoop) (fun _ => True)
      (fun s => s.pc.left) ?_ s ⟨invariant_of_reachable h, hafter⟩
    intro u hu hpc
    obtain ⟨t, ht, hafter, hleft⟩ := exists_shutdown_step hu.1 hu.2 hpc
    exact ⟨.main .success, t, trivial, ht, ⟨hu.1.tick ht, hafter⟩, hleft⟩
  obtain ⟨as, t, _, hrun, hpc⟩ := hgoal
  obtain ⟨bs, hbs⟩ := h
  have hinv := invariant_of_reachable ⟨bs ++ as, hbs.append hrun⟩
  exact ⟨as, t, hrun, hpc, hinv.unlinked hpc⟩

theorem run_create (n k : ℕ) (hk : k ≤ n) :
    (main n).Run (List.replicate k (.main .success)) (main n).init
      { pc := .create k, threads := List.replicate k loadThreadFunc.spawn } := by
  induction k with
  | zero => exact System.run_nil.mpr rfl
  | succ k ih =>
      rw [List.replicate_succ']
      refine System.run_snoc.mpr ⟨_, ih (Nat.le_of_succ_le hk), ?_⟩
      simp [main, tick, IpcShutdown.mainStep, Nat.lt_of_succ_le hk, List.replicate_succ']

/-- `main` can leave the measuring loop with every number of load threads. -/
theorem exists_kill (n : ℕ) : ∃ s, (main n).Reachable s ∧ s.pc = .kill := by
  have hrest : (main n).Run (List.replicate 3 (.main .success))
      { pc := .create n, threads := List.replicate n loadThreadFunc.spawn }
      { pc := .kill, threads := List.replicate n loadThreadFunc.spawn, childRunning := true } := by
    simp [System.Run, System.exec, List.replicate, main, tick, IpcShutdown.mainStep]
  exact ⟨_, ⟨_, (run_create n n (Nat.le_refl n)).append hrest⟩, rfl⟩

theorem shutsDown_iff (n : ℕ) : ShutsDown n ↔ n = 0 := by
  constructor
  · rintro ⟨hfinish, -⟩
    obtain ⟨s, hs, hpc⟩ := exists_kill n
    by_contra hn
    exact not_canFinish (Nat.pos_of_ne_zero hn) hs (hfinish s hs (by simp [hpc, Pc.AfterLoop]))
  · rintro rfl
    refine ⟨fun s hs hafter => canFinish_zero hs hafter, fun s hs => ?_⟩
    rintro ⟨i, hpc, _⟩
    exact absurd ((invariant_of_reachable hs).cancel i (.inr hpc)).2 (Nat.lt_irrefl 0)

/-- With the three load threads of the program nothing after the first join is reached. -/
theorem not_shutsDown : ¬ ShutsDown numLoadThreads ∧
    ∃ s, (main numLoadThreads).Reachable s ∧ WaitsForEver numLoadThreads s := by
  have hjoin : ∃ s, (main numLoadThreads).Run (List.replicate 8 (.main .success))
      (main numLoadThreads).init s ∧ s.pc = .join 0 := ⟨_, rfl, rfl⟩
  obtain ⟨s, hrun, hpc⟩ := hjoin
  have hwait := waitsForEver_of_join ⟨_, hrun⟩ hpc
  exact ⟨fun h => h.2 s ⟨_, hrun⟩ hwait, s, ⟨_, hrun⟩, hwait⟩

end MicrokernelBenchmark.IpcShutdown
