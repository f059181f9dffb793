import MicrokernelBenchmark.ChildTable
import MicrokernelBenchmark.TransitionSystem
import Mathlib.Data.List.ReduceOption

/-!
# The broker and the load workers of the CPU load test

`cpu_load_pubsub_test` forks the broker and the load workers, runs two tests and
then signals and reaps what it has recorded. The environment supplies what every
`fork` returns, whether each `run_test` comes back, and which child is found by a
`waitpid` that names no single one. `issued` records every `kill` and `waitpid`
with the children not yet reaped at that moment; no step reads it.

`stop_broker` tests the recorded pid before it uses it, `stop_load` does not. That the
step by step runs of the program make these calls is shown in `CpuLoadCalls`.
-/
namespace MicrokernelBenchmark.CpuLoadProcesses
open ChildTable (pidT)
open TransitionSystem (Outcome)

/-- A test that does not succeed has called `exit` or waits for ever. The pids
are fresh as nothing is reaped before the last `fork`. -/
structure Environment where
  broker : Option ℕ+
  load : List (Option ℕ+)
  fresh : (broker :: load).reduceOption.Nodup
  baseline : Outcome
  underLoad : Outcome
  anyChild : ℕ → ℕ

inductive Caller where
  | stopLoad
  | stopBroker
deriving DecidableEq, Repr

inductive Request where
  | kill
  | waitpid (reaped : Option ℕ+)
deriving DecidableEq, Repr

structure Call where
  caller : Caller
  request : Request
  pid : ℤ
  children : List ℕ+
deriving DecidableEq, Repr

structure State where
  brokerPid : ℤ := 0
  loadPids : List ℤ := []
  children : List ℕ+ := []
  issued : List Call := []
deriving DecidableEq, Repr

def State.fork (s : State) (o : Option ℕ+) : State :=
  { s with children := s.children ++ o.toList }

def startBroker (o : Option ℕ+) (s : State) : State :=
  { s.fork o with brokerPid := pidT o }

def startLoad : List (Option ℕ+) → State → State
  | [], s => s
  | o :: os, s => startLoad os { s.fork o with loadPids := s.loadPids ++ [pidT o] }

/-- The child a `waitpid` reaps: the one it names, or for a pid that names no
single process any of them. -/
def State.found (s : State) (anyChild : ℕ → ℕ) (pid : ℤ) : Option ℕ+ :=
  if 0 < pid then s.children.find? fun p : ℕ+ => (p : ℤ) = pid
  else s.children[anyChild s.issued.length % s.children.length]?

def State.kill (s : State) (by' : Caller) (pid : ℤ) : State :=
  { s with issued := s.issued ++ [⟨by', .kill, pid, s.children⟩] }

def State.waitpid (s : State) (anyChild : ℕ → ℕ) (by' : Caller) (pid : ℤ) : State :=
  let reaped := s.found anyChild pid
  { s with
    children := s.children.filter fun p => some p ≠ reaped
    issued := s.issued ++ [⟨by', .waitpid reaped, pid, s.children⟩] }

def stop (anyChild : ℕ → ℕ) (by' : Caller) (pid : ℤ) (s : State) : State :=
  (s.kill by' pid).waitpid anyChild by' pid

def stopLoad (anyChild : ℕ → ℕ) : List ℤ → State → State
  | [], s => s
  | pid :: pids, s => stopLoad anyChild pids (stop anyChild .stopLoad pid s)

def stopBroker (anyChild : ℕ → ℕ) (s : State) : State :=
  if 0 < s.brokerPid then stop anyChild .stopBroker s.brokerPid s else s

def main (env : Environment) : State :=
  let s := startBroker env.broker {}
  match env.baseline with
  | .failure => s
  | .success =>
      let s := startLoad env.load s
      match env.underLoad with
      | .failure => s
      | .success => stopBroker env.anyChild (stopLoad env.anyChild s.loadPids s)

/-- Every call names one child that a `fork` has returned and that is not yet
reaped, none names every process, and `stop_load` leaves the broker alone. -/
structure Orderly (env : Environment) (s : State) : Prop where
  own : ∀ c ∈ s.issued, ∃ p ∈ c.children, some p ∈ env.broker :: env.load ∧ c.pid = p
  notAll : ∀ c ∈ s.issued, c.pid ≠ -1
  broker : ∀ c ∈ s.issued, c.caller = .stopLoad →
    ∀ p, env.broker = some p → c.request ≠ .waitpid (some p)

theorem startLoad_eq (os : List (Option ℕ+)) (s : State) :
    startLoad os s = { s with
      loadPids := s.loadPids ++ os.map pidT
      children := s.children ++ os.reduceOption } := by
  induction os generalizing s with
  | nil => simp [startLoad]
  | cons o os ih =>
      rw [startLoad, ih]
      cases o <;> simp [State.fork]

@[simp] theorem State.kill_children (s : State) (by' : Caller) (pid : ℤ) :
    (s.kill by' pid).children = s.children := rfl

@[simp] theorem State.kill_issued (s : State) (by' : Caller) (pid : ℤ) :
    (s.kill by' pid).issued = s.issued ++ [⟨by', .kill, pid, s.children⟩] := rfl

section Stop
variable {env : Environment} {s : State} {by' : Caller}

theorem found_of_mem {f : ℕ → ℕ} {p : ℕ+} (hp : p ∈ s.children) :
    s.found f p = some p := by
  have hpos : (0 : ℤ) < p := by exact_mod_cast p.pos
  rw [State.found, if_pos hpos]
  have hsome : (s.children.find? fun q : ℕ+ => decide ((q : ℤ) = (p : ℤ))).isSome := by
    rw [List.find?_isSome]
    exact ⟨p, hp, by simp⟩
  obtain ⟨q, hq⟩ := Option.isSome_iff_exists.mp hsome
  have hpq : (q : ℤ) = p := by simpa using List.find?_some hq
  have heq : q = p := PNat.coe_inj.mp (by exact_mod_cast hpq)
  rw [hq, heq]

theorem pidT_ne_neg_one (p : ℕ+) : (p : ℤ) ≠ -1 := by
  have hpos : (0 : ℤ) < p := by exact_mod_cast p.pos
  omega

/-- Stopping a child that is still there keeps the record in order. -/
theorem Orderly.stop (hs : Orderly env s) {p : ℕ+} (hp : p ∈ s.children)
    (hfork : some p ∈ env.broker :: env.load)
    (hb : by' = .stopLoad → env.broker ≠ some p) :
    Orderly env (stop env.anyChild by' p s) := by
  have hfound : (s.kill by' p).found env.anyChild p = some p := found_of_mem hp
  have hissued : (CpuLoadProcesses.stop env.anyChild by' p s).issued =
      s.issued ++ [⟨by', .kill, p, s.children⟩, ⟨by', .waitpid (some p), p, s.children⟩] := by
    simp [CpuLoadProcesses.stop, State.waitpid, hfound]
  have hcall : ∀ c ∈ (CpuLoadProcesses.stop env.anyChild by' p s).issued, c ∈ s.issued ∨
      c = ⟨by', .kill, p, s.children⟩ ∨ c = ⟨by', .waitpid (some p), p, s.children⟩ := by
    intro c hc
    simpa [hissued] using hc
  constructor
  · intro c hc
    rcases hcall c hc with h | rfl | rfl
    · exact hs.own c h
    · exact ⟨p, hp, hfork, rfl⟩
    · exact ⟨p, hp, hfork, rfl⟩
  · intro c hc
    rcases hcall c hc with h | rfl | rfl
    · exact hs.notAll c h
    · exact pidT_ne_neg_one p
    · exact pidT_ne_neg_one p
  · intro c hc hcaller q hq
    rcases hcall c hc with h | rfl | rfl
    · exact hs.broker c h hcaller q hq
    · simp
    · intro heq
      have hpq : p = q := by simpa using heq
      exact hb hcaller (hpq ▸ hq)

theorem children_stop {p : ℕ+} (hp : p ∈ s.children) :
    (stop env.anyChild by' p s).children = s.children.filter (· ≠ p) := by
  have hfound : (s.kill by' p).found env.anyChild p = some p := found_of_mem hp
  simp [stop, State.waitpid, hfound]

/-- Reaping the workers one after the other leaves the children before them. -/
theorem Orderly.stopLoad {bs : List ℕ+} (ps : List ℕ+) {s : State} (hs : Orderly env s)
    (hchildren : s.children = bs ++ ps) (hnodup : (bs ++ ps).Nodup)
    (hload : ∀ p ∈ ps, some p ∈ env.load) (hbroker : ∀ p ∈ ps, env.broker ≠ some p) :
    Orderly env (stopLoad env.anyChild (ps.map fun p : ℕ+ => (p : ℤ)) s) ∧
      (stopLoad env.anyChild (ps.map fun p : ℕ+ => (p : ℤ)) s).children = bs := by
  induction ps generalizing s with
  | nil => exact ⟨hs, by simpa [CpuLoadProcesses.stopLoad] using hchildren⟩
  | cons p ps ih =>
      have hp : p ∈ s.children := by simp [hchildren]
      have hnotMem : p ∉ bs ++ ps := by
        have hperm := List.perm_middle.nodup_iff.mp hnodup
        exact (List.nodup_cons.mp hperm).1
      have hrest : s.children.filter (· ≠ p) = bs ++ ps := by
        have hfilter : (bs ++ ps).filter (· ≠ p) = bs ++ ps := by
          rw [List.filter_eq_self]
          intro q hq
          have hne : q ≠ p := fun h => hnotMem (h ▸ hq)
          simpa using hne
        rw [hchildren, List.filter_append, List.filter_cons_of_neg (by simp), ← List.filter_append,
          hfilter]
      have hkeep : Orderly env (CpuLoadProcesses.stop env.anyChild .stopLoad p s) :=
        hs.stop hp (List.mem_cons_of_mem _ (hload p (by simp))) fun _ => hbroker p (by simp)
      have hnodup' : (bs ++ ps).Nodup :=
        hnodup.sublist ((List.sublist_cons_self p ps).append_left bs)
      exact ih hkeep ((children_stop hp).trans hrest) hnodup'
        (fun q hq => hload q (by simp [hq])) (fun q hq => hbroker q (by simp [hq]))

theorem issued_subset_stop (f : ℕ → ℕ) (pid : ℤ) :
    s.issued ⊆ (stop f by' pid s).issued := by
  simp [stop, State.waitpid]

theorem issued_subset_stopLoad (f : ℕ → ℕ) (pids : List ℤ) (s : State) :
    s.issued ⊆ (stopLoad f pids s).issued := by
  induction pids generalizing s with
  | nil => simp [stopLoad]
  | cons pid pids ih => exact fun c hc => ih _ (issued_subset_stop f pid hc)

/-- `stop_load` names every recorded pid, whatever it is. -/
theorem exists_call_stopLoad (f : ℕ → ℕ) {pid : ℤ} {pids : List ℤ} (h : pid ∈ pids) (s : State) :
    ∃ c ∈ (stopLoad f pids s).issued, c.pid = pid := by
  induction pids generalizing s with
  | nil => simp at h
  | cons q pids ih =>
      rcases List.mem_cons.mp h with rfl | h
      · have hmem : ⟨.stopLoad, .kill, pid, s.children⟩ ∈ (stop f .stopLoad pid s).issued := by
          simp [stop, State.waitpid]
        exact ⟨_, issued_subset_stopLoad f pids _ hmem, rfl⟩
      · exact ih h _

theorem issued_subset_stopBroker (f : ℕ → ℕ) (s : State) :
    s.issued ⊆ (stopBroker f s).issued := by
  rw [stopBroker]
  split
  · exact issued_subset_stop f _
  · exact fun _ h => h

end Stop

theorem map_pidT {os : List (Option ℕ+)} (h : ∀ o ∈ os, o.isSome) :
    os.map pidT = os.reduceOption.map fun p : ℕ+ => (p : ℤ) := by
  induction os with
  | nil => rfl
  | cons o os ih =>
      have ho : o.isSome := h o List.mem_cons_self
      rw [List.map_cons, ih fun o' ho' => h o' (List.mem_cons_of_mem _ ho')]
      obtain ⟨p, rfl⟩ := Option.isSome_iff_exists.mp ho
      simp [pidT]

theorem reduceOption_cons_eq (o : Option ℕ+) (os : List (Option ℕ+)) :
    (o :: os).reduceOption = o.toList ++ os.reduceOption := by
  cases o <;> simp

/-- What `start_broker` and `start_load` leave. -/
def started (env : Environment) : State :=
  startLoad env.load (startBroker env.broker {})

theorem started_eq (env : Environment) : started env =
    { brokerPid := pidT env.broker
      loadPids := env.load.map pidT
      children := env.broker.toList ++ env.load.reduceOption } := by
  rw [started, startLoad_eq]
  rfl

theorem Orderly.stopBroker {env : Environment} {s : State} (hs : Orderly env s)
    (hpid : s.brokerPid = pidT env.broker) (hchildren : s.children = env.broker.toList) :
    Orderly env (stopBroker env.anyChild s) := by
  rw [CpuLoadProcesses.stopBroker, hpid]
  split
  case isFalse => exact hs
  case isTrue hpos =>
    cases hb : env.broker with
    | none => simp [hb, pidT] at hpos
    | some p =>
        have hp : p ∈ s.children := by simp [hchildren, hb]
        exact hs.stop hp (by simp [hb]) (fun h => by simp at h)

@[simp] theorem brokerPid_stopLoad (f : ℕ → ℕ) (pids : List ℤ) (s : State) :
    (stopLoad f pids s).brokerPid = s.brokerPid := by
  induction pids generalizing s with
  | nil => rfl
  | cons pid pids ih => exact ih _

theorem orderly_of_forks (env : Environment) (h : ∀ o ∈ env.load, o.isSome) :
    Orderly env (stopBroker env.anyChild
      (stopLoad env.anyChild (started env).loadPids (started env))) := by
  have hfresh : (env.broker.toList ++ env.load.reduceOption).Nodup :=
    reduceOption_cons_eq env.broker env.load ▸ env.fresh
  have hstart : Orderly env (started env) := by
    rw [started_eq]
    constructor <;> simp
  have hbroker : ∀ p ∈ env.load.reduceOption, env.broker ≠ some p := by
    intro p hp hb
    exact (List.nodup_append.mp hfresh).2.2 p (by simp [hb]) p hp rfl
  have hpids : (started env).loadPids = env.load.reduceOption.map fun p : ℕ+ => (p : ℤ) := by
    rw [started_eq]
    exact map_pidT h
  obtain ⟨hs, hchildren⟩ := hstart.stopLoad env.load.reduceOption (by rw [started_eq]) hfresh
    (fun p hp => List.reduceOption_mem_iff.mp hp) hbroker
  rw [hpids]
  exact hs.stopBroker (by rw [brokerPid_stopLoad, started_eq]) hchildren

/-- A failed `fork` is recorded as -1, which `stop_load` hands to `kill`. -/
theorem not_orderly_of_failed_fork (env : Environment) (h : none ∈ env.load) :
    ¬ Orderly env (stopBroker env.anyChild
      (stopLoad env.anyChild (started env).loadPids (started env))) := by
  intro hs
  have hpid : (-1 : ℤ) ∈ (started env).loadPids := by
    rw [started_eq]
    exact List.mem_map.mpr ⟨none, h, rfl⟩
  obtain ⟨c, hc, heq⟩ := exists_call_stopLoad env.anyChild hpid (started env)
  exact hs.notAll c (issued_subset_stopBroker _ _ hc) heq

/-- The calls are in order exactly when a test ends the program first or no
`fork` of `start_load` fails. -/
theorem orderly_iff (env : Environment) :
    Orderly env (main env) ↔
      env.baseline = .failure ∨ env.underLoad = .failure ∨ ∀ o ∈ env.load, o.isSome := by
  have hbefore : ∀ s : State, s.issued = [] → Orderly env s := by
    intro s hs
    constructor <;> simp [hs]
  cases hb : env.baseline with
  | failure =>
      have hmain : main env = startBroker env.broker {} := by simp [main, hb]
      exact iff_of_true (hmain ▸ hbefore _ rfl) (.inl rfl)
  | success =>
      cases hu : env.underLoad with
      | failure =>
          have hmain : main env = started env := by simp [main, hb, hu, started]
          exact iff_of_true (hmain ▸ hbefore _ (by rw [started_eq])) (.inr (.inl rfl))
      | success =>
          have hmain : main env = stopBroker env.anyChild
              (stopLoad env.anyChild (started env).loadPids (started env)) := by
            simp [main, hb, hu, started]
          rw [hmain]
          simp only [reduceCtorEq, false_or]
          constructor
          · intro hs o ho
            by_contra hnone
            have ho' : o = none := by simpa using hnone
            exact not_orderly_of_failed_fork env (ho' ▸ ho) hs
          · exact orderly_of_forks env

/-- The second worker is not started; the broker is found by `waitpid(-1)`. -/
def secondForkFails : Environment where
  broker := some 100
  load := [some 101, none]
  fresh := by decide
  baseline := .success
  underLoad := .success
  anyChild := fun _ => 0

theorem stopLoad_signals_every_process :
    ¬ (∀ env : Environment, Orderly env (main env)) ∧
      ⟨.stopLoad, .kill, -1, [100]⟩ ∈ (main secondForkFails).issued ∧
      ⟨.stopLoad, .waitpid (some 100), -1, [100]⟩ ∈ (main secondForkFails).issued ∧
      ⟨.stopBroker, .kill, 100, []⟩ ∈ (main secondForkFails).issued := by
  have hkill : ⟨.stopLoad, .kill, -1, [100]⟩ ∈ (main secondForkFails).issued := by decide
  refine ⟨fun h => ?_, hkill, by decide, by decide⟩
  exact (h secondForkFails).notAll _ hkill rfl

end MicrokernelBenchmark.CpuLoadProcesses
