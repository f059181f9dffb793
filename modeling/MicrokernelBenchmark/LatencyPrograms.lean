import MicrokernelBenchmark.CallTrees
import MicrokernelBenchmark.CString
import MicrokernelBenchmark.PeriodicLatency
import Mathlib.Algebra.Order.BigOperators.Group.List

/-!
# The periodic latency programs

The whole of `max_latency_scheduling` and of `measure_jitter` as trees of their
calls: the argument, the settings whose failure ends the program or not, and the
loops of `PeriodicLatency` with a call for every sleep and every reading of the
clock. The surroundings answer the calls as they like, so the passes of a loop are
known only from the history of the run. The numbers of passes and of runs, constants
of the source, are parameters here.
-/
namespace MicrokernelBenchmark.LatencyPrograms
open CString (bytes)
open CallTrees FixedWidth PeriodicLatency
open CallTrees.Contract (wp_bind wp_pure)
open TransitionSystem (Outcome)

abbrev Text := List UInt8

inductive Policy where
  | fifo
  | rr
  | sporadic
deriving DecidableEq, Repr

structure SporadicParam where
  lowPriority : ℤ
  maxRepl : ℤ
  replPeriod : Timespec
  initBudget : Timespec
deriving DecidableEq, Repr

inductive Setting where
  | affinity (cpu : ℕ)
  | addressSpace (limit : ℕ)
  | scheduler (policy : Policy) (priority : ℤ) (sporadic : Option SporadicParam)
deriving DecidableEq, Repr

inductive Line where
  | maxLatency (ns : ℤ)
  | run (r : ℕ) (maxJitter : ℤ)
  | average (runs : ℕ) (ns : ℤ)
deriving DecidableEq, Repr

/-- Messages for the error stream. -/
inductive Message where
  | usage
  | unsupported (policy : Text)
  | perror (text : Text)
deriving DecidableEq, Repr

inductive Call where
  | schedGetPriorityMax (policy : Policy)
  | set (x : Setting)
  | clockGettime
  | clockNanosleep (deadline : Timespec)
  | printf (line : Line)
  | stderr (message : Message)
deriving DecidableEq, Repr

abbrev Answer : Call → Type
  | .schedGetPriorityMax _ => ℤ
  | .set _ => Outcome
  | .clockGettime => Timespec
  | .clockNanosleep _ => Outcome
  | .printf _ => Unit
  | .stderr _ => Unit

abbrev Prog : Type → Type := Program Answer

def ask (c : Call) : Prog (Answer c) := call c

def schedGetPriorityMax (policy : Policy) : Prog ℤ := ask (.schedGetPriorityMax policy)

def set (x : Setting) : Prog Outcome := ask (.set x)

def clockGettime : Prog Timespec := ask .clockGettime

def clockNanosleep (deadline : Timespec) : Prog Outcome := ask (.clockNanosleep deadline)

def printf (line : Line) : Prog Unit := ask (.printf line)

def stderr (message : Message) : Prog Unit := ask (.stderr message)

def perror (text : String) : Prog Unit := stderr (.perror (bytes text))

/-- `none` is the exit with a message. -/
def parseSchedPolicy (qnx : Bool) (arg : Text) : Option Policy :=
  if arg = bytes "fifo" then some .fifo
  else if arg = bytes "rr" then some .rr
  else if qnx ∧ arg = bytes "sporadic" then some .sporadic
  else none

def sporadicParam : SporadicParam where
  lowPriority := 10
  maxRepl := 5
  replPeriod := ⟨0, 50000000⟩
  initBudget := ⟨0, 5000000⟩

def scheduler (policy : Policy) (priority : ℤ) : Setting :=
  .scheduler policy priority (if policy = .sporadic then some sporadicParam else none)

/-- The values of the source. -/
def iterations : ℕ := 10000

def runs : ℕ := 100

section MaxLatency

/-- Linux only: the processor and 512 MB of memory, or the exit. -/
def limitMaxLatency (qnx : Bool) : Prog Bool :=
  if qnx then pure true
  else do
    match ← set (.affinity 15) with
    | .failure =>
        perror "sched_setaffinity"
        pure false
    | .success =>
        match ← set (.addressSpace (512 * 1024 * 1024)) with
        | .failure =>
            perror "setrlimit"
            pure false
        | .success => pure true

/-- Whether the program goes on: only the sporadic policy has to be accepted. -/
def scheduleMaxLatency (policy : Policy) (priority : ℤ) : Prog Bool := do
  match ← set (scheduler policy priority) with
  | .success => pure true
  | .failure =>
      if policy = .sporadic then
        perror "sched_setscheduler (sporadic)"
        pure false
      else
        perror "sched_setscheduler"
        pure true

def maxLatencyFor : ℕ → Timespec → ℤ → Prog ℤ
  | 0, _, maxLatency => pure maxLatency
  | n + 1, next, maxLatency => do
      match ← clockNanosleep next with
      | .failure => perror "clock_nanosleep"
      | .success => pure ()
      let now ← clockGettime
      let latency := timespecDiffNs now next
      let latency := if latency < 0 then long (-latency) else latency
      maxLatencyFor n (timespecAdd next periodNs)
        (if maxLatency < latency then latency else maxLatency)

/-- `args` are the arguments behind the name of the program. -/
def maxLatencyMain (iterations : ℕ) (qnx : Bool) (args : List Text) : Prog ℕ :=
  match args with
  | [] => do
      stderr .usage
      pure 1
  | arg :: _ =>
      match parseSchedPolicy qnx arg with
      | none => do
          stderr (.unsupported arg)
          pure 1
      | some policy => do
          let prio ← schedGetPriorityMax policy
          if ← limitMaxLatency qnx then
            if ← scheduleMaxLatency policy prio then
              let next ← clockGettime
              let maxLatency ← maxLatencyFor iterations (timespecAdd next periodNs) 0
              printf (.maxLatency maxLatency)
              pure 0
            else pure 1
          else pure 1

end MaxLatency

section MeasureJitter

def measureOnceFor : ℕ → Timespec → ℤ → Prog ℤ
  | 0, _, maxJ => pure maxJ
  | n + 1, expected, maxJ => do
      let nsec := long (expected.tvNsec + periodNs)
      let expected : Timespec :=
        if nsecPerSec ≤ nsec then ⟨long (expected.tvSec + 1), long (nsec - nsecPerSec)⟩
        else ⟨expected.tvSec, nsec⟩
      match ← clockNanosleep expected with
      | .failure =>
          perror "clock_nanosleep"
          pure maxJ
      | .success =>
          let now ← clockGettime
          let a := tsNs now
          let b := tsNs expected
          let diff := if b < a then ulong (a - b) else ulong (b - a)
          measureOnceFor n expected (if maxJ < diff then diff else maxJ)

def measureOnce (iterations : ℕ) : Prog ℤ := do
  let expected ← clockGettime
  measureOnceFor iterations expected 0

def jitterRun (iterations : ℕ) (sum : ℤ) (r : ℕ) : Prog ℤ := do
  let mj ← measureOnce iterations
  printf (.run (r + 1) mj)
  pure (ulong (sum + mj))

/-- Every policy has to be accepted here, and the processor is set last. The division by
`runs` is undefined without a run. -/
def jitterMain (runs iterations : ℕ) (qnx : Bool) (args : List Text) : Prog ℕ :=
  match args with
  | [] => do
      stderr .usage
      pure 1
  | arg :: _ =>
      match parseSchedPolicy qnx arg with
      | none => do
          stderr (.unsupported arg)
          pure 1
      | some policy => do
          let prio ← schedGetPriorityMax policy
          match ← set (scheduler policy prio) with
          | .failure =>
              if policy = .sporadic then perror "pthread_setschedparam (sporadic)"
              else perror "pthread_setschedparam"
              pure 1
          | .success =>
              let _ignored ← set (.affinity 0)
              let sum ← (List.range runs).foldlM (jitterRun iterations) 0
              printf (.average runs (sum / runs))
              pure 0

end MeasureJitter

section Histories

abbrev History : Type := List (Event Answer)

/-- The calls which may be made only when the program is set up. -/
def Measures : Call → Prop
  | .clockGettime | .clockNanosleep _ | .printf _ => True
  | .schedGetPriorityMax _ | .set _ | .stderr _ => False

/-- The message for a call that fails. -/
def reported (o : Outcome) (text : String) : History :=
  match o with
  | .success => []
  | .failure => [⟨.stderr (.perror (bytes text)), ()⟩]

/-- A pass of `max_latency_scheduling`. -/
def latencyPass (due : Timespec) (w : Wake) : History :=
  ⟨.clockNanosleep due, w.outcome⟩ :: reported w.outcome "clock_nanosleep" ++
    [⟨.clockGettime, w.now⟩]

/-- A pass of `measure_once`, which reads no clock after a sleep that fails. -/
def jitterPass (due : Timespec) (w : Wake) : History :=
  ⟨.clockNanosleep due, w.outcome⟩ ::
    match w.outcome with
    | .success => [⟨.clockGettime, w.now⟩]
    | .failure => reported .failure "clock_nanosleep"

def passes (pass : Timespec → Wake → History) (dues : List Timespec) (ws : List Wake) : History :=
  (dues.zipWith pass ws).flatten

/-- Whether the wake-ups are those of a loop of `n` passes which a failure breaks. -/
def Broken : ℕ → List Wake → Prop
  | 0, ws => ws = []
  | _ + 1, [] => False
  | n + 1, w :: ws =>
      match w.outcome with
      | .success => Broken n ws
      | .failure => ws = []

def log (ready : History → Prop) : Contract Answer History :=
  .history fun past c => Measures c → ready past

variable {ready : History → Prop} {past : History}

theorem wp_ask {c : Call} {Q : Answer c → History → Prop} :
    (log ready).wp (ask c) past Q ↔
      (Measures c → ready past) ∧ ∀ r, Q r (past ++ [⟨c, r⟩]) := by
  rw [ask, Contract.wp_call]
  exact and_congr_right fun _ => forall_congr' fun r => ⟨fun h => h trivial, fun h _ => h⟩

/-- What is set up stays so. -/
def Lasting (ready : History → Prop) : Prop :=
  ∀ past more, ready past → ready (past ++ more)

theorem wp_maxLatencyFor (hlasting : Lasting ready) (n : ℕ) {next : Timespec} {worst : ℤ}
    (h : ready past) {Q : ℤ → History → Prop}
    (hQ : ∀ ws : List Wake, ws.length = n →
      Q (maxLatencyLoop next worst ws).worst
        (past ++ passes latencyPass (maxLatencyLoop next worst ws).deadlines ws)) :
    (log ready).wp (maxLatencyFor n next worst) past Q := by
  induction n generalizing next worst past with
  | zero =>
      have hnone := hQ [] rfl
      rw [passes, List.zipWith_nil_right, List.flatten_nil, List.append_nil] at hnone
      exact hnone
  | succ n ih =>
      have hpass : ∀ o now, (log ready).wp
          (maxLatencyFor n (timespecAdd next periodNs)
            (maxLatencyLoop next worst [⟨o, now⟩]).worst)
          (past ++ latencyPass next ⟨o, now⟩) Q := by
        intro o now
        refine ih (hlasting _ _ h) fun ws hws => ?_
        have hcons := hQ (⟨o, now⟩ :: ws) (congrArg Nat.succ hws)
        rw [List.append_assoc]
        exact hcons
      rw [maxLatencyFor, wp_bind, clockNanosleep, wp_ask]
      refine ⟨fun _ => h, fun o => ?_⟩
      have hread : (log ready).wp (do
          let now ← clockGettime
          let latency := timespecDiffNs now next
          let latency := if latency < 0 then long (-latency) else latency
          maxLatencyFor n (timespecAdd next periodNs)
            (if worst < latency then latency else worst))
          (past ++ ⟨.clockNanosleep next, o⟩ :: reported o "clock_nanosleep") Q := by
        rw [wp_bind, clockGettime, wp_ask]
        refine ⟨fun _ => hlasting _ _ h, fun now => ?_⟩
        rw [List.append_assoc]
        exact hpass o now
      cases o with
      | success => exact hread
      | failure =>
          dsimp only
          rw [wp_bind, perror, stderr, wp_ask]
          refine ⟨nofun, fun _ => ?_⟩
          rw [List.append_assoc]
          exact hread

theorem wp_measureOnceFor (hlasting : Lasting ready) (n : ℕ) {expected : Timespec} {maxJ : ℤ}
    (h : ready past) {Q : ℤ → History → Prop}
    (hQ : ∀ ws : List Wake, Broken n ws →
      Q (measureOnceLoop expected maxJ ws).worst
        (past ++ passes jitterPass (measureOnceLoop expected maxJ ws).deadlines ws)) :
    (log ready).wp (measureOnceFor n expected maxJ) past Q := by
  induction n generalizing expected maxJ past with
  | zero =>
      have hnone := hQ [] rfl
      rw [passes, List.zipWith_nil_right, List.flatten_nil, List.append_nil] at hnone
      exact hnone
  | succ n ih =>
      rw [measureOnceFor]
      dsimp only
      rw [wp_bind, clockNanosleep, wp_ask]
      refine ⟨fun _ => h, fun o => ?_⟩
      cases o with
      | success =>
          dsimp only
          rw [wp_bind, clockGettime, wp_ask]
          refine ⟨fun _ => hlasting _ _ h, fun now => ?_⟩
          rw [List.append_assoc]
          refine ih (hlasting _ _ h) fun ws hws => ?_
          have hcons := hQ (⟨.success, now⟩ :: ws) hws
          rw [List.append_assoc]
          exact hcons
      | failure =>
          dsimp only
          rw [wp_bind, perror, stderr, wp_ask]
          refine ⟨nofun, fun _ => ?_⟩
          have hlast := hQ [⟨.failure, expected⟩] rfl
          rw [List.append_assoc]
          exact hlast

/-- Nothing has been measured or printed. -/
def Quiet (past : History) : Prop := ∀ e ∈ past, ¬ Measures e.1

theorem quiet_nil : Quiet [] := fun _ he => absurd he List.not_mem_nil

theorem Quiet.snoc (h : Quiet past) {c : Call} (r : Answer c) (hc : ¬ Measures c) :
    Quiet (past ++ [⟨c, r⟩]) := by
  intro e he
  rcases List.mem_append.mp he with he | he
  · exact h e he
  · rw [List.mem_singleton.mp he]
    exact hc

theorem wp_refuse {α : Type} {a : α} {message : Message} (h : Quiet past) {Q : α → History → Prop}
    (hstop : ∀ past, Quiet past → Q a past) :
    (log ready).wp (do stderr message; pure a) past Q := by
  rw [wp_bind, stderr, wp_ask]
  exact ⟨nofun, fun r => hstop _ (h.snoc r id)⟩

/-- The policy which the first argument names. -/
def chosen (qnx : Bool) (args : List Text) : Option Policy :=
  args.head?.bind (parseSchedPolicy qnx)

theorem lasting_of_prefix {I : Type} {P : I → Prop} {setup : I → History} :
    Lasting fun past => ∃ i, P i ∧ setup i <+: past := by
  rintro past more ⟨i, hi, hprefix⟩
  exact ⟨i, hi, hprefix.trans (List.prefix_append past more)⟩

end Histories

section Distances
variable {start : Timespec} {ws : List Wake}

/-- Zero and the distances of the wake-ups from instants one period apart. -/
def distances (start : Timespec) (ws : List Wake) : Set ℤ :=
  {x | x = 0 ∨ ∃ i, ∃ h : i < ws.length, x = distance start.instant ws i h}

theorem maxLatency_exact (h : Schedule start ws) :
    (maxLatencyScheduling start ws).deadlines =
        (List.range ws.length).map (fun i => deadline start (i + 1)) ∧
      IsGreatest (distances start ws) (maxLatencyScheduling start ws).worst := by
  rw [maxLatencyScheduling_eq h]
  exact ⟨idealLoop_deadlines _ _ _, idealLoop_worst _ _ _⟩

/-- The wake-ups before a sleep that fails. -/
def woken (ws : List Wake) : List Wake := ws.takeWhile (·.outcome = .success)

theorem measureOnceLoop_woken (expected : Timespec) (maxJ : ℤ) (ws : List Wake) :
    (measureOnceLoop expected maxJ (woken ws)).worst =
      (measureOnceLoop expected maxJ ws).worst := by
  induction ws generalizing expected maxJ with
  | nil => rfl
  | cons w ws ih =>
      obtain ⟨o, now⟩ := w
      cases o with
      | success => exact ih _ _
      | failure => rfl

theorem jitter_exact (h : Schedule start (woken ws)) :
    IsGreatest (distances start (woken ws)) (PeriodicLatency.measureOnce start ws).worst := by
  have heq : (PeriodicLatency.measureOnce start ws).worst =
      (idealLoop start.instant 0 (woken ws)).worst := by
    rw [← measureOnce_eq h]
    exact (measureOnceLoop_woken start 0 ws).symm
  rw [heq]
  exact idealLoop_worst _ _ _

theorem le_measureOnceLoop (expected : Timespec) (maxJ : ℤ) (ws : List Wake) :
    maxJ ≤ (measureOnceLoop expected maxJ ws).worst := by
  induction ws generalizing expected maxJ with
  | nil => exact le_refl _
  | cons w ws ih =>
      obtain ⟨o, now⟩ := w
      cases o with
      | failure => exact le_refl _
      | success =>
          refine le_trans ?_ (ih _ _)
          rw [← max_def_lt]
          exact le_max_left _ _

end Distances

section MaxLatencyRuns
variable {qnx : Bool} {args : List Text} {ready : History → Prop} {past : History}

def limits (qnx : Bool) : History :=
  if qnx then []
  else [⟨.set (.affinity 15), .success⟩, ⟨.set (.addressSpace (512 * 1024 * 1024)), .success⟩]

structure Setup where
  policy : Policy
  prio : ℤ
  outcome : Outcome

/-- The priority is the greatest of the policy, and on QNX a sporadic one is accepted. -/
structure Setup.Proper (u : Setup) (qnx : Bool) (args : List Text) : Prop where
  chosen : chosen qnx args = some u.policy
  accepted : u.policy = .sporadic → u.outcome = .success

def Setup.events (qnx : Bool) (u : Setup) : History :=
  ⟨.schedGetPriorityMax u.policy, u.prio⟩ :: limits qnx ++
    ⟨.set (scheduler u.policy u.prio), u.outcome⟩ :: reported u.outcome "sched_setscheduler"

def MaxLatencyReady (qnx : Bool) (args : List Text) (past : History) : Prop :=
  ∃ u : Setup, u.Proper qnx args ∧ u.events qnx <+: past

theorem lasting_maxLatencyReady : Lasting (MaxLatencyReady qnx args) := lasting_of_prefix

/-- What has happened when the program ends with the given status. -/
def MaxLatencyEnds (n : ℕ) (qnx : Bool) (args : List Text) (status : ℕ) (past : History) : Prop :=
  status = 1 ∧ Quiet past ∨
    status = 0 ∧ ∃ (u : Setup) (start : Timespec) (ws : List Wake), u.Proper qnx args ∧
      ws.length = n ∧
      (Schedule start ws → (maxLatencyScheduling start ws).deadlines =
          (List.range n).map (fun i => deadline start (i + 1)) ∧
        IsGreatest (distances start ws) (maxLatencyScheduling start ws).worst) ∧
      past = u.events qnx ++ ⟨.clockGettime, start⟩ ::
        passes latencyPass (maxLatencyScheduling start ws).deadlines ws ++
        [⟨.printf (.maxLatency (maxLatencyScheduling start ws).worst), ()⟩]

theorem wp_limitMaxLatency (h : Quiet past) {Q : Bool → History → Prop}
    (hgo : Quiet (past ++ limits qnx) → Q true (past ++ limits qnx))
    (hstop : ∀ past, Quiet past → Q false past) :
    (log ready).wp (limitMaxLatency qnx) past Q := by
  cases qnx with
  | true =>
      rw [limits, if_pos rfl, List.append_nil] at hgo
      exact hgo h
  | false =>
      rw [limitMaxLatency, if_neg nofun, wp_bind, set, wp_ask]
      refine ⟨nofun, fun o => ?_⟩
      have hone := h.snoc (c := .set (.affinity 15)) o id
      cases o with
      | failure =>
          exact wp_refuse hone hstop
      | success =>
          dsimp only
          rw [wp_bind, set, wp_ask]
          refine ⟨nofun, fun o => ?_⟩
          have htwo := hone.snoc (c := .set (.addressSpace (512 * 1024 * 1024))) o id
          cases o with
          | failure =>
              exact wp_refuse htwo hstop
          | success =>
              dsimp only
              rw [List.append_assoc] at htwo ⊢
              exact hgo htwo

theorem wp_scheduleMaxLatency {policy : Policy} {prio : ℤ} (h : Quiet past)
    {Q : Bool → History → Prop}
    (hgo : ∀ o, (policy = .sporadic → o = .success) →
      Q true (past ++ ⟨.set (scheduler policy prio), o⟩ :: reported o "sched_setscheduler"))
    (hstop : ∀ past, Quiet past → Q false past) :
    (log ready).wp (scheduleMaxLatency policy prio) past Q := by
  rw [scheduleMaxLatency, wp_bind, set, wp_ask]
  refine ⟨nofun, fun o => ?_⟩
  have hone := h.snoc (c := .set (scheduler policy prio)) o id
  cases o with
  | success => exact hgo .success fun _ => rfl
  | failure =>
      dsimp only
      split
      case isTrue hsporadic => exact wp_refuse hone hstop
      case isFalse hother =>
        rw [wp_bind, perror, stderr, wp_ask]
        refine ⟨nofun, fun r => ?_⟩
        rw [List.append_assoc]
        exact hgo .failure fun hpolicy => absurd hpolicy hother

theorem wp_maxLatencyMain (n : ℕ) (qnx : Bool) (args : List Text) :
    (log (MaxLatencyReady qnx args)).wp (maxLatencyMain n qnx args) []
      (MaxLatencyEnds n qnx args) := by
  have hquiet := quiet_nil
  cases args with
  | nil =>
      exact wp_refuse hquiet fun past h => .inl ⟨rfl, h⟩
  | cons arg rest =>
      rw [maxLatencyMain]
      cases hparse : parseSchedPolicy qnx arg with
      | none =>
          exact wp_refuse hquiet fun past h => .inl ⟨rfl, h⟩
      | some policy =>
          dsimp only
          rw [wp_bind, schedGetPriorityMax, wp_ask]
          refine ⟨nofun, fun prio => ?_⟩
          rw [wp_bind]
          refine wp_limitMaxLatency (hquiet.snoc prio id) (fun hlimits => ?_)
            fun past h => .inl ⟨rfl, h⟩
          rw [if_pos rfl, wp_bind]
          refine wp_scheduleMaxLatency hlimits (fun o ho => ?_) fun past h => .inl ⟨rfl, h⟩
          have hproper : Setup.Proper ⟨policy, prio, o⟩ qnx (arg :: rest) := ⟨hparse, ho⟩
          have hready : MaxLatencyReady qnx (arg :: rest) (Setup.events qnx ⟨policy, prio, o⟩) :=
            ⟨_, hproper, List.prefix_rfl⟩
          rw [if_pos rfl, wp_bind, clockGettime, wp_ask]
          refine ⟨fun _ => hready, fun start => ?_⟩
          rw [wp_bind]
          have hstarted := lasting_maxLatencyReady _ [⟨.clockGettime, start⟩] hready
          refine wp_maxLatencyFor lasting_maxLatencyReady n hstarted fun ws hws => ?_
          rw [wp_bind, printf, wp_ask]
          refine ⟨fun _ => lasting_maxLatencyReady _ _ hstarted, fun _ => ?_⟩
          refine .inr ⟨rfl, ⟨policy, prio, o⟩, start, ws, hproper, hws,
            fun hschedule => hws ▸ maxLatency_exact hschedule, ?_⟩
          rw [List.append_assoc _ [_]]
          rfl

/-- The clock always tells the third second. -/
def answers : Environment Answer
  | _, .schedGetPriorityMax _ => some 99
  | _, .set _ => some .success
  | _, .clockGettime => some ⟨3, 0⟩
  | _, .clockNanosleep _ => some .success
  | _, .printf _ => some ()
  | _, .stderr _ => some ()

example : (run answers (maxLatencyMain 2 false [bytes "fifo"]) []).2 = .result 0 ∧
    (run answers (maxLatencyMain 2 false [bytes "fifo"]) []).1.getLast?.map (·.1) =
      some (.printf (.maxLatency 2000000)) := ⟨rfl, rfl⟩

end MaxLatencyRuns

section JitterRuns
variable {qnx : Bool} {args : List Text} {ready : History → Prop} {past : History}

/-- The start and the wake-ups of one call of `measure_once`. -/
structure Group where
  start : Timespec
  wakes : List Wake

def Group.maxJitter (g : Group) : ℤ := (PeriodicLatency.measureOnce g.start g.wakes).worst

def Group.events (r : ℕ) (g : Group) : History :=
  ⟨.clockGettime, g.start⟩ ::
    passes jitterPass (PeriodicLatency.measureOnce g.start g.wakes).deadlines g.wakes ++
    [⟨.printf (.run (r + 1) g.maxJitter), ()⟩]

def groupEvents (gs : List Group) : History := (gs.mapIdx Group.events).flatten

theorem groupEvents_snoc (gs : List Group) (g : Group) :
    groupEvents (gs ++ [g]) = groupEvents gs ++ g.events gs.length := by
  rw [groupEvents, List.mapIdx_concat, List.flatten_append, List.flatten_singleton]
  rfl

def maxima (gs : List Group) : List ℤ := gs.map Group.maxJitter

/-- The sum in the unsigned word. -/
def wordSum (gs : List Group) : ℤ := ulong (maxima gs).sum

theorem wordSum_eq {gs : List Group} (h : (maxima gs).sum < 2 ^ 64) :
    wordSum gs = (maxima gs).sum := by
  refine ulong_of_nonneg (List.sum_nonneg fun m hm => ?_) h
  obtain ⟨g, -, rfl⟩ := List.mem_map.mp hm
  exact le_measureOnceLoop _ _ _

/-- The mean, rounded down, lies between two of the values. -/
theorem exists_le_ediv {ms : List ℤ} (h : ms ≠ []) :
    ∃ lo ∈ ms, ∃ hi ∈ ms, lo ≤ ms.sum / ms.length ∧ ms.sum / ms.length ≤ hi := by
  have hpos : (0 : ℤ) < ms.length := by exact_mod_cast List.length_pos_iff.mpr h
  have hconst : ∀ q : ℤ, (ms.map fun _ => q).sum = ms.length * q := by
    intro q
    rw [List.map_const', List.sum_replicate, nsmul_eq_mul]
  have hlo : ∃ lo ∈ ms, lo < ms.sum / ms.length + 1 := by
    apply List.exists_lt_of_sum_lt (fun m => m) (fun _ => ms.sum / ms.length + 1)
    rw [hconst, List.map_id', mul_add, mul_one]
    exact Int.lt_mul_ediv_self_add hpos
  have hhi : ∃ hi ∈ ms, ms.sum / ms.length ≤ hi := by
    apply List.exists_le_of_sum_le h (fun _ => ms.sum / ms.length) (fun m => m)
    rw [hconst, List.map_id']
    exact Int.mul_ediv_self_le hpos.ne'
  obtain ⟨lo, hlomem, hlo⟩ := hlo
  obtain ⟨hi, himem, hhi⟩ := hhi
  exact ⟨lo, hlomem, hi, himem, Int.lt_add_one_iff.mp hlo, hhi⟩

theorem average_between {gs : List Group} {runs : ℕ} (hruns : 0 < gs.length)
    (hlength : gs.length = runs) (h : (maxima gs).sum < 2 ^ 64) :
    wordSum gs / runs = (maxima gs).sum / runs ∧
      ∃ lo ∈ maxima gs, ∃ hi ∈ maxima gs, lo ≤ wordSum gs / runs ∧ wordSum gs / runs ≤ hi := by
  have hne : maxima gs ≠ [] := by
    rw [← List.length_pos_iff, maxima, List.length_map]
    exact hruns
  have hmean := exists_le_ediv hne
  rw [maxima, List.length_map, hlength] at hmean
  rw [wordSum_eq h]
  exact ⟨rfl, hmean⟩

theorem wordSum_snoc (gs : List Group) (g : Group) :
    wordSum (gs ++ [g]) = ulong (wordSum gs + g.maxJitter) := by
  rw [wordSum, wordSum, ulong_ulong_add, maxima, List.map_append, List.sum_append]
  simp [maxima]

/-- The processor may be refused. -/
def Setup.jitterEvents (u : Setup) : History :=
  [⟨.schedGetPriorityMax u.policy, u.prio⟩, ⟨.set (scheduler u.policy u.prio), .success⟩,
    ⟨.set (.affinity 0), u.outcome⟩]

def JitterReady (qnx : Bool) (args : List Text) (past : History) : Prop :=
  ∃ u : Setup, chosen qnx args = some u.policy ∧ u.jitterEvents <+: past

theorem lasting_jitterReady : Lasting (JitterReady qnx args) := lasting_of_prefix

/-- What a program that makes a run ends with. -/
def JitterEnds (runs n : ℕ) (qnx : Bool) (args : List Text) (status : ℕ) (past : History) :
    Prop :=
  status = 1 ∧ Quiet past ∨
    status = 0 ∧ (0 < runs → ∃ (u : Setup) (gs : List Group), chosen qnx args = some u.policy ∧
      gs.length = runs ∧ (∀ g ∈ gs, Broken n g.wakes ∧ (Schedule g.start (woken g.wakes) →
        IsGreatest (distances g.start (woken g.wakes)) g.maxJitter)) ∧
      ((maxima gs).sum < 2 ^ 64 → wordSum gs / runs = (maxima gs).sum / runs ∧
        ∃ lo ∈ maxima gs, ∃ hi ∈ maxima gs, lo ≤ wordSum gs / runs ∧ wordSum gs / runs ≤ hi) ∧
      past = u.jitterEvents ++ groupEvents gs ++
        [⟨.printf (.average runs (wordSum gs / runs)), ()⟩])

theorem wp_measureOnce (hlasting : Lasting ready) (n : ℕ) (h : ready past)
    {Q : ℤ → History → Prop}
    (hQ : ∀ g : Group, Broken n g.wakes → Q g.maxJitter
      (past ++ ⟨.clockGettime, g.start⟩ ::
        passes jitterPass (PeriodicLatency.measureOnce g.start g.wakes).deadlines g.wakes)) :
    (log ready).wp (measureOnce n) past Q := by
  rw [measureOnce, wp_bind, clockGettime, wp_ask]
  refine ⟨fun _ => h, fun start => ?_⟩
  refine wp_measureOnceFor hlasting n (hlasting _ _ h) fun ws hws => ?_
  rw [List.append_assoc]
  exact hQ ⟨start, ws⟩ hws

theorem wp_jitterRun (hlasting : Lasting ready) (n : ℕ) (h : ready past) (sum : ℤ) (r : ℕ)
    {Q : ℤ → History → Prop}
    (hQ : ∀ g : Group, Broken n g.wakes → Q (ulong (sum + g.maxJitter)) (past ++ g.events r)) :
    (log ready).wp (jitterRun n sum r) past Q := by
  rw [jitterRun, wp_bind]
  refine wp_measureOnce hlasting n h fun g hg => ?_
  rw [wp_bind, printf, wp_ask]
  refine ⟨fun _ => hlasting _ _ h, fun _ => ?_⟩
  rw [List.append_assoc]
  exact hQ g hg

theorem wp_jitterRuns (hlasting : Lasting ready) (runs n : ℕ) (h : ready past)
    {Q : ℤ → History → Prop}
    (hQ : ∀ gs : List Group, gs.length = runs → (∀ g ∈ gs, Broken n g.wakes) →
      Q (wordSum gs) (past ++ groupEvents gs)) :
    (log ready).wp ((List.range runs).foldlM (jitterRun n) 0) past Q := by
  have hnone : ∃ gs : List Group, gs.length = 0 ∧ (∀ g ∈ gs, Broken n g.wakes) ∧
      (0 : ℤ) = wordSum gs ∧ past = past ++ groupEvents gs :=
    ⟨[], rfl, nofun, rfl, (List.append_nil past).symm⟩
  refine Contract.wp_mono (Contract.wp_foldlM_range
    (fun i sum now => ∃ gs : List Group, gs.length = i ∧ (∀ g ∈ gs, Broken n g.wakes) ∧
      sum = wordSum gs ∧ now = past ++ groupEvents gs) ?step hnone) ?last
  case step =>
    rintro i - sum now ⟨gs, hlength, hbroken, rfl, rfl⟩
    refine wp_jitterRun hlasting n (hlasting _ _ h) _ i fun g hg => ?_
    refine ⟨gs ++ [g], ?_, ?_, (wordSum_snoc gs g).symm, ?_⟩
    · rw [List.length_append, hlength, List.length_singleton]
    · intro g' hg'
      rcases List.mem_append.mp hg' with hg' | hg'
      · exact hbroken g' hg'
      · rw [List.mem_singleton.mp hg']
        exact hg
    · rw [groupEvents_snoc, hlength, List.append_assoc]
  case last =>
    rintro sum now ⟨gs, hlength, hbroken, rfl, rfl⟩
    exact hQ gs hlength hbroken

theorem wp_jitterMain (runs n : ℕ) (qnx : Bool) (args : List Text) :
    (log (JitterReady qnx args)).wp (jitterMain runs n qnx args) []
      (JitterEnds runs n qnx args) := by
  have hquiet := quiet_nil
  cases args with
  | nil =>
      exact wp_refuse hquiet fun past h => .inl ⟨rfl, h⟩
  | cons arg rest =>
      rw [jitterMain]
      cases hparse : parseSchedPolicy qnx arg with
      | none =>
          exact wp_refuse hquiet fun past h => .inl ⟨rfl, h⟩
      | some policy =>
          dsimp only
          rw [wp_bind, schedGetPriorityMax, wp_ask]
          refine ⟨nofun, fun prio => ?_⟩
          rw [wp_bind, set, wp_ask]
          refine ⟨nofun, fun o => ?_⟩
          have htwo := (hquiet.snoc (c := .schedGetPriorityMax policy) prio id).snoc
            (c := .set (scheduler policy prio)) o id
          cases o with
          | failure =>
              dsimp only
              split
              · exact wp_refuse htwo fun past h => .inl ⟨rfl, h⟩
              · exact wp_refuse htwo fun past h => .inl ⟨rfl, h⟩
          | success =>
              dsimp only
              rw [wp_bind, set, wp_ask]
              refine ⟨nofun, fun o => ?_⟩
              have hready : JitterReady qnx (arg :: rest)
                  (Setup.jitterEvents ⟨policy, prio, o⟩) :=
                ⟨⟨policy, prio, o⟩, hparse, List.prefix_rfl⟩
              rw [wp_bind]
              refine wp_jitterRuns lasting_jitterReady runs n hready fun gs hlength hbroken => ?_
              rw [wp_bind, printf, wp_ask]
              refine ⟨fun _ => lasting_jitterReady _ _ hready, fun _ => ?_⟩
              exact .inr ⟨rfl, fun hruns => ⟨⟨policy, prio, o⟩, gs, hparse, hlength,
                fun g hg => ⟨hbroken g hg, jitter_exact⟩,
                average_between (hlength ▸ hruns) hlength, rfl⟩⟩

/-- Nothing is measured before the policy is accepted. A run that ends with 0 has printed the
greatest distance of each group of wake-ups, each group broken by a failing sleep at most,
and then the average of what it has printed. -/
theorem measure_jitter_of_run (runs n : ℕ) (qnx : Bool) (args : List Text)
    (env : Environment Answer) :
    (∀ past e rest, (run env (jitterMain runs n qnx args) []).1 = past ++ e :: rest →
      Measures e.1 → JitterReady qnx args past) ∧
    ∀ status, (run env (jitterMain runs n qnx args) []).2 = .result status →
      JitterEnds runs n qnx args status (run env (jitterMain runs n qnx args) []).1 :=
  Contract.history_of_wp (wp_jitterMain runs n qnx args) env

end JitterRuns

end MicrokernelBenchmark.LatencyPrograms
