import MicrokernelBenchmark.Timespec
import MicrokernelBenchmark.TransitionSystem

/-!
# Control of the message queue benchmarks

Parent and child of `ipc_latency` and `ipc_mq_latency` run the same two loops:
the parent sends, receives and folds the latency of the round, the child
receives and sends back. This module has their labels and program counters. A
label carries the clock reading which the parent takes next to its call and
whether the call succeeds; a failing parent call breaks out of the loop and a
failing child call exits.
-/
namespace MicrokernelBenchmark.EchoLoop
open TransitionSystem

inductive Action where
  | parentSend (start : Timespec) (outcome : Outcome)
  | parentReceive (finish : Timespec) (outcome : Outcome)
  | parentReport
  | parentKill
  | childReceive (outcome : Outcome)
  | childSend (outcome : Outcome)
  | childClose
deriving DecidableEq, Repr

/-- `loop` is the head of the measuring loop, `report` the point after the
result is printed and `killed` the point after the child is sent SIGKILL. -/
inductive ParentPc where
  | loop
  | receive
  | report
  | killed
deriving DecidableEq, Repr

inductive ChildPc where
  | loop
  | send
  | exitSuccess
  | exitFailure
  | killed
deriving DecidableEq, Repr

/-- SIGKILL ends a running child; it does not change how an exited one exited. -/
def ChildPc.kill : ChildPc → ChildPc
  | .loop | .send => .killed
  | c => c

def ParentPc.reported (p : ParentPc) : Bool := p == .report || p == .killed

/-- No call of the parent fails. -/
def Action.parentSucceeds : Action → Bool
  | .parentSend _ .failure | .parentReceive _ .failure => false
  | _ => true

/-- A call of the child fails. -/
def Action.childFails : Action → Bool
  | .childReceive .failure | .childSend .failure => true
  | _ => false

/-- The calls of the measuring loop and the report behind it. -/
def measures : Action → Bool
  | .parentSend _ _ | .parentReceive _ _ | .parentReport => true
  | _ => false

def ofChild : Action → Bool
  | .childReceive _ | .childSend _ | .childClose => true
  | _ => false

/-- Where a call leaves the parent. -/
def parentAfter (p : ParentPc) : Action → ParentPc
  | .parentSend _ .success => .receive
  | .parentReceive _ .success => .loop
  | .parentSend _ .failure | .parentReceive _ .failure | .parentReport => .report
  | .parentKill => .killed
  | .childReceive _ | .childSend _ | .childClose => p

/-- Neither running nor blocked in a call. -/
def dead : ChildPc → Bool
  | .loop | .send => false
  | _ => true

/-- No call of either process fails. -/
def Action.succeeds (a : Action) : Bool := a.parentSucceeds && !a.childFails

theorem parentSucceeds_of_succeeds {a : Action} (h : a.succeeds = true) : a.parentSucceeds = true :=
  (Bool.and_eq_true_iff.mp h).1

theorem childFails_of_succeeds {a : Action} (h : a.succeeds = true) : a.childFails = false := by
  simpa using (Bool.and_eq_true_iff.mp h).2

/-- The fold of the measuring loop over one latency. -/
def foldLatency (maxLatency latency : ℤ) : ℤ :=
  if latency > maxLatency then latency else maxLatency

/-- One measured round: its two clock readings and the message received. -/
structure Round (μ : Type*) where
  start : Timespec
  finish : Timespec
  reply : μ
deriving DecidableEq, Repr

def Round.latency {μ : Type*} (r : Round μ) : ℤ := timespecDiffNs r.finish r.start

def maxLatencyOf {μ : Type*} (rounds : List (Round μ)) : ℤ :=
  rounds.foldl (fun acc r => foldLatency acc r.latency) 0

theorem maxLatencyOf_snoc {μ : Type*} (rounds : List (Round μ)) (r : Round μ) :
    maxLatencyOf (rounds ++ [r]) = foldLatency (maxLatencyOf rounds) r.latency := by
  simp [maxLatencyOf]

theorem dead_kill (c : ChildPc) : dead c.kill = true := by cases c <;> rfl

theorem parentAfter_ofChild {p : ParentPc} {a : Action} (h : ofChild a = true) :
    parentAfter p a = p := by
  cases a with
  | childReceive | childSend | childClose => rfl
  | _ => cases h

theorem parentAfter_measures {p : ParentPc} {a : Action} (h : measures a = true) :
    parentAfter p a ≠ .killed := by
  cases a with
  | parentSend _ o | parentReceive _ o => cases o <;> exact ParentPc.noConfusion
  | parentReport => exact ParentPc.noConfusion
  | _ => cases h

theorem ofChild_or_measures {a : Action} (h : a ≠ .parentKill) :
    ofChild a = true ∨ measures a = true := by
  cases a with
  | parentKill => exact absurd rfl h
  | parentSend | parentReceive | parentReport => exact .inr rfl
  | childReceive | childSend | childClose => exact .inl rfl

@[simp] theorem ChildPc.kill_eq_loop (c : ChildPc) : c.kill ≠ .loop := by cases c <;> simp [kill]

@[simp] theorem ChildPc.kill_eq_send (c : ChildPc) : c.kill ≠ .send := by cases c <;> simp [kill]

@[simp] theorem ChildPc.kill_eq_exitFailure (c : ChildPc) :
    c.kill = .exitFailure ↔ c = .exitFailure := by cases c <;> simp [kill]

@[simp] theorem ChildPc.kill_eq_exitSuccess (c : ChildPc) :
    c.kill = .exitSuccess ↔ c = .exitSuccess := by cases c <;> simp [kill]

end MicrokernelBenchmark.EchoLoop
