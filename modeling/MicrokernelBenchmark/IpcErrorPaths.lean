import MicrokernelBenchmark.IpcProgram
import MicrokernelBenchmark.IpcMqProgram

/-!
# A child which exits on an error

Both message queue benchmarks let the child exit when one of its calls fails and
let the parent wait for an answer without a bound. A message queue reports no
end of file, so the parent's fate depends on where the one message is. The
parent's own calls succeed here; a failing one breaks out of the loop at once.

Behind its report `ipc_mq_latency` comes to its end in any case. `ipc_latency` makes
the kill and then waits for its load threads before it closes and unlinks the queue.
-/
namespace MicrokernelBenchmark.IpcErrorPaths
open TransitionSystem EchoLoop

/-- With one shared queue only a failing send of the child keeps the parent from its report
and the kill, and any load thread keeps it from the rest. With one queue per direction every
failing call of the child keeps it from its report, and nothing keeps it from the rest. -/
theorem parent_cleans_up_iff (n : ℕ) :
    (∀ (m : ℕ) (as : List IpcProgram.Action) (s : IpcProgram.State) (e : IpcLatency.State),
      (IpcProgram.main m n).Run as (IpcProgram.main m n).init s → s.exchange = some e →
      (∀ a ∈ as, a.parentSucceeds = true) →
        (¬ IpcLatency.Stranded e ∧ IpcProgram.CanKill m n s ↔
          .exchange (.childSend .failure) ∉ as) ∧
        (¬ IpcLatency.Stranded e ∧ IpcProgram.CanFinish m n s ↔
          m = 0 ∧ .exchange (.childSend .failure) ∉ as)) ∧
    (∀ (qnx : Bool) (arg : Option String) (names : IpcMqProgram.Names)
      (as : List IpcMqProgram.Action) (s : IpcMqProgram.State) (e : IpcMqLatency.State),
      (IpcMqProgram.unlinking n qnx arg names).Run as
        (IpcMqProgram.unlinking n qnx arg names).init s → s.exchange = some e →
      (∀ a ∈ as, a.parentSucceeds = true) →
        (¬ IpcMqLatency.Stranded e ∧ IpcMqProgram.CanFinish n qnx arg names s ↔
          ∀ a ∈ as, a.childFails = false)) :=
  ⟨fun _ _ _ _ h he hok => ⟨IpcProgram.canKill_iff h he hok, IpcProgram.canFinish_iff h he hok⟩,
    fun _ _ _ _ _ _ h he hok => IpcMqProgram.canFinish_iff h he hok⟩

/-- `main` up to the fork, with `m` load threads. -/
def untilFork (m : ℕ) : List IpcProgram.Action := List.replicate (m + 2) (.main .success)

/-- The child fails to receive the first message. -/
def lostReceive : List EchoLoop.Action := [.parentSend ⟨0, 5⟩ .success, .childReceive .failure]

/-- The child fails to send back the first message. -/
def lostReply : List EchoLoop.Action :=
  [.parentSend ⟨0, 5⟩ .success, .childReceive .success, .childSend .failure]

/-- Nothing is linked to any name. -/
def noNames : IpcMqProgram.Names where
  linked _ := none
  queues _ := .empty
  next := 0
  created _ _ h := nomatch h

def mqUntilFork : List IpcMqProgram.Action := List.replicate 6 (.main .success)

theorem parent_cleans_up_unless_reply_lost :
    (∃ s e, (IpcProgram.main 0 2).Run (untilFork 0 ++ lostReceive.map .exchange)
        (IpcProgram.main 0 2).init s ∧ s.exchange = some e ∧ e.child = .exitFailure ∧
        IpcProgram.CanFinish 0 2 s) ∧
    ∃ s e, (IpcMqProgram.unlinking 2 false none noNames).Run
        (mqUntilFork ++ lostReceive.map .exchange)
        (IpcMqProgram.unlinking 2 false none noNames).init s ∧ s.exchange = some e ∧
        e.child = .exitFailure ∧
        ¬ (¬ IpcMqLatency.Stranded e ∧ IpcMqProgram.CanFinish 2 false none noNames s) := by
  constructor
  · have h : ∃ s e, (IpcProgram.main 0 2).Run (untilFork 0 ++ lostReceive.map .exchange)
        (IpcProgram.main 0 2).init s ∧ s.exchange = some e ∧ e.child = .exitFailure :=
      ⟨_, _, rfl, rfl, rfl⟩
    obtain ⟨s, e, hrun, he, hc⟩ := h
    have hiff := ((parent_cleans_up_iff 2).1 0 _ s e hrun he (by decide)).2
    exact ⟨s, e, hrun, he, hc, (hiff.mpr (by decide)).2⟩
  · have h : ∃ s e, (IpcMqProgram.unlinking 2 false none noNames).Run
        (mqUntilFork ++ lostReceive.map .exchange)
        (IpcMqProgram.unlinking 2 false none noNames).init s ∧ s.exchange = some e ∧
        e.child = .exitFailure := ⟨_, _, rfl, rfl, rfl⟩
    obtain ⟨s, e, hrun, he, hc⟩ := h
    refine ⟨s, e, hrun, he, hc, fun hcan => ?_⟩
    have hall := ((parent_cleans_up_iff 2).2 false none noNames _ s e hrun he (by decide)).mp hcan
    exact absurd (hall (.exchange (.childReceive .failure)) (by decide)) (by decide)

theorem parent_waits_for_lost_reply :
    (¬ ∀ (as : List IpcProgram.Action) (s : IpcProgram.State) (e : IpcLatency.State),
      (IpcProgram.main IpcShutdown.numLoadThreads IpcLatency.iterations).Run as
        (IpcProgram.main IpcShutdown.numLoadThreads IpcLatency.iterations).init s →
      s.exchange = some e → (∀ a ∈ as, a.parentSucceeds = true) → ¬ IpcLatency.Stranded e) ∧
    ¬ ∀ (as : List IpcMqProgram.Action) (s : IpcMqProgram.State) (e : IpcMqLatency.State),
      (IpcMqProgram.unlinking IpcMqLatency.iterations false none noNames).Run as
        (IpcMqProgram.unlinking IpcMqLatency.iterations false none noNames).init s →
      s.exchange = some e → (∀ a ∈ as, a.parentSucceeds = true) →
        ¬ (IpcMqLatency.Stranded e ∧ e.inFlight = 0) := by
  constructor
  · intro h
    have hrun : ∃ s e, (IpcProgram.main IpcShutdown.numLoadThreads IpcLatency.iterations).Run
        (untilFork IpcShutdown.numLoadThreads ++ lostReply.map .exchange)
        (IpcProgram.main IpcShutdown.numLoadThreads IpcLatency.iterations).init s ∧
        s.exchange = some e ∧ IpcLatency.Stranded e :=
      ⟨_, _, rfl, rfl, .inr rfl, rfl, rfl⟩
    obtain ⟨s, e, hrun, he, hstranded⟩ := hrun
    exact h _ s e hrun he (by decide) hstranded
  · intro h
    have hrun : ∃ s e, (IpcMqProgram.unlinking IpcMqLatency.iterations false none noNames).Run
        (mqUntilFork ++ lostReply.map .exchange)
        (IpcMqProgram.unlinking IpcMqLatency.iterations false none noNames).init s ∧
        s.exchange = some e ∧ IpcMqLatency.Stranded e ∧ e.inFlight = 0 :=
      ⟨_, _, rfl, rfl, ⟨.inr rfl, rfl, rfl⟩, rfl⟩
    obtain ⟨s, e, hrun, he, hstranded⟩ := hrun
    exact h _ s e hrun he (by decide) hstranded

end MicrokernelBenchmark.IpcErrorPaths
