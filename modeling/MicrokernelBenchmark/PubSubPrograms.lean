import MicrokernelBenchmark.ChildTable
import MicrokernelBenchmark.PubSubSeries

/-!
# The whole of the burst and of the QoS sweep benchmark

`main` of `burst_pubsub_test` runs one test and `main` of `qos_sweep_test` three,
each of them the run of `PubSubTest`, between the start and the stop of a broker.
The broker is a child that may end at any time, before and after it has become
the broker program. A test which cannot make a client leaves the whole program.

`signals` keeps what the broker was whenever a signal was sent; no step reads it.
-/
namespace MicrokernelBenchmark.PubSubPrograms
open TransitionSystem TransitionSystem.System PubSubSeries
open ChildTable (pidT)

def burstTests : ℕ := 1

/-- One for each `qos` from 0 to 2. -/
def qosSweepTests : ℕ := 3

inductive Pc where
  | fork
  | sleep
  | test
  | kill
  | waitpid
  | returned
  | exited
deriving DecidableEq, Repr

/-- A child which has ended stays until it is reaped. -/
inductive Broker where
  | absent
  | forked
  | running
  | ended
  | reaped
deriving DecidableEq, Repr

structure State where
  pc : Pc := .fork
  brokerPid : ℤ := 0
  broker : Broker := .absent
  series : Series
  signals : List (ℤ × Broker) := []

inductive Action where
  | fork (o : Option ℕ+)
  | sleep
  | test (a : PubSubTest.Action)
  | print
  | kill
  | waitpid
  | execlp (o : Outcome)
  | brokerEnds

/-- The next test, or else `stop_broker`, which does nothing without a broker. -/
def nextPc (tests : ℕ) (s : State) : Pc :=
  if s.series.printed.length < tests then .test else if 0 < s.brokerPid then .kill else .returned

def tick (tests count : ℕ) : Action → State → Option State
  | .fork o, s =>
      if s.pc = .fork then
        some { s with
          pc := .sleep
          brokerPid := pidT o
          broker := if o.isSome then .forked else .absent }
      else none
  | .sleep, s => if s.pc = .sleep then some { s with pc := nextPc tests s } else none
  | .test a, s =>
      if s.pc = .test then
        (s.series.move count a).map fun u =>
          { s with pc := if u.test.main = .exited then .exited else .test, series := u }
      else none
  | .print, s =>
      if s.pc = .test then
        (s.series.print count).map fun u =>
          { s with pc := nextPc tests { s with series := u }, series := u }
      else none
  | .kill, s =>
      if s.pc = .kill then
        some { s with pc := .waitpid, signals := s.signals ++ [(s.brokerPid, s.broker)] }
      else none
  | .waitpid, s =>
      if s.pc = .waitpid ∧ s.broker = .ended then
        some { s with pc := .returned, broker := .reaped }
      else none
  | .execlp o, s =>
      if s.broker = .forked then
        some { s with broker := match o with | .success => .running | .failure => .ended }
      else none
  | .brokerEnds, s =>
      if s.broker = .forked ∨ s.broker = .running then some { s with broker := .ended } else none

def main (tests count : ℕ) : System Action State :=
  ⟨{ series := .first count }, tick tests count⟩

/-- The send time that an action takes. -/
def Action.sends : Action → List ℤ
  | .test a => a.sends
  | _ => []

section Places
variable {tests count : ℕ} {s t : State}

def NoBroker (s : State) : Prop := s.brokerPid = -1 ∧ s.broker = .absent

/-- Ended or not, the child has not been reaped. -/
def Unreaped (b : Broker) : Prop := b ≠ .absent ∧ b ≠ .reaped

def Child (s : State) : Prop := 0 < s.brokerPid ∧ Unreaped s.broker

/-- The one signal went to the broker while it had not been reaped. -/
def Signalled (s : State) : Prop := ∃ b, Unreaped b ∧ s.signals = [(s.brokerPid, b)]

/-- What is known of the broker and of the number of printed results, place by place. -/
def Place (tests : ℕ) (s : State) : Pc → Prop
  | .fork => s.broker = .absent ∧ s.signals = [] ∧ s.series.printed = []
  | .sleep => (NoBroker s ∨ Child s) ∧ s.signals = [] ∧ s.series.printed = []
  | .test | .exited => (NoBroker s ∨ Child s) ∧ s.signals = [] ∧ s.series.printed.length < tests
  | .kill => Child s ∧ s.signals = [] ∧ s.series.printed.length = tests
  | .waitpid => Child s ∧ Signalled s ∧ s.series.printed.length = tests
  | .returned =>
      (NoBroker s ∧ s.signals = [] ∨ 0 < s.brokerPid ∧ s.broker = .reaped ∧ Signalled s) ∧
        s.series.printed.length = tests

structure Holds (tests count : ℕ) (s : State) : Prop where
  place : Place tests s s.pc
  fresh : Fresh count s.series

theorem place_next (h : NoBroker s ∨ Child s) (hsignals : s.signals = [])
    (hprinted : s.series.printed.length ≤ tests) : Place tests s (nextPc tests s) := by
  rw [nextPc]
  split
  case isTrue hlt => exact ⟨h, hsignals, hlt⟩
  case isFalse hle =>
    have hlength : s.series.printed.length = tests := by omega
    split
    case isTrue hpid =>
      exact ⟨h.resolve_left fun hnone => by rw [hnone.1] at hpid; omega, hsignals, hlength⟩
    case isFalse hpid =>
      exact ⟨.inl ⟨h.resolve_right fun hchild => hpid hchild.1, hsignals⟩, hlength⟩

/-- A move of the child keeps what is known, as long as it is not reaped. -/
theorem place_broker {b : Broker} (h : Place tests s s.pc) (hs : Unreaped s.broker)
    (hb : Unreaped b) : Place tests { s with broker := b } s.pc := by
  have hstarted : NoBroker s ∨ Child s →
      NoBroker { s with broker := b } ∨ Child { s with broker := b } := by
    rintro (hnone | hchild)
    · exact absurd hnone.2 hs.1
    · exact .inr ⟨hchild.1, hb⟩
  cases hpc : s.pc with
  | fork =>
      rw [hpc] at h
      exact absurd h.1 hs.1
  | sleep =>
      rw [hpc] at h
      exact ⟨hstarted h.1, h.2⟩
  | test =>
      rw [hpc] at h
      exact ⟨hstarted h.1, h.2⟩
  | exited =>
      rw [hpc] at h
      exact ⟨hstarted h.1, h.2⟩
  | kill =>
      rw [hpc] at h
      exact ⟨⟨h.1.1, hb⟩, h.2⟩
  | waitpid =>
      rw [hpc] at h
      exact ⟨⟨h.1.1, hb⟩, h.2⟩
  | returned =>
      rw [hpc] at h
      rcases h.1 with hnone | hreaped
      · exact absurd hnone.1.2 hs.1
      · exact absurd hreaped.2.1 hs.2

theorem holds_init (tests count : ℕ) : Holds tests count (main tests count).init :=
  ⟨⟨rfl, rfl, rfl⟩, fresh_first count⟩

theorem holds_tick {a : Action} (h : Holds tests count s) (ht : tick tests count a s = some t) :
    Holds tests count t := by
  have hplace := h.place
  cases a with
  | fork o =>
      obtain ⟨hpc, ht⟩ := Option.ite_none_right_eq_some.mp ht
      rw [hpc] at hplace
      cases o with
      | none =>
          rw [← Option.some.inj ht]
          exact ⟨⟨.inl ⟨rfl, rfl⟩, hplace.2⟩, h.fresh⟩
      | some p =>
          rw [← Option.some.inj ht]
          have hpos : (0 : ℤ) < p := by exact_mod_cast p.pos
          exact ⟨⟨.inr ⟨hpos, nofun, nofun⟩, hplace.2⟩, h.fresh⟩
  | sleep =>
      obtain ⟨hpc, ht⟩ := Option.ite_none_right_eq_some.mp ht
      rw [hpc] at hplace
      rw [← Option.some.inj ht]
      refine ⟨place_next hplace.1 hplace.2.1 ?_, h.fresh⟩
      rw [hplace.2.2]
      exact Nat.zero_le _
  | test a =>
      obtain ⟨hpc, ht⟩ := Option.ite_none_right_eq_some.mp ht
      obtain ⟨u, hu, rfl⟩ := Option.map_eq_some_iff.mp ht
      rw [hpc] at hplace
      have hlt : u.printed.length < tests := printed_move hu ▸ hplace.2.2
      refine ⟨?_, h.fresh.move hu⟩
      dsimp only
      split <;> exact ⟨hplace.1, hplace.2.1, hlt⟩
  | print =>
      obtain ⟨hpc, ht⟩ := Option.ite_none_right_eq_some.mp ht
      obtain ⟨u, hu, rfl⟩ := Option.map_eq_some_iff.mp ht
      rw [hpc] at hplace
      have hlt : s.series.printed.length < tests := hplace.2.2
      refine ⟨place_next (s := { s with series := u }) hplace.1 hplace.2.1 ?_, h.fresh.print hu⟩
      rw [length_print hu]
      exact hlt
  | kill =>
      obtain ⟨hpc, ht⟩ := Option.ite_none_right_eq_some.mp ht
      rw [hpc] at hplace
      obtain ⟨hchild, hsignals, hlength⟩ := hplace
      rw [← Option.some.inj ht]
      refine ⟨⟨hchild, ⟨s.broker, hchild.2, ?_⟩, hlength⟩, h.fresh⟩
      rw [hsignals]
      rfl
  | waitpid =>
      obtain ⟨⟨hpc, -⟩, ht⟩ := Option.ite_none_right_eq_some.mp ht
      rw [hpc] at hplace
      rw [← Option.some.inj ht]
      exact ⟨⟨.inr ⟨hplace.1.1, rfl, hplace.2.1⟩, hplace.2.2⟩, h.fresh⟩
  | execlp o =>
      obtain ⟨hforked, ht⟩ := Option.ite_none_right_eq_some.mp ht
      rw [← Option.some.inj ht]
      refine ⟨place_broker hplace ?_ ?_, h.fresh⟩
      · rw [hforked]
        exact ⟨nofun, nofun⟩
      · cases o <;> exact ⟨nofun, nofun⟩
  | brokerEnds =>
      obtain ⟨hgoes, ht⟩ := Option.ite_none_right_eq_some.mp ht
      rw [← Option.some.inj ht]
      refine ⟨place_broker hplace ?_ ⟨nofun, nofun⟩, h.fresh⟩
      rcases hgoes with hforked | hrunning
      · rw [hforked]
        exact ⟨nofun, nofun⟩
      · rw [hrunning]
        exact ⟨nofun, nofun⟩

theorem holds_of_run {as : List Action} (h : (main tests count).Run as (main tests count).init s) :
    Holds tests count s :=
  h.history (P := fun _ s => Holds tests count s) (holds_init tests count)
    fun _ _ _ _ hs ht => holds_tick hs ht

theorem tick_sends {a : Action} (h : Holds tests count s) (ht : tick tests count a s = some t) :
    t.series.sends count = s.series.sends count ++ a.sends := by
  have hkept (hseries : t.series = s.series) (ha : a.sends = []) :
      t.series.sends count = s.series.sends count ++ a.sends := by
    rw [hseries, ha, List.append_nil]
  cases a with
  | test a =>
      obtain ⟨-, ht⟩ := Option.ite_none_right_eq_some.mp ht
      obtain ⟨u, hu, rfl⟩ := Option.map_eq_some_iff.mp ht
      exact sends_move hu
  | print =>
      obtain ⟨-, ht⟩ := Option.ite_none_right_eq_some.mp ht
      obtain ⟨u, hu, rfl⟩ := Option.map_eq_some_iff.mp ht
      exact (h.fresh.sends_print hu).trans (List.append_nil _).symm
  | fork _ | sleep | kill | waitpid | execlp _ | brokerEnds =>
      obtain ⟨-, ht⟩ := Option.ite_none_right_eq_some.mp ht
      exact hkept (congrArg State.series (Option.some.inj ht)).symm rfl

theorem sends_of_run {as : List Action}
    (h : (main tests count).Run as (main tests count).init s) :
    s.series.sends count = as.flatMap Action.sends := by
  have hboth := h.history
    (P := fun as s => Holds tests count s ∧ s.series.sends count = as.flatMap Action.sends)
    ⟨holds_init tests count, sends_first count⟩ fun as a u v hu ht =>
      ⟨holds_tick hu.1 ht, by simp [tick_sends hu.1 ht, hu.2]⟩
  exact hboth.2

/-- Each test begins afresh, with the arrays of the one before. What a finished test prints is
computed from its own receptions, of which there is one for each slot, and from its own send
times, which are the `count` that the run has taken behind those of the earlier tests. -/
theorem tests_fresh {as : List Action} (h : (main tests count).Run as (main tests count).init s) :
    Fresh count s.series ∧
    (∀ u ∈ s.series.finished, u.arrivals.map PubSubTest.Arrival.slot = List.range count ∧
      ∀ a ∈ u.arrivals, u.recvTimes a.slot = a.time) ∧
    s.series.sends count = as.flatMap Action.sends ∧
    (s.pc = .returned → s.series.printed.length = tests) := by
  have hholds := holds_of_run h
  refine ⟨hholds.fresh, fun u hu => hholds.fresh.receptions hu, sends_of_run h, fun hpc => ?_⟩
  have hplace := hholds.place
  rw [hpc] at hplace
  exact hplace.2

theorem Place.signals (h : Place tests s s.pc) :
    s.signals = [] ∨ 0 < s.brokerPid ∧ Signalled s := by
  cases hpc : s.pc with
  | fork | sleep | test | exited | kill =>
      rw [hpc] at h
      exact .inl h.2.1
  | waitpid =>
      rw [hpc] at h
      exact .inr ⟨h.1.1, h.2.1⟩
  | returned =>
      rw [hpc] at h
      exact h.1.imp (fun hnone => hnone.2) fun hreaped => ⟨hreaped.1, hreaped.2.2⟩

/-- Only `start_broker` changes the pid, and no other step leaves it. -/
theorem tick_brokerPid {a : Action} (h : tick tests count a s = some t) :
    (∃ o, a = .fork o ∧ t.brokerPid = pidT o) ∨
      t.brokerPid = s.brokerPid ∧ (s.pc = .fork → t.pc = .fork) := by
  cases a with
  | fork o =>
      obtain ⟨-, ht⟩ := Option.ite_none_right_eq_some.mp h
      exact .inl ⟨o, rfl, (congrArg State.brokerPid (Option.some.inj ht)).symm⟩
  | sleep =>
      obtain ⟨hpc, ht⟩ := Option.ite_none_right_eq_some.mp h
      exact .inr ⟨(congrArg State.brokerPid (Option.some.inj ht)).symm, by simp [hpc]⟩
  | test a =>
      obtain ⟨hpc, ht⟩ := Option.ite_none_right_eq_some.mp h
      obtain ⟨u, -, rfl⟩ := Option.map_eq_some_iff.mp ht
      exact .inr ⟨rfl, by simp [hpc]⟩
  | print =>
      obtain ⟨hpc, ht⟩ := Option.ite_none_right_eq_some.mp h
      obtain ⟨u, -, rfl⟩ := Option.map_eq_some_iff.mp ht
      exact .inr ⟨rfl, by simp [hpc]⟩
  | kill =>
      obtain ⟨hpc, ht⟩ := Option.ite_none_right_eq_some.mp h
      exact .inr ⟨(congrArg State.brokerPid (Option.some.inj ht)).symm, by simp [hpc]⟩
  | waitpid =>
      obtain ⟨⟨hpc, -⟩, ht⟩ := Option.ite_none_right_eq_some.mp h
      exact .inr ⟨(congrArg State.brokerPid (Option.some.inj ht)).symm, by simp [hpc]⟩
  | execlp o =>
      obtain ⟨-, ht⟩ := Option.ite_none_right_eq_some.mp h
      exact .inr ⟨(congrArg State.brokerPid (Option.some.inj ht)).symm,
        fun hpc => (congrArg State.pc (Option.some.inj ht)).symm.trans hpc⟩
  | brokerEnds =>
      obtain ⟨-, ht⟩ := Option.ite_none_right_eq_some.mp h
      exact .inr ⟨(congrArg State.brokerPid (Option.some.inj ht)).symm,
        fun hpc => (congrArg State.pc (Option.some.inj ht)).symm.trans hpc⟩

/-- The recorded pid is what `fork` has returned. -/
theorem brokerPid_of_run {as : List Action}
    (h : (main tests count).Run as (main tests count).init s) :
    s.pc ≠ .fork → ∃ o, .fork o ∈ as ∧ s.brokerPid = pidT o := by
  refine h.history (P := fun as s => s.pc ≠ .fork → ∃ o, .fork o ∈ as ∧ s.brokerPid = pidT o) ?_ ?_
  · intro hpc
    exact absurd rfl hpc
  · intro as a u v hu ht hpc
    rcases tick_brokerPid ht with ⟨o, rfl, hpid⟩ | ⟨hpid, hstays⟩
    · exact ⟨o, List.mem_append_right as List.mem_cons_self, hpid⟩
    · obtain ⟨o, hmem, hu⟩ := hu fun hfork => hpc (hstays hfork)
      exact ⟨o, List.mem_append_left _ hmem, hpid.trans hu⟩

/-- A signal goes to the child that `fork` returned and to it only, before it is reaped. When
main returns no broker is left, and when a test leaves the program the broker stays. -/
theorem broker_stopped {as : List Action}
    (h : (main tests count).Run as (main tests count).init s) :
    (∀ x ∈ s.signals, (∃ p : ℕ+, .fork (some p) ∈ as ∧ x.1 = p) ∧ Unreaped x.2) ∧
    s.signals.length ≤ 1 ∧
    (s.pc = .waitpid → ∃ a, (a = .waitpid ∨ a = .brokerEnds) ∧ (tick tests count a s).isSome) ∧
    (s.pc = .returned → s.broker = .absent ∨ s.broker = .reaped) ∧
    (s.pc = .exited →
      s.signals = [] ∧ (NoBroker s ∨ Child s) ∧ s.series.printed.length < tests) := by
  have hplace := (holds_of_run h).place
  refine ⟨?_, ?_, fun hpc => ?_, fun hpc => ?_, fun hpc => ?_⟩
  · intro x hx
    rcases hplace.signals with hnone | ⟨hpid, b, hb, hsignals⟩
    · rw [hnone] at hx
      cases hx
    · rw [hsignals, List.mem_singleton] at hx
      rw [hx]
      refine ⟨?_, hb⟩
      have hpc : s.pc ≠ .fork := by
        intro hpc
        rw [hpc] at hplace
        rw [hplace.2.1] at hsignals
        cases hsignals
      obtain ⟨o, hmem, ho⟩ := brokerPid_of_run h hpc
      cases o with
      | none =>
          rw [ho] at hpid
          cases hpid
      | some p => exact ⟨p, hmem, ho⟩
  · rcases hplace.signals with hnone | ⟨-, b, -, hsignals⟩
    · rw [hnone]
      exact Nat.zero_le _
    · rw [hsignals]
      exact Nat.le_refl _
  · rw [hpc] at hplace
    obtain ⟨-, habsent, hreaped⟩ := hplace.1
    cases hbroker : s.broker with
    | absent => exact absurd hbroker habsent
    | reaped => exact absurd hbroker hreaped
    | ended => exact ⟨.waitpid, .inl rfl, by simp [tick, hpc, hbroker]⟩
    | forked => exact ⟨.brokerEnds, .inr rfl, by simp [tick, hbroker]⟩
    | running => exact ⟨.brokerEnds, .inr rfl, by simp [tick, hbroker]⟩
  · rw [hpc] at hplace
    exact hplace.1.imp (fun hnone => hnone.1.2) fun hreaped => hreaped.2.1
  · rw [hpc] at hplace
    exact ⟨hplace.2.1, hplace.1, hplace.2.2⟩

/-- One message, received after main has begun to wait. -/
def schedule : List Action :=
  [.fork (some 3), .execlp .success, .sleep, .test (.new .success), .test (.connect .success),
    .test (.subscribe .success), .test (.loopStart .success), .test (.stamp 5),
    .test (.publish .success), .test .lock, .test .check, .test .wait, .test (.invoke 0),
    .test .increment, .test (.store 9), .test .compare, .test .callbackLock,
    .test .callbackSignal, .test .callbackUnlock, .test .relock, .test .check, .test .unlock,
    .test .loopStop, .print, .kill, .brokerEnds, .waitpid]

theorem tests_fresh_once : ∃ s, (main burstTests 1).Run schedule (main burstTests 1).init s ∧
    s.series.sends 1 = [5] ∧ s.series.printed.length = burstTests := by
  have hrun : ∃ s, (main burstTests 1).Run schedule (main burstTests 1).init s ∧
      s.pc = .returned := ⟨_, rfl, rfl⟩
  obtain ⟨s, hrun, hpc⟩ := hrun
  obtain ⟨-, -, hsends, hreturned⟩ := tests_fresh hrun
  exact ⟨s, hrun, hsends, hreturned hpc⟩

theorem broker_stopped_once : ∃ s, (main burstTests 1).Run schedule (main burstTests 1).init s ∧
    (s.broker = .absent ∨ s.broker = .reaped) := by
  have hrun : ∃ s, (main burstTests 1).Run schedule (main burstTests 1).init s ∧
      s.pc = .returned := ⟨_, rfl, rfl⟩
  obtain ⟨s, hrun, hpc⟩ := hrun
  exact ⟨s, hrun, (broker_stopped hrun).2.2.2.1 hpc⟩

end Places

end MicrokernelBenchmark.PubSubPrograms
