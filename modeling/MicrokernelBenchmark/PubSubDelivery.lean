import MicrokernelBenchmark.PubSubTest
import MicrokernelBenchmark.MessageDelivery

/-!
# The publish and subscribe run over a network

The run of `PubSubTest` together with the delivery of its messages. A failing
connect, subscribe or start of the network thread leaves the link down, a
publish hands its message to the network or drops it, and the callback is
invoked by deliveries only.
-/
namespace MicrokernelBenchmark.PubSubDelivery
open TransitionSystem MessageDelivery PubSubTest

inductive Event where
  | step (a : Action)
  | redeliver (msg : ℕ)
  | lose (msg : ℕ)
deriving DecidableEq, Repr

def Event.program : Event → Option Action
  | .step a => some a
  | .redeliver msg => some (.invoke msg)
  | .lose _ => none

def Event.network : Event → Option Op
  | .step (.connect .failure) | .step (.subscribe .failure) | .step (.loopStart .failure) =>
      some .down
  | .step (.publish o) => some (.publish o)
  | .step (.invoke msg) => some (.deliver msg)
  | .step _ => none
  | .redeliver msg => some (.redeliver msg)
  | .lose msg => some (.lose msg)

abbrev Config := PubSubTest.State × MessageDelivery.State

def pubSub (count : ℕ) (qos : Qos) (ordered : Bool) (sendTimes recvTimes : ℕ → ℤ) :
    System Event Config :=
  (run count sendTimes recvTimes).sync (delivery qos ordered) Event.program Event.network

def runBurstTest (sendTimes recvTimes : ℕ → ℤ) : System Event Config :=
  pubSub 10000 .atMostOnce true sendTimes recvTimes

def runTest (sendTimes recvTimes : ℕ → ℤ) : System Event Config :=
  pubSub 100 .atMostOnce true sendTimes recvTimes

def runQosTest (qos : Qos) (sendTimes recvTimes : ℕ → ℤ) : System Event Config :=
  pubSub 1000 qos true sendTimes recvTimes

/-- What program and network know of each other. -/
structure Joined (count : ℕ) (qos : Qos) (p : Config) : Prop where
  program : Invariant count p.1
  issued : p.2.issued = p.1.i
  total : p.2.total ≤ p.2.issued
  starting : p.1.main.starting = true → p.1.running = false ∧ p.1.i = 0 ∧ p.2.delivered = []
  accepted : qos ≠ .atLeastOnce → p.1.accepted = min count p.2.delivered.length

theorem joined_init (count : ℕ) (qos : Qos) (ordered : Bool) (sendTimes recvTimes : ℕ → ℤ) :
    Joined count qos (pubSub count qos ordered sendTimes recvTimes).init where
  program := invariant_init count sendTimes recvTimes
  issued := rfl
  total := Nat.zero_le 0
  starting := fun _ => ⟨rfl, rfl, rfl⟩
  accepted := by simp [pubSub, System.sync, run, delivery, State.accepted, CallbackPc.receiving]

section Steps
variable {count : ℕ} {qos : Qos} {ordered : Bool} {sendTimes recvTimes : ℕ → ℤ}
variable {e : Event} {p q : Config}

theorem publishes_eq (e : Event) :
    e.program.elim 0 Action.publishes = e.network.elim 0 Op.publishes := by
  cases e with
  | step a => cases a with
    | connect o | subscribe o | loopStart o => cases o <;> rfl
    | _ => rfl
  | _ => rfl

theorem delivers_step {a : Action} (ha : ∀ msg, a ≠ .invoke msg) :
    (Event.step a).network.elim [] Op.delivers = [] := by
  cases a with
  | invoke msg => exact absurd rfl (ha msg)
  | connect o | subscribe o | loopStart o => cases o <;> rfl
  | _ => rfl

theorem share_program {o : Option Action} {s t : PubSubTest.State}
    (h : (run count sendTimes recvTimes).share o s = some t) :
    t.i = s.i + o.elim 0 Action.publishes := by
  cases o with
  | none => exact Option.some.inj h ▸ rfl
  | some a => exact tick_i h

theorem share_network {o : Option Op} {u v : MessageDelivery.State}
    (h : (delivery qos ordered).share o u = some v) :
    v.issued = u.issued + o.elim 0 Op.publishes ∧
    v.delivered = u.delivered ++ o.elim [] Op.delivers ∧
    v.total + o.elim 0 Op.loses = u.total + o.elim 0 Op.sends := by
  cases o with
  | none => obtain rfl := Option.some.inj h; simp
  | some op => exact ⟨tick_issued h, tick_delivered h, tick_total h⟩

theorem sends_le (o : Option Op) : o.elim 0 Op.sends ≤ o.elim 0 Op.publishes := by
  cases o with
  | none => exact le_refl 0
  | some op => exact op.sends_le

theorem Joined.starting_tick (h : Joined count qos p)
    (ht : (pubSub count qos ordered sendTimes recvTimes).tick e p = some q)
    (hq : q.1.main.starting = true) :
    q.1.running = false ∧ q.1.i = 0 ∧ q.2.delivered = [] := by
  have hshare := System.sync_tick.mp ht
  have hi := share_program hshare.1
  have hdelivered := (share_network hshare.2).2.1
  have hidle (hm : p.1.main.starting = true) : p.1.running = false ∧ p.1.callback = .idle :=
    ⟨(h.starting hm).1, h.program.stopped (h.starting hm).1⟩
  cases e with
  | lose msg =>
      have heq : p.1 = q.1 := Option.some.inj hshare.1
      have hp := h.starting (by rwa [heq])
      rw [hdelivered, ← heq, hp.2.2]
      exact ⟨hp.1, hp.2.1, rfl⟩
  | redeliver msg =>
      have hback := tick_starting (a := .invoke msg) hshare.1 hq hidle
      simp [Action.ofCallback] at hback
  | step a =>
      obtain ⟨hback, hr, ho, hpub⟩ := tick_starting (a := a) hshare.1 hq hidle
      have hp := h.starting hback
      rw [hdelivered, hi, hp.2.1, hp.2.2,
        delivers_step fun msg ha => by simp [ha, Action.ofCallback] at ho]
      exact ⟨hr, by simpa [Event.program] using hpub, rfl⟩

theorem Joined.accepted_tick (h : Joined count qos p)
    (ht : (pubSub count qos ordered sendTimes recvTimes).tick e p = some q)
    (hq : qos ≠ .atLeastOnce) : q.1.accepted = min count q.2.delivered.length := by
  have hshare := System.sync_tick.mp ht
  have hdelivered := (share_network hshare.2).2.1
  have hp := h.accepted hq
  cases e with
  | lose msg =>
      have heq : p.1 = q.1 := Option.some.inj hshare.1
      rw [hdelivered, ← heq, hp]
      simp [Event.network, Op.delivers]
  | redeliver msg =>
      have hu := hshare.2
      simp only [Event.network, System.share, delivery, MessageDelivery.tick,
        Option.ite_none_right_eq_some] at hu
      exact absurd hu.1.2.1 hq
  | step a =>
      by_cases ha : ∃ msg, a = .invoke msg
      · obtain ⟨msg, rfl⟩ := ha
        rw [tick_invoke h.program hshare.1, hdelivered, hp]
        simp only [Event.network, Option.elim, Op.delivers, List.length_append,
          List.length_singleton]
        omega
      · have ha : ∀ msg, a ≠ .invoke msg := fun msg hm => ha ⟨msg, hm⟩
        rw [tick_accepted hshare.1 ha, hdelivered, delivers_step ha, hp, List.append_nil]

theorem Joined.tick (h : Joined count qos p)
    (ht : (pubSub count qos ordered sendTimes recvTimes).tick e p = some q) :
    Joined count qos q where
  program := by
    have hs := (System.sync_tick.mp ht).1
    cases hp : e.program with
    | none => rw [hp] at hs; exact Option.some.inj hs ▸ h.program
    | some a => rw [hp] at hs; exact h.program.tick hs
  issued := by
    have hshare := System.sync_tick.mp ht
    rw [(share_network hshare.2).1, share_program hshare.1, publishes_eq, h.issued]
  total := by
    have hnet := share_network (System.sync_tick.mp ht).2
    have hle := sends_le e.network
    have hp := h.total
    omega
  starting := h.starting_tick ht
  accepted := h.accepted_tick ht

end Steps

end MicrokernelBenchmark.PubSubDelivery
