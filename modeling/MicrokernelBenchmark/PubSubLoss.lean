import MicrokernelBenchmark.PubSubDelivery

/-!
# Message loss in the publish and subscribe benchmarks

Main waits for exactly `COUNT` receptions while at most once delivery promises
none. A run in which nothing has been lost can be continued to the statistics;
a run in which one message or the link has been lost never gets there, since
the count stays below `COUNT` from then on.
-/
namespace MicrokernelBenchmark.PubSubLoss
open TransitionSystem MessageDelivery PubSubTest PubSubDelivery

/-- Some message, or the link for all of them, is lost with this event. -/
def Event.loses : Event → Bool
  | .step (.connect .failure) | .step (.subscribe .failure) | .step (.loopStart .failure)
  | .step (.publish .failure) | .lose _ => true
  | _ => false

/-- Every message is issued, none is under way and main waits for more. -/
def Stuck (count : ℕ) (p : Config) : Prop :=
  p.1.i = count ∧ p.2.inFlight = [] ∧ p.1.main = .waiting ∧ p.1.callback = .idle ∧
    p.1.recvCount < count

def CanFinish (M : System Event Config) (p : Config) : Prop :=
  ∃ es q, M.Run es p q ∧ (q.1.main = .statistics ∨ q.1.main = .exited)

/-- Nothing has been lost. -/
structure Intact (p : Config) : Prop where
  up : p.2.up = true
  total : p.2.total = p.2.issued
  running : p.1.main.starting = false → p.1.main ≠ .statistics → p.1.running = true

/-- The messages delivered, under way and to come are fewer than the target. -/
def Doomed (count : ℕ) (p : Config) : Prop :=
  (p.1.main ≠ .new ∧ p.1.main ≠ .exited) ∧
    (p.2.up = false ∧ p.2.delivered = [] ∨ p.2.total + (count - p.2.issued) < count)

theorem intact_init (count : ℕ) (ordered : Bool) (sendTimes recvTimes : ℕ → ℤ) :
    Intact (pubSub count .atMostOnce ordered sendTimes recvTimes).init where
  up := rfl
  total := rfl
  running := by simp [pubSub, System.sync, run, MainPc.starting]

section Steps
variable {count : ℕ} {ordered : Bool} {sendTimes recvTimes : ℕ → ℤ} {e : Event} {p q : Config}

theorem sends_eq (he : Event.loses e = false) :
    e.network.elim 0 Op.sends = e.network.elim 0 Op.publishes ∧ e.network.elim 0 Op.loses = 0 := by
  cases e with
  | lose m => simp [Event.loses] at he
  | redeliver m => exact ⟨rfl, rfl⟩
  | step a =>
      cases a with
      | publish o | connect o | subscribe o | loopStart o =>
          cases o <;> simp_all [Event.loses, Event.network, Op.sends, Op.publishes, Op.loses]
      | _ => exact ⟨rfl, rfl⟩

theorem share_up {u v : MessageDelivery.State} (he : Event.loses e = false)
    (h : (delivery .atMostOnce ordered).share e.network u = some v) : v.up = u.up := by
  cases e with
  | lose m => simp [Event.loses] at he
  | redeliver m => simp [Event.network, System.share, delivery, MessageDelivery.tick] at h
  | step a =>
      cases a with
      | publish o | connect o | subscribe o | loopStart o =>
          cases o <;> simp only [Event.loses, Bool.true_eq_false] at he
          exact Option.some.inj h ▸ rfl
      | invoke m =>
          simp only [Event.network, System.share, delivery, MessageDelivery.tick,
            Option.ite_none_right_eq_some, Option.some.injEq] at h
          exact h.2 ▸ rfl
      | _ => exact Option.some.inj h ▸ rfl

theorem Intact.tick (h : Intact p) (he : Event.loses e = false)
    (ht : (pubSub count .atMostOnce ordered sendTimes recvTimes).tick e p = some q) :
    Intact q := by
  have hshare := System.sync_tick.mp ht
  refine ⟨(share_up he hshare.2).trans h.up, ?_, ?_⟩
  · have hnet := share_network hshare.2
    have hsends := sends_eq he
    have htotal := h.total
    omega
  · cases e with
    | lose m => simp [Event.loses] at he
    | redeliver m =>
        exact tick_running (a := .invoke m) hshare.1 (by simp) h.running
    | step a =>
        refine tick_running hshare.1 (fun ha => ?_) h.running
        simp [ha, Event.loses] at he

theorem share_started {o : Option Action} {s t : PubSubTest.State}
    (hs : s.main ≠ .new ∧ s.main ≠ .exited)
    (h : (run count sendTimes recvTimes).share o s = some t) :
    t.main ≠ .new ∧ t.main ≠ .exited := by
  cases o with
  | none => exact Option.some.inj h ▸ hs
  | some a => exact tick_started h hs.1 hs.2

theorem share_down {o : Option Op} {u v : MessageDelivery.State}
    (hu : u.up = false ∧ u.delivered = []) (h : (delivery .atMostOnce ordered).share o u = some v) :
    v.up = false ∧ v.delivered = [] := by
  cases o with
  | none => exact Option.some.inj h ▸ hu
  | some op =>
      have hstay := tick_down hu.1 h
      exact ⟨hstay.1, hstay.2.trans hu.2⟩

theorem Doomed.tick (h : Doomed count p) (hq : Joined count .atMostOnce q)
    (ht : (pubSub count .atMostOnce ordered sendTimes recvTimes).tick e p = some q) :
    Doomed count q := by
  have hshare := System.sync_tick.mp ht
  obtain ⟨hmain, hdoom⟩ := h
  refine ⟨share_started hmain hshare.1, hdoom.imp (fun hdown => share_down hdown hshare.2) ?_⟩
  intro hfew
  have hnet := share_network hshare.2
  have hle := sends_le e.network
  have hissued := hq.issued
  have hcount := hq.program.published
  omega

/-- A loss in the program is a failing publish or, at the start, that of the link. -/
theorem tick_loses {a : Action} {s t : PubSubTest.State}
    (ht : PubSubTest.tick count a s = some t) (he : Event.loses (.step a) = true) :
    (t.main ≠ .new ∧ t.main ≠ .exited) ∧ (a = .publish .failure ∨
      s.main.starting = true ∧ (Event.step a).network = some .down) := by
  rcases tick_move ht with hm | hm
  · cases hm <;> simp [Event.loses] at he
  · cases hm with
    | connect o hp | subscribe o hp =>
        cases o <;> simp only [Event.loses, Bool.false_eq_true] at he
        exact ⟨by simp, .inr ⟨by simp [hp, MainPc.starting], rfl⟩⟩
    | noThread hp => exact ⟨by simp, .inr ⟨by simp [hp, MainPc.starting], rfl⟩⟩
    | publish o hp =>
        cases o <;> simp only [Event.loses, Bool.false_eq_true] at he
        exact ⟨by simp, .inl rfl⟩
    | _ => simp [Event.loses] at he

/-- The first loss dooms the run. -/
theorem doomed_of_loses (h : Joined count .atMostOnce p) (hq : Joined count .atMostOnce q)
    (he : Event.loses e = true)
    (ht : (pubSub count .atMostOnce ordered sendTimes recvTimes).tick e p = some q) :
    Doomed count q := by
  have hshare := System.sync_tick.mp ht
  have hnet := share_network hshare.2
  have htotal := h.total
  have hissued := hq.issued
  have hcount := hq.program.published
  cases e with
  | redeliver m => simp [Event.loses] at he
  | lose m =>
      have heq : p.1 = q.1 := Option.some.inj hshare.1
      simp only [Event.network, Option.elim, Op.publishes, Op.loses, Op.sends] at hnet
      have hpos : p.1.i ≠ 0 := by
        rw [heq]
        omega
      have hmain : p.1.main.starting ≠ true := fun hm => hpos (h.starting hm).2.1
      refine ⟨?_, .inr (by omega)⟩
      rw [← heq]
      constructor <;> intro hm <;> simp [hm, MainPc.starting] at hmain
  | step a =>
      obtain ⟨hmain, rfl | ⟨hs, hn⟩⟩ := tick_loses hshare.1 he
      · simp only [Event.network, Option.elim, Op.publishes, Op.loses, Op.sends] at hnet
        exact ⟨hmain, .inr (by omega)⟩
      · have hu := hshare.2
        rw [hn] at hu
        refine ⟨hmain, .inl ?_⟩
        rw [← Option.some.inj hu]
        exact ⟨rfl, (h.starting hs).2.2⟩

theorem recvCount_le_accepted (s : PubSubTest.State) : s.recvCount ≤ s.accepted := by
  unfold State.accepted
  split_ifs <;> omega

/-- A doomed run does not pass the wait loop. -/
theorem Doomed.not_passed (h : Doomed count p) (hj : Joined count .atMostOnce p)
    (hpos : 0 < count) : p.1.main.passed = false := by
  have haccepted := hj.accepted (by decide)
  have hle := recvCount_le_accepted p.1
  have hfew : p.2.delivered.length < count := by
    obtain ⟨-, hdown | hfew⟩ := h
    · simpa [hdown.2] using hpos
    · unfold MessageDelivery.State.total at hfew
      omega
  cases hp : p.1.main.passed with
  | false => rfl
  | true =>
      have hn := hj.program.passed hp
      omega

theorem Intact.not_stuck (h : Intact p) (hj : Joined count .atMostOnce p) : ¬ Stuck count p := by
  rintro ⟨hi, hempty, -, hc, hlt⟩
  have haccepted := hj.accepted (by decide)
  have htotal := h.total
  have hissued := hj.issued
  simp only [State.accepted, hc, CallbackPc.receiving, Bool.false_eq_true, if_false] at haccepted
  simp only [MessageDelivery.State.total, hempty, List.length_nil] at htotal
  omega

/-- What is left of the program, and the callbacks of the messages under way. -/
def left (count : ℕ) (p : Config) : ℕ := p.1.left count + 8 * p.2.inFlight.length

theorem share_regular {a : Action} (ordered : Bool) (ha : a.regular = true)
    (u : MessageDelivery.State) :
    ∃ v, (delivery .atMostOnce ordered).share (Event.step a).network u = some v ∧
      v.inFlight.length = u.inFlight.length + a.publishes := by
  cases a with
  | publish o =>
      cases o <;> simp only [Action.regular, Bool.false_eq_true] at ha
      exact ⟨_, rfl, by simp [Action.publishes]⟩
  | connect o | subscribe o | loopStart o =>
      cases o <;> simp only [Action.regular, Bool.false_eq_true] at ha
      exact ⟨u, rfl, rfl⟩
  | spurious | invoke m => simp [Action.regular] at ha
  | _ => exact ⟨u, rfl, rfl⟩

theorem loses_regular {a : Action} (ha : a.regular = true) : Event.loses (.step a) = false := by
  cases a with
  | publish o | connect o | subscribe o | loopStart o =>
      cases o <;> simp_all [Action.regular, Event.loses]
  | _ => rfl

/-- Main waits only while a message is under way. -/
theorem Intact.exists_inFlight (h : Intact p) (hj : Joined count .atMostOnce p)
    (hm : p.1.main = .waiting) (hc : p.1.callback = .idle) (hlt : p.1.recvCount < count) :
    ∃ m ms, p.2.inFlight = m :: ms := by
  have hi := hj.program.allPublished (by simp [hm, MainPc.published])
  have hstuck := h.not_stuck hj
  cases hf : p.2.inFlight with
  | nil => exact absurd ⟨hi, hf, hm, hc, hlt⟩ hstuck
  | cons m ms => exact ⟨m, ms, rfl⟩

theorem Intact.progress (ordered : Bool) (sendTimes recvTimes : ℕ → ℤ) (h : Intact p)
    (hj : Joined count .atMostOnce p)
    (hs : p.1.main ≠ .statistics) (he : p.1.main ≠ .exited) :
    ∃ e q, Event.loses e = false ∧
      (pubSub count .atMostOnce ordered sendTimes recvTimes).tick e p = some q ∧
      left count q < left count p := by
  rcases hj.program.advances hs he with hadv | ⟨hm, hc, hlt⟩
  · obtain ⟨a, t, ha, ht, hleft⟩ := hadv
    obtain ⟨v, hv, hlen⟩ := share_regular ordered ha p.2
    refine ⟨.step a, (t, v), loses_regular ha, System.sync_tick.mpr ⟨ht, hv⟩, ?_⟩
    unfold left
    dsimp only
    omega
  · obtain ⟨m, ms, hf⟩ := h.exists_inFlight hj hm hc hlt
    have hrunning := h.running (by simp [hm, MainPc.starting]) (by simp [hm])
    refine ⟨.step (.invoke m), ({ p.1 with callback := .assign m },
      { p.2 with inFlight := ms, delivered := p.2.delivered ++ [m] }), rfl,
      System.sync_tick.mpr ⟨?_, ?_⟩, ?_⟩
    · simp [Event.program, System.share, run, PubSubTest.tick, Action.ofCallback, onMessage, hc,
        hrunning, hlt]
    · simp [Event.network, System.share, delivery, MessageDelivery.tick, h.up, hf]
    · simp only [left, PubSubTest.State.left, State.mainLeft, hm, hc, CallbackPc.left, hf,
        List.length_cons]
      omega

end Steps

section Runs
variable {count : ℕ} {ordered : Bool} {sendTimes recvTimes : ℕ → ℤ} {p : Config} {es : List Event}

theorem Intact.canFinish (h : Intact p) (hj : Joined count .atMostOnce p) :
    CanFinish (pubSub count .atMostOnce ordered sendTimes recvTimes) p := by
  have hreach : ∃ es q, (∀ e ∈ es, Event.loses e = false) ∧
      (pubSub count .atMostOnce ordered sendTimes recvTimes).Run es p q ∧
      (q.1.main = .statistics ∨ q.1.main = .exited) := by
    apply System.exists_run_to (I := fun p => Joined count .atMostOnce p ∧ Intact p)
      (fun e => Event.loses e = false) (left count) _ p ⟨hj, h⟩
    intro p hp hgoal
    rw [not_or] at hgoal
    obtain ⟨e, q, he, ht, hlt⟩ :=
      Intact.progress ordered sendTimes recvTimes hp.2 hp.1 hgoal.1 hgoal.2
    exact ⟨e, q, he, ht, ⟨hp.1.tick ht, hp.2.tick he ht⟩, hlt⟩
  obtain ⟨es, q, -, hrun, hq⟩ := hreach
  exact ⟨es, q, hrun, hq⟩

theorem Doomed.not_canFinish (h : Doomed count p) (hj : Joined count .atMostOnce p)
    (hpos : 0 < count) :
    ¬ CanFinish (pubSub count .atMostOnce ordered sendTimes recvTimes) p := by
  rintro ⟨es, q, hrun, hq⟩
  have hinv : Joined count .atMostOnce q ∧ Doomed count q := by
    apply hrun.invariant (I := fun p => Joined count .atMostOnce p ∧ Doomed count p)
      (fun _ => True) (fun _ _ => trivial) ⟨hj, h⟩
    intro e u v _ hu ht
    exact ⟨hu.1.tick ht, hu.2.tick (hu.1.tick ht) ht⟩
  rcases hq with hq | hq
  · have hpassed := hinv.2.not_passed hinv.1 hpos
    simp [hq, MainPc.passed] at hpassed
  · exact hinv.2.1.2 hq

theorem intact_or_doomed
    (h : (pubSub count .atMostOnce ordered sendTimes recvTimes).Run es
      (pubSub count .atMostOnce ordered sendTimes recvTimes).init p) :
    Joined count .atMostOnce p ∧ ((∀ e ∈ es, Event.loses e = false) → Intact p) ∧
      ((∃ e ∈ es, Event.loses e = true) → Doomed count p) := by
  apply h.history (P := fun es p => Joined count .atMostOnce p ∧
    ((∀ e ∈ es, Event.loses e = false) → Intact p) ∧
    ((∃ e ∈ es, Event.loses e = true) → Doomed count p))
  · exact ⟨joined_init .., fun _ => intact_init .., by simp⟩
  · intro es e u v hu ht
    have hv := hu.1.tick ht
    refine ⟨hv, fun hall => ?_, fun hsome => ?_⟩
    · rw [List.forall_mem_append] at hall
      exact (hu.2.1 hall.1).tick (hall.2 e List.mem_cons_self) ht
    · obtain ⟨e', hmem, he'⟩ := hsome
      rcases List.mem_append.mp hmem with hmem | hmem
      · exact (hu.2.2 ⟨e', hmem, he'⟩).tick hv ht
      · rw [List.mem_singleton.mp hmem] at he'
        exact doomed_of_loses hu.1 hv he' ht

/-- The benchmark can end, and is not stuck, as long as nothing has been lost
and no longer. -/
theorem never_stuck_iff (hpos : 0 < count)
    (h : (pubSub count .atMostOnce ordered sendTimes recvTimes).Run es
      (pubSub count .atMostOnce ordered sendTimes recvTimes).init p) :
    (¬ Stuck count p ∧ CanFinish (pubSub count .atMostOnce ordered sendTimes recvTimes) p) ↔
      ∀ e ∈ es, Event.loses e = false := by
  obtain ⟨hj, hintact, hdoomed⟩ := intact_or_doomed h
  constructor
  · intro hfine e he
    cases hl : Event.loses e with
    | false => rfl
    | true => exact absurd hfine.2 ((hdoomed ⟨e, he, hl⟩).not_canFinish hj hpos)
  · intro hall
    exact ⟨(hintact hall).not_stuck hj, (hintact hall).canFinish hj⟩

/-- The broker is not there: connect, subscribe and every publish fail. -/
def refused (count : ℕ) : List Event :=
  [.step (.new .success), .step (.connect .failure), .step (.subscribe .failure),
    .step (.loopStart .success)] ++
  (List.replicate count [.step (.stamp 5), .step (.publish .failure)]).flatten ++
  [.step .lock, .step .check, .step .wait]

/-- Main in its publishing loop, with no message ever handed over. -/
structure Unheard (i : ℕ) (p : Config) : Prop where
  main : p.1.main = .stamp
  i : p.1.i = i
  recvCount : p.1.recvCount = 0
  recvMutex : p.1.recvMutex = none
  callback : p.1.callback = .idle
  inFlight : p.2.inFlight = []

theorem Unheard.publish {i n : ℕ} (sendTimes recvTimes : ℕ → ℤ) (h : Unheard i p)
    (hn : i + n ≤ count) :
    ∃ q, (pubSub count .atMostOnce true sendTimes recvTimes).Run
      (List.replicate n [.step (.stamp 5), .step (.publish .failure)]).flatten p q ∧
      Unheard (i + n) q := by
  induction n generalizing i p with
  | zero => exact ⟨p, System.run_nil.mpr rfl, h⟩
  | succ n ih =>
      have hlt : p.1.i < count := by
        rw [h.i]
        omega
      have hstamp : (pubSub count .atMostOnce true sendTimes recvTimes).tick (.step (.stamp 5)) p =
          some ({ p.1 with main := .publish, sendTimes := Function.update p.1.sendTimes p.1.i 5 },
            p.2) :=
        System.sync_tick.mpr ⟨if_pos ⟨h.main, hlt⟩, rfl⟩
      have hpublish : (pubSub count .atMostOnce true sendTimes recvTimes).tick
          (.step (.publish .failure))
          ({ p.1 with main := .publish, sendTimes := Function.update p.1.sendTimes p.1.i 5 },
            p.2) =
          some ({ p.1 with
            main := .stamp, sendTimes := Function.update p.1.sendTimes p.1.i 5, i := p.1.i + 1 },
            { p.2 with issued := p.2.issued + 1 }) := rfl
      obtain ⟨q, hrun, hq⟩ := ih (i := i + 1) (p := ({ p.1 with
            main := .stamp, sendTimes := Function.update p.1.sendTimes p.1.i 5, i := p.1.i + 1 },
            { p.2 with issued := p.2.issued + 1 }))
        ⟨rfl, congrArg (· + 1) h.i, h.recvCount, h.recvMutex, h.callback, h.inFlight⟩ (by omega)
      refine ⟨q, ?_, by rwa [Nat.add_assoc, Nat.add_comm 1] at hq⟩
      rw [List.replicate_succ, List.flatten_cons]
      exact System.run_cons.mpr ⟨_, hstamp, System.run_cons.mpr ⟨_, hpublish, hrun⟩⟩

/-- Whatever the target is, main waits for ever when the broker is not there. -/
theorem refused_stuck (sendTimes recvTimes : ℕ → ℤ) (hpos : 0 < count) :
    ∃ p, (pubSub count .atMostOnce true sendTimes recvTimes).Run (refused count)
      (pubSub count .atMostOnce true sendTimes recvTimes).init p ∧ Stuck count p := by
  have hstart : ∃ p, (pubSub count .atMostOnce true sendTimes recvTimes).Run
      [.step (.new .success), .step (.connect .failure), .step (.subscribe .failure),
        .step (.loopStart .success)]
      (pubSub count .atMostOnce true sendTimes recvTimes).init p ∧ Unheard 0 p :=
    ⟨_, rfl, rfl, rfl, rfl, rfl, rfl, rfl⟩
  obtain ⟨p, hp, hu⟩ := hstart
  obtain ⟨q, hq, hv⟩ := hu.publish sendTimes recvTimes (Nat.zero_add count).le
  rw [Nat.zero_add] at hv
  have hi : ¬ q.1.i < count := by
    rw [hv.i]
    exact lt_irrefl count
  have hlock : (pubSub count .atMostOnce true sendTimes recvTimes).tick (.step .lock) q =
      some ({ q.1 with main := .check, recvMutex := some .main }, q.2) :=
    System.sync_tick.mpr ⟨if_pos ⟨hv.main, hi, hv.recvMutex⟩, rfl⟩
  have hcheck : (pubSub count .atMostOnce true sendTimes recvTimes).tick (.step .check)
      ({ q.1 with main := .check, recvMutex := some .main }, q.2) =
      some ({ q.1 with main := .wait, recvMutex := some .main }, q.2) := by
    refine System.sync_tick.mpr ⟨?_, rfl⟩
    simp [Event.program, System.share, run, PubSubTest.tick, Action.ofCallback, mainStep,
      hv.recvCount, hpos]
  have hwait : (pubSub count .atMostOnce true sendTimes recvTimes).tick (.step .wait)
      ({ q.1 with main := .wait, recvMutex := some .main }, q.2) =
      some ({ q.1 with main := .waiting, recvMutex := none }, q.2) := rfl
  refine ⟨({ q.1 with main := .waiting, recvMutex := none }, q.2), ?_, ?_⟩
  · apply (hp.append hq).append
    exact System.run_cons.mpr
      ⟨_, hlock, System.run_cons.mpr ⟨_, hcheck, System.run_single.mpr hwait⟩⟩
  · exact ⟨hv.i, hv.inFlight, rfl, hv.callback, hv.recvCount ▸ hpos⟩

theorem never_stuck_unless_lost :
    (∃ p, CanFinish (pubSub 2 .atMostOnce true cleared cleared) p ∧ p.1.main = .waiting) ∧
      ∃ p, ¬ CanFinish (pubSub 2 .atMostOnce true cleared cleared) p ∧ p.1.recvCount = 1 := by
  constructor
  · have h : ∃ p, (pubSub 2 .atMostOnce true cleared cleared).Run [.step (.new .success),
        .step (.connect .success), .step (.subscribe .success), .step (.loopStart .success),
        .step (.stamp 5), .step (.publish .success), .step (.stamp 6), .step (.publish .success),
        .step .lock, .step .check, .step .wait]
        (pubSub 2 .atMostOnce true cleared cleared).init p ∧ p.1.main = .waiting :=
      ⟨_, rfl, by decide⟩
    obtain ⟨p, hrun, hm⟩ := h
    exact ⟨p, ((never_stuck_iff (by decide) hrun).mpr (by decide)).2, hm⟩
  · have h : ∃ p, (pubSub 2 .atMostOnce true cleared cleared).Run [.step (.new .success),
        .step (.connect .success), .step (.subscribe .success), .step (.loopStart .success),
        .step (.stamp 5), .step (.publish .success), .step (.stamp 6), .step (.publish .success),
        .lose 0, .step (.invoke 1), .step .increment]
        (pubSub 2 .atMostOnce true cleared cleared).init p ∧ p.1.recvCount = 1 ∧
        ¬ Stuck 2 p := ⟨_, rfl, by decide, fun hs => by simpa using hs.2.2.1⟩
    obtain ⟨p, hrun, hn, hstuck⟩ := h
    refine ⟨p, fun hcan => ?_, hn⟩
    have hall := (never_stuck_iff (by decide) hrun).mp ⟨hstuck, hcan⟩
    exact absurd (hall (.lose 0) (by decide)) (by decide)

theorem stuck_without_broker :
    (¬ ∀ (es : List Event) (p : Config), (runBurstTest cleared cleared).Run es
      (runBurstTest cleared cleared).init p → ¬ Stuck 10000 p) ∧
    (¬ ∀ (es : List Event) (p : Config), (runTest cleared cleared).Run es
      (runTest cleared cleared).init p → ¬ Stuck 100 p) ∧
    ¬ ∀ (es : List Event) (p : Config), (runQosTest .atMostOnce cleared cleared).Run es
      (runQosTest .atMostOnce cleared cleared).init p → ¬ Stuck 1000 p := by
  refine ⟨fun h => ?_, fun h => ?_, fun h => ?_⟩
  · obtain ⟨p, hrun, hstuck⟩ := refused_stuck cleared cleared (by decide : 0 < 10000)
    exact h _ p hrun hstuck
  · obtain ⟨p, hrun, hstuck⟩ := refused_stuck cleared cleared (by decide : 0 < 100)
    exact h _ p hrun hstuck
  · obtain ⟨p, hrun, hstuck⟩ := refused_stuck cleared cleared (by decide : 0 < 1000)
    exact h _ p hrun hstuck

end Runs

end MicrokernelBenchmark.PubSubLoss
