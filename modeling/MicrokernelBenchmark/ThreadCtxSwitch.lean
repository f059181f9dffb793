import MicrokernelBenchmark.RoundTrip
import MicrokernelBenchmark.Timespec

/-!
# Context switches between two threads over a turn flag

`thread_ctx_switch`: main and `pong_thread` share the flag `turn` under one
mutex and wait on one condition variable each. A section between lock and unlock
is one step up to its `pthread_cond_wait`; a thread taken out of the wait set,
by a signal or spuriously, has to enter its section again and recheck the flag.
A signal with an empty wait set is lost.

Every schedule refines the one-token exchange. The token is a request while the
flag is one and pong is not in its wait set, which is why no signal that matters
is lost. The counters `pings` and `pongs` are read by no step.
-/
namespace MicrokernelBenchmark.ThreadCtxSwitch
open TransitionSystem

def iterationsDefault : ℕ := 100000

/-- The global `iterations` after the argument, if any, went through `atoi`. -/
def parseIterations : Option ℤ → ℕ
  | none => iterationsDefault
  | some v => if v ≤ 0 then iterationsDefault else v.toNat

theorem one_le_parseIterations (arg : Option ℤ) : 1 ≤ parseIterations arg := by
  unfold parseIterations iterationsDefault
  split
  · omega
  · split_ifs <;> omega

inductive MainPc where
  | sleep
  | clockStart
  | loop
  | waiting
  | woken
  | join
  | done
deriving DecidableEq, Repr

inductive PongPc where
  | loop
  | waiting
  | woken
  | done
deriving DecidableEq, Repr

/-- `pthread_cond_signal(&cond_ping)`, on which only main waits. -/
def MainPc.signal : MainPc → MainPc
  | .waiting => .woken
  | p => p

/-- `pthread_cond_signal(&cond_pong)`, on which only pong waits. -/
def PongPc.signal : PongPc → PongPc
  | .waiting => .woken
  | p => p

structure State where
  turn : ℤ := 0
  main : MainPc := .sleep
  mainI : ℕ := 0
  start : Timespec := ⟨0, 0⟩
  finish : Timespec := ⟨0, 0⟩
  pong : PongPc := .loop
  pongI : ℕ := 0
  pings : ℕ := 0
  pongs : ℕ := 0
deriving DecidableEq, Repr

inductive Action where
  | sleepReturn
  | startClock (now : Timespec)
  | ping
  | mainRecheck
  | mainSpurious
  | stopClock (now : Timespec)
  | join
  | pongEnter
  | pongRecheck
  | pongSpurious
  | pongReturn
deriving DecidableEq, Repr

def Action.spurious : Action → Bool
  | .mainSpurious | .pongSpurious => true
  | _ => false

/-- Main's section from its loop condition on, up to the next wait or unlock. -/
def State.awaitPing (s : State) : State :=
  if s.turn ≠ 0 then { s with main := .waiting }
  else { s with main := .loop, mainI := s.mainI + 1 }

/-- Pong's section from its loop condition on, up to the next wait or unlock. -/
def State.awaitPong (s : State) : State :=
  if s.turn ≠ 1 then { s with pong := .waiting }
  else { s with
    turn := 0, main := s.main.signal, pong := .loop, pongI := s.pongI + 1, pongs := s.pongs + 1 }

theorem State.awaitPing_of_one {s : State} (h : s.turn = 1) :
    s.awaitPing = { s with main := .waiting } := if_pos (by simp [h])

theorem State.awaitPing_of_zero {s : State} (h : s.turn = 0) :
    s.awaitPing = { s with main := .loop, mainI := s.mainI + 1 } := if_neg (by simp [h])

theorem State.awaitPong_of_zero {s : State} (h : s.turn = 0) :
    s.awaitPong = { s with pong := .waiting } := if_pos (by simp [h])

theorem State.awaitPong_of_one {s : State} (h : s.turn = 1) :
    s.awaitPong = { s with
      turn := 0, main := s.main.signal, pong := .loop, pongI := s.pongI + 1,
      pongs := s.pongs + 1 } := if_neg (by simp [h])

def tick (iterations : ℕ) (a : Action) (s : State) : Option State :=
  match a with
  | .sleepReturn => if s.main = .sleep then some { s with main := .clockStart } else none
  | .startClock now =>
      if s.main = .clockStart then some { s with main := .loop, start := now } else none
  | .ping =>
      if s.main = .loop ∧ s.mainI < iterations then
        some { s with turn := 1, pong := s.pong.signal, pings := s.pings + 1 }.awaitPing
      else none
  | .mainRecheck => if s.main = .woken then some s.awaitPing else none
  | .mainSpurious => if s.main = .waiting then some { s with main := .woken } else none
  | .stopClock now =>
      if s.main = .loop ∧ ¬ s.mainI < iterations then
        some { s with main := .join, finish := now }
      else none
  | .join => if s.main = .join ∧ s.pong = .done then some { s with main := .done } else none
  | .pongEnter => if s.pong = .loop ∧ s.pongI < iterations then some s.awaitPong else none
  | .pongRecheck => if s.pong = .woken then some s.awaitPong else none
  | .pongSpurious => if s.pong = .waiting then some { s with pong := .woken } else none
  | .pongReturn =>
      if s.pong = .loop ∧ ¬ s.pongI < iterations then some { s with pong := .done } else none

def main (iterations : ℕ) : System Action State := ⟨{}, tick iterations⟩

/-- The elapsed time printed at the end. -/
def State.totalNs (s : State) : ℤ := timespecDiffNs s.finish s.start

/-- Where the token is. Only pong can answer a request, and it is never in its
wait set while one is open. -/
def Located (s : State) : RoundTrip.Phase Unit → Prop
  | .idle => s.turn = 0 ∧ s.main ≠ .waiting ∧ s.main ≠ .woken
  | .request _ => s.turn = 1 ∧ (s.main = .waiting ∨ s.main = .woken) ∧ s.pong ≠ .waiting
  | .held _ => False
  | .reply _ => s.turn = 0 ∧ s.main = .woken

structure Refines (n : ℕ) (s : State) (u : RoundTrip.State Unit) : Prop where
  matched : u.Matched
  located : Located s u.phase
  pings : s.pings = u.asked.length
  pongs : s.pongs = u.given.length
  mainI : s.mainI = u.collected.length
  pongI : s.pongI = s.pongs
  bounded : s.mainI ≤ n
  awaiting : s.main = .waiting ∨ s.main = .woken → s.mainI < n
  left : s.main = .join ∨ s.main = .done → s.mainI = n
  pongBounded : s.pongI ≤ n
  pongAwaiting : s.pong = .waiting ∨ s.pong = .woken → s.pongI < n
  pongLeft : s.pong = .done → s.pongI = n
  joined : s.main = .done → s.pong = .done

theorem refines_init (n : ℕ) : Refines n (main n).init (RoundTrip.exchange Unit).init where
  matched := ⟨rfl, rfl, rfl⟩
  located := by simp [Located, main, RoundTrip.exchange]
  pings := rfl
  pongs := rfl
  mainI := rfl
  pongI := rfl
  bounded := Nat.zero_le n
  awaiting := by simp [main]
  left := by simp [main]
  pongBounded := Nat.zero_le n
  pongAwaiting := by simp [main]
  pongLeft := by simp [main]
  joined := by simp [main]

section Steps
variable {n : ℕ} {s t : State} {u : RoundTrip.State Unit}

theorem PongPc.signal_ne_waiting (p : PongPc) : p.signal ≠ .waiting := by cases p <;> simp [signal]

theorem PongPc.signal_eq_done {p : PongPc} : p.signal = .done ↔ p = .done := by
  cases p <;> simp [signal]

theorem PongPc.signal_awaiting {p : PongPc} :
    p.signal = .waiting ∨ p.signal = .woken ↔ p = .waiting ∨ p = .woken := by
  cases p <;> simp [signal]

theorem Refines.mainI_eq (h : Refines n s u) : s.pongI = s.mainI + u.phase.answered := by
  rw [h.pongI, h.pongs, h.mainI, h.matched.given_length]

theorem Refines.ping (h : Refines n s u) (ht : tick n .ping s = some t) :
    ∃ v, RoundTrip.tick (.ask ()) u = some v ∧ Refines n t v := by
  simp only [tick, Option.ite_none_right_eq_some, Option.some.injEq] at ht
  obtain ⟨⟨hp, hi⟩, rfl⟩ := ht
  obtain ⟨phase, asked, taken, given, collected⟩ := u
  have hl := h.located
  cases phase <;> simp only [Located, hp, reduceCtorEq, or_self, false_and, and_false] at hl
  have hv : RoundTrip.tick (.ask ()) ⟨.idle, asked, taken, given, collected⟩ =
    some ⟨.request (), asked ++ [()], taken, given, collected⟩ := rfl
  refine ⟨_, hv, ?_⟩
  rw [State.awaitPing_of_one rfl]
  exact { h with
    matched := RoundTrip.tick_matched h.matched hv
    located := ⟨rfl, .inl rfl, PongPc.signal_ne_waiting _⟩
    pings := by simpa using h.pings
    awaiting := fun _ => hi
    left := by simp
    pongAwaiting := fun hw => h.pongAwaiting (PongPc.signal_awaiting.mp hw)
    pongLeft := fun hd => h.pongLeft (PongPc.signal_eq_done.mp hd)
    joined := by simp }

theorem Refines.mainRecheck (h : Refines n s u) (ht : tick n .mainRecheck s = some t) :
    Refines n t u ∨ ∃ v, RoundTrip.tick .collect u = some v ∧ Refines n t v := by
  simp only [tick, Option.ite_none_right_eq_some, Option.some.injEq] at ht
  obtain ⟨hp, rfl⟩ := ht
  obtain ⟨phase, asked, taken, given, collected⟩ := u
  have hl := h.located
  cases phase <;> simp only [Located, hp, ne_eq, not_true_eq_false, and_false] at hl
  case request m =>
    left
    rw [State.awaitPing_of_one hl.1]
    exact { h with
      located := ⟨hl.1, .inl rfl, hl.2.2⟩
      awaiting := fun _ => h.awaiting (.inr hp)
      left := by simp
      joined := by simp }
  case reply m =>
    right
    have hv : RoundTrip.tick .collect ⟨.reply (), asked, taken, given, collected⟩ =
      some ⟨.idle, asked, taken, given, collected ++ [()]⟩ := rfl
    refine ⟨_, hv, ?_⟩
    rw [State.awaitPing_of_zero hl.1]
    exact { h with
      matched := RoundTrip.tick_matched h.matched hv
      located := ⟨hl.1, by simp⟩
      mainI := by simpa using h.mainI
      bounded := h.awaiting (.inr hp)
      awaiting := by simp
      left := by simp
      joined := by simp }

theorem Refines.awaitPong (h : Refines n s u) (hi : s.pongI < n)
    (hp : s.pong = .loop ∨ s.pong = .woken) :
    Refines n s.awaitPong u ∨
      ∃ v, (RoundTrip.exchange Unit).Run [.take, .give] u v ∧ Refines n s.awaitPong v := by
  obtain ⟨phase, asked, taken, given, collected⟩ := u
  have hl := h.located
  have hstop : s.main ≠ .done := fun hd => by simp [h.joined hd] at hp
  have idle (hturn : s.turn = 0) (hl : Located { s with pong := .waiting } phase) :
      Refines n s.awaitPong ⟨phase, asked, taken, given, collected⟩ := by
    rw [State.awaitPong_of_zero hturn]
    exact { h with
      located := hl
      pongAwaiting := fun _ => hi
      pongLeft := by simp
      joined := fun hd => absurd hd hstop }
  cases phase with
  | idle => exact .inl (idle hl.1 hl)
  | reply m => exact .inl (idle hl.1 hl)
  | held m => exact hl.elim
  | request m =>
      right
      have hwoken : s.main.signal = .woken := by
        rcases hl.2.1 with hm | hm <;> rw [hm] <;> rfl
      have hv : RoundTrip.tick .take ⟨.request (), asked, taken, given, collected⟩ =
        some ⟨.held (), asked, taken ++ [()], given, collected⟩ := rfl
      have hw : RoundTrip.tick .give ⟨.held (), asked, taken ++ [()], given, collected⟩ =
        some ⟨.reply (), asked, taken ++ [()], given ++ [()], collected⟩ := rfl
      refine ⟨_, rfl, ?_⟩
      rw [State.awaitPong_of_one hl.1, hwoken]
      exact { h with
        matched := RoundTrip.tick_matched (RoundTrip.tick_matched h.matched hv) hw
        located := ⟨rfl, rfl⟩
        pongs := by simpa using h.pongs
        pongI := by simpa using h.pongI
        awaiting := fun _ => h.awaiting hl.2.1
        left := by simp
        pongBounded := hi
        pongAwaiting := by simp
        pongLeft := by simp
        joined := by simp }

/-- A thread outside the exchange moves, or a wait set empties spuriously. -/
theorem Refines.other {a : Action} (h : Refines n s u) (ht : tick n a s = some t)
    (ha : a ≠ .ping ∧ a ≠ .mainRecheck ∧ a ≠ .pongEnter ∧ a ≠ .pongRecheck) : Refines n t u := by
  have hl := h.located
  obtain ⟨phase, asked, taken, given, collected⟩ := u
  cases a with
  | ping | mainRecheck | pongEnter | pongRecheck => simp at ha
  | sleepReturn | startClock _ =>
      simp only [tick, Option.ite_none_right_eq_some, Option.some.injEq] at ht
      obtain ⟨hp, rfl⟩ := ht
      cases phase <;> simp only [Located, hp, reduceCtorEq, or_self, false_and, and_false] at hl
      exact { h with
        located := ⟨hl.1, by simp⟩
        awaiting := by simp
        left := by simp
        joined := by simp }
  | stopClock now =>
      simp only [tick, Option.ite_none_right_eq_some, Option.some.injEq] at ht
      obtain ⟨⟨hp, hi⟩, rfl⟩ := ht
      cases phase <;> simp only [Located, hp, reduceCtorEq, or_self, false_and, and_false] at hl
      exact { h with
        located := ⟨hl.1, by simp⟩
        awaiting := by simp
        left := fun _ => le_antisymm h.bounded (not_lt.mp hi)
        joined := by simp }
  | join =>
      simp only [tick, Option.ite_none_right_eq_some, Option.some.injEq] at ht
      obtain ⟨⟨hp, hd⟩, rfl⟩ := ht
      cases phase <;> simp only [Located, hp, reduceCtorEq, or_self, false_and, and_false] at hl
      exact { h with
        located := ⟨hl.1, by simp⟩
        awaiting := by simp
        left := fun _ => h.left (.inl hp)
        joined := fun _ => hd }
  | mainSpurious =>
      simp only [tick, Option.ite_none_right_eq_some, Option.some.injEq] at ht
      obtain ⟨hp, rfl⟩ := ht
      cases phase <;> simp only [Located, hp, ne_eq, not_true_eq_false, reduceCtorEq, and_false,
        false_and] at hl
      exact { h with
        located := ⟨hl.1, .inr rfl, hl.2.2⟩
        awaiting := fun _ => h.awaiting (.inl hp)
        left := by simp
        joined := by simp }
  | pongSpurious =>
      simp only [tick, Option.ite_none_right_eq_some, Option.some.injEq] at ht
      obtain ⟨hp, rfl⟩ := ht
      exact { h with
        located := by cases phase <;> simp_all [Located]
        pongAwaiting := fun _ => h.pongAwaiting (.inl hp)
        pongLeft := by simp
        joined := fun hd => by simp [h.joined hd] at hp }
  | pongReturn =>
      simp only [tick, Option.ite_none_right_eq_some, Option.some.injEq] at ht
      obtain ⟨⟨hp, hi⟩, rfl⟩ := ht
      exact { h with
        located := by cases phase <;> simp_all [Located]
        pongAwaiting := by simp
        pongLeft := fun _ => le_antisymm h.pongBounded (not_lt.mp hi)
        joined := fun _ => rfl }

theorem Refines.tick {a : Action} (h : Refines n s u) (ht : tick n a s = some t) :
    ∃ ops v, (RoundTrip.exchange Unit).Run ops u v ∧ Refines n t v := by
  cases a with
  | ping => exact System.single (h.ping ht)
  | mainRecheck =>
      rcases h.mainRecheck ht with k | k
      · exact System.stutter k
      · exact System.single k
  | pongEnter =>
      simp only [ThreadCtxSwitch.tick, Option.ite_none_right_eq_some, Option.some.injEq] at ht
      obtain ⟨⟨hp, hi⟩, rfl⟩ := ht
      rcases h.awaitPong hi (.inl hp) with k | ⟨v, hv, k⟩
      · exact System.stutter k
      · exact ⟨_, v, hv, k⟩
  | pongRecheck =>
      simp only [ThreadCtxSwitch.tick, Option.ite_none_right_eq_some, Option.some.injEq] at ht
      obtain ⟨hp, rfl⟩ := ht
      rcases h.awaitPong (h.pongAwaiting (.inr hp)) (.inr hp) with k | ⟨v, hv, k⟩
      · exact System.stutter k
      · exact ⟨_, v, hv, k⟩
  | _ => exact System.stutter (h.other ht (by simp))

end Steps

def refinement (n : ℕ) :
    System.Simulation (main n) (RoundTrip.exchange Unit) (fun _ => True) where
  Rel := Refines n
  init := refines_init n
  step _ _ _ _ _ h ht := h.tick ht

section Runs
variable {n : ℕ} {s : State} {u : RoundTrip.State Unit} {as : List Action}

/-- Until main has joined pong, a thread can move without a spurious wakeup. -/
theorem Refines.progress (h : Refines n s u) (hm : s.main ≠ .done) :
    ∃ a, a.spurious = false ∧ (main n).Enabled a s := by
  have hl := h.located
  have hi := h.mainI_eq
  have pong (hp : s.pong ≠ .waiting) (hd : s.pong ≠ .done) :
      ∃ a, a.spurious = false ∧ (main n).Enabled a s := by
    cases hpc : s.pong with
    | loop =>
        by_cases hlt : s.pongI < n
        · exact ⟨.pongEnter, rfl, by simp [System.Enabled, main, ThreadCtxSwitch.tick, hpc, hlt]⟩
        · exact ⟨.pongReturn, rfl, by simp [System.Enabled, main, ThreadCtxSwitch.tick, hpc, hlt]⟩
    | woken => exact ⟨.pongRecheck, rfl, by simp [System.Enabled, main, ThreadCtxSwitch.tick, hpc]⟩
    | waiting => exact absurd hpc hp
    | done => exact absurd hpc hd
  cases hpc : s.main with
  | sleep =>
      exact ⟨.sleepReturn, rfl, by simp [System.Enabled, main, ThreadCtxSwitch.tick, hpc]⟩
  | clockStart =>
      exact ⟨.startClock ⟨0, 0⟩, rfl, by simp [System.Enabled, main, ThreadCtxSwitch.tick, hpc]⟩
  | loop =>
      by_cases hlt : s.mainI < n
      · exact ⟨.ping, rfl, by simp [System.Enabled, main, ThreadCtxSwitch.tick, hpc, hlt]⟩
      · exact ⟨.stopClock ⟨0, 0⟩, rfl,
          by simp [System.Enabled, main, ThreadCtxSwitch.tick, hpc, hlt]⟩
  | woken =>
      exact ⟨.mainRecheck, rfl, by simp [System.Enabled, main, ThreadCtxSwitch.tick, hpc]⟩
  | waiting =>
      -- only an open request leaves main in its wait set, and then pong is not in its own
      have hlt := h.awaiting (.inl hpc)
      cases hu : u.phase <;> simp only [hu, Located, hpc, ne_eq, not_true_eq_false, and_false,
        false_and, reduceCtorEq] at hl
      simp only [hu, RoundTrip.Phase.answered, Nat.add_zero] at hi
      exact pong hl.2.2 fun hd => by have := h.pongLeft hd; omega
  | join =>
      have hn := h.left (.inl hpc)
      cases hd : s.pong with
      | done => exact ⟨.join, rfl, by simp [System.Enabled, main, ThreadCtxSwitch.tick, hpc, hd]⟩
      | waiting =>
          have hlt := h.pongAwaiting (.inl hd)
          omega
      | loop | woken => exact pong (by simp [hd]) (by simp [hd])
  | done => exact absurd hpc hm

theorem exists_refines (h : (main n).Run as (main n).init s) : ∃ u, Refines n s u := by
  obtain ⟨u, -, hu⟩ := (refinement n).run h fun _ _ => trivial
  exact ⟨u, hu⟩

/-- No ping overwrites an unanswered one, at most one ping is unanswered, an
iteration of main starts when the previous one is answered, and until both
loops are done and joined some thread moves. -/
theorem turns_alternate (h : (main n).Run as (main n).init s) :
    ((main n).Enabled .ping s → s.turn = 0) ∧
    (s.pings = s.pongs ∨ s.pings = s.pongs + 1) ∧
    (s.main = .loop → s.pongs = s.mainI) ∧
    (s.mainI ≠ n ∨ s.pongI ≠ n ∨ s.main ≠ .done →
      ∃ a, a.spurious = false ∧ (main n).Enabled a s) ∧
    s.mainI ≤ n ∧ s.pongI ≤ n ∧ (s.main = .done → s.mainI = n ∧ s.pongI = n) := by
  obtain ⟨u, hu⟩ := exists_refines h
  have hl := hu.located
  have idle (hp : s.main = .loop) : u.phase = .idle := by
    cases hu : u.phase <;> simp [hu, Located, hp] at hl ⊢
  have hdone (hd : s.main = .done) : s.mainI = n ∧ s.pongI = n :=
    ⟨hu.left (.inr hd), hu.pongLeft (hu.joined hd)⟩
  refine ⟨fun hping => ?_, ?_, fun hp => ?_, fun hleft => ?_, hu.bounded, hu.pongBounded, hdone⟩
  · obtain ⟨t, ht⟩ := Option.isSome_iff_exists.mp hping
    simp only [main, tick, Option.ite_none_right_eq_some] at ht
    rw [idle ht.1.1] at hl
    exact hl.1
  · have hasked := hu.matched.asked_length
    have hgiven := hu.matched.given_length
    have hping := hu.pings
    have hpong := hu.pongs
    cases hph : u.phase with
    | held m => simp [hph, Located] at hl
    | idle | request m | reply m =>
        simp only [hph, RoundTrip.Phase.count, RoundTrip.Phase.answered] at hasked hgiven
        omega
  · have hi := hu.mainI_eq
    rw [idle hp] at hi
    rw [← hu.pongI, hi]
    rfl
  · apply hu.progress
    intro hd
    have hn := hdone hd
    simp [hd, hn] at hleft

/-- Two iterations with spurious wakeups of main. -/
def schedule : List Action :=
  [.sleepReturn, .pongEnter, .startClock ⟨0, 5⟩, .ping, .mainSpurious, .pongRecheck, .mainRecheck,
    .ping, .mainSpurious, .mainRecheck, .pongEnter, .pongReturn, .mainRecheck,
    .stopClock ⟨0, 9⟩, .join]

theorem turns_alternate_once : ∃ s, (main (parseIterations (some 2))).Run schedule
    (main (parseIterations (some 2))).init s ∧ s.main = .done ∧ s.mainI = 2 ∧ s.pongI = 2 := by
  have h : ∃ s, (main (parseIterations (some 2))).Run schedule
      (main (parseIterations (some 2))).init s ∧ s.main = .done := ⟨_, rfl, rfl⟩
  obtain ⟨s, hrun, hd⟩ := h
  exact ⟨s, hrun, hd, (turns_alternate hrun).2.2.2.2.2.2 hd⟩

end Runs

end MicrokernelBenchmark.ThreadCtxSwitch
