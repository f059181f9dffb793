import MicrokernelBenchmark.TransitionSystem
import Mathlib.Data.Int.Basic
import Mathlib.Logic.Function.Basic

/-!
# One run of a publish and subscribe benchmark

`run_burst_test`, `run_test` and `run_qos_test` share this run: main publishes
`COUNT` messages and waits for the callback thread of the client library, in
which `on_message` counts receptions. The counter is updated without the mutex;
only the signal of the last reception is sent under it.

The callback is invoked at any time while the network thread runs and any
number of times. C leaves open whether the increment or the store of
`recv_times[recv_count++] = now_ns()` comes first, and so does the model. The
results of connect, subscribe, publish and the start of the network thread do
not change what main does. The history `arrivals` is read by no step.
-/
namespace MicrokernelBenchmark.PubSubTest
open TransitionSystem

inductive Party where
  | main
  | callback
deriving DecidableEq, Repr

/-- `stamp` is the head of the publishing loop, `wait` the call of
`pthread_cond_wait` with the mutex held, `waiting` its wait set. -/
inductive MainPc where
  | new
  | connect
  | subscribe
  | loopStart
  | stamp
  | publish
  | check
  | wait
  | waiting
  | woken
  | unlock
  | loopStop
  | statistics
  | exited
deriving DecidableEq, Repr

/-- `assign` is before the assignment of a reception, `increment` between its
store and its increment, `store` between its increment and its store. -/
inductive CallbackPc where
  | idle
  | assign (msg : ℕ)
  | increment
  | store (msg i : ℕ)
  | compare
  | lock
  | signal
  | unlock
deriving DecidableEq, Repr

inductive Action where
  | new (outcome : Outcome)
  | connect (outcome : Outcome)
  | subscribe (outcome : Outcome)
  | loopStart (outcome : Outcome)
  | stamp (now : ℤ)
  | publish (outcome : Outcome)
  | lock
  | check
  | wait
  | spurious
  | relock
  | unlock
  | loopStop
  | invoke (msg : ℕ)
  | increment
  | store (now : ℤ)
  | compare
  | callbackLock
  | callbackSignal
  | callbackUnlock
deriving DecidableEq, Repr

/-- One store into `recvTimes`. -/
structure Arrival where
  slot : ℕ
  msg : ℕ
  time : ℤ
deriving DecidableEq, Repr

structure State where
  main : MainPc := .new
  i : ℕ := 0
  sendTimes : ℕ → ℤ
  recvTimes : ℕ → ℤ
  recvCount : ℕ := 0
  recvMutex : Option Party := none
  callback : CallbackPc := .idle
  running : Bool := false
  arrivals : List Arrival := []

/-- `pthread_cond_signal(&recv_cond)`, on which only main waits. -/
def MainPc.signal : MainPc → MainPc
  | .waiting => .woken
  | p => p

/-- The store of a reception into its slot. -/
def State.record (s : State) (msg i : ℕ) (now : ℤ) : State :=
  { s with
    recvTimes := Function.update s.recvTimes i now
    arrivals := s.arrivals ++ [⟨i, msg, now⟩] }

/-- `mosquitto_loop_stop` with force joins a cancelled network thread. The
callback has no cancellation point, so it is never cut off. -/
def mainStep (count : ℕ) (a : Action) (s : State) : Option State :=
  match a with
  | .new o =>
      if s.main = .new then
        some { s with main := match o with | .success => .connect | .failure => .exited }
      else none
  | .connect _ => if s.main = .connect then some { s with main := .subscribe } else none
  | .subscribe _ => if s.main = .subscribe then some { s with main := .loopStart } else none
  | .loopStart o =>
      if s.main = .loopStart then
        match o with
        | .success => some { s with main := .stamp, running := true }
        | .failure => some { s with main := .stamp }
      else none
  | .stamp now =>
      if s.main = .stamp ∧ s.i < count then
        some { s with main := .publish, sendTimes := Function.update s.sendTimes s.i now }
      else none
  | .publish _ => if s.main = .publish then some { s with main := .stamp, i := s.i + 1 } else none
  | .lock =>
      if s.main = .stamp ∧ ¬ s.i < count ∧ s.recvMutex = none then
        some { s with main := .check, recvMutex := some .main }
      else none
  | .check =>
      if s.main = .check then
        some { s with main := if s.recvCount < count then .wait else .unlock }
      else none
  | .wait => if s.main = .wait then some { s with main := .waiting, recvMutex := none } else none
  | .spurious => if s.main = .waiting then some { s with main := .woken } else none
  | .relock =>
      if s.main = .woken ∧ s.recvMutex = none then
        some { s with main := .check, recvMutex := some .main }
      else none
  | .unlock =>
      if s.main = .unlock then some { s with main := .loopStop, recvMutex := none } else none
  | .loopStop =>
      if s.main = .loopStop ∧ s.callback = .idle then
        some { s with main := .statistics, running := false }
      else none
  | _ => none

def onMessage (count : ℕ) (a : Action) (s : State) : Option State :=
  match a, s.callback with
  | .invoke msg, .idle =>
      if s.running then
        some { s with callback := if s.recvCount < count then .assign msg else .idle }
      else none
  | .store now, .assign msg => some { s.record msg s.recvCount now with callback := .increment }
  | .increment, .increment => some { s with recvCount := s.recvCount + 1, callback := .compare }
  | .increment, .assign msg => some { s with
      recvCount := s.recvCount + 1, callback := .store msg s.recvCount }
  | .store now, .store msg i => some { s.record msg i now with callback := .compare }
  | .compare, .compare => some { s with
      callback := if s.recvCount = count then .lock else .idle }
  | .callbackLock, .lock =>
      if s.recvMutex = none then
        some { s with callback := .signal, recvMutex := some .callback }
      else none
  | .callbackSignal, .signal => some { s with callback := .unlock, main := s.main.signal }
  | .callbackUnlock, .unlock => some { s with callback := .idle, recvMutex := none }
  | _, _ => none

def Action.ofCallback : Action → Bool
  | .invoke _ | .increment | .store _ | .compare | .callbackLock | .callbackSignal
  | .callbackUnlock => true
  | _ => false

def tick (count : ℕ) (a : Action) (s : State) : Option State :=
  if a.ofCallback then onMessage count a s else mainStep count a s

/-- The arrays are static: they start with what an earlier run has left there. -/
def run (count : ℕ) (sendTimes recvTimes : ℕ → ℤ) : System Action State :=
  ⟨{ sendTimes, recvTimes }, tick count⟩

/-- The arrays at the start of the program. -/
def cleared : ℕ → ℤ := fun _ => 0

/-- Every way in which the callback moves, with all that is known of it. -/
inductive CallbackMove (count : ℕ) (s : State) : Action → State → Prop
  | accept (msg : ℕ) : s.callback = .idle → s.running = true → s.recvCount < count →
      CallbackMove count s (.invoke msg) { s with callback := .assign msg }
  | ignore (msg : ℕ) : s.callback = .idle → s.running = true → ¬ s.recvCount < count →
      CallbackMove count s (.invoke msg) { s with callback := .idle }
  | storeFirst (msg : ℕ) (now : ℤ) : s.callback = .assign msg → CallbackMove count s (.store now)
      { s.record msg s.recvCount now with callback := .increment }
  | incrementLast : s.callback = .increment → CallbackMove count s .increment
      { s with recvCount := s.recvCount + 1, callback := .compare }
  | incrementFirst (msg : ℕ) : s.callback = .assign msg → CallbackMove count s .increment
      { s with recvCount := s.recvCount + 1, callback := .store msg s.recvCount }
  | storeLast (msg i : ℕ) (now : ℤ) : s.callback = .store msg i →
      CallbackMove count s (.store now) { s.record msg i now with callback := .compare }
  | complete : s.callback = .compare → s.recvCount = count →
      CallbackMove count s .compare { s with callback := .lock }
  | incomplete : s.callback = .compare → s.recvCount ≠ count →
      CallbackMove count s .compare { s with callback := .idle }
  | lock : s.callback = .lock → s.recvMutex = none → CallbackMove count s .callbackLock
      { s with callback := .signal, recvMutex := some .callback }
  | signal : s.callback = .signal → CallbackMove count s .callbackSignal
      { s with callback := .unlock, main := s.main.signal }
  | unlock : s.callback = .unlock → CallbackMove count s .callbackUnlock
      { s with callback := .idle, recvMutex := none }

theorem onMessage_move {count : ℕ} {a : Action} {s t : State}
    (h : onMessage count a s = some t) : CallbackMove count s a t := by
  unfold onMessage at h
  split at h
  case h_1 msg hc =>
    split_ifs at h with hr hlt
    · exact Option.some.inj h ▸ .accept msg hc hr hlt
    · exact Option.some.inj h ▸ .ignore msg hc hr hlt
  case h_2 now msg hc => exact Option.some.inj h ▸ .storeFirst msg now hc
  case h_3 hc => exact Option.some.inj h ▸ .incrementLast hc
  case h_4 msg hc => exact Option.some.inj h ▸ .incrementFirst msg hc
  case h_5 now msg i hc => exact Option.some.inj h ▸ .storeLast msg i now hc
  case h_6 hc =>
    split_ifs at h with hn
    · exact Option.some.inj h ▸ .complete hc hn
    · exact Option.some.inj h ▸ .incomplete hc hn
  case h_7 hc =>
    split_ifs at h with hm
    exact Option.some.inj h ▸ .lock hc hm
  case h_8 hc => exact Option.some.inj h ▸ .signal hc
  case h_9 hc => exact Option.some.inj h ▸ .unlock hc
  case h_10 => cases h

/-- Every way in which main moves, with all that is known of it. -/
inductive MainMove (count : ℕ) (s : State) : Action → State → Prop
  | new : s.main = .new → MainMove count s (.new .success) { s with main := .connect }
  | exit : s.main = .new → MainMove count s (.new .failure) { s with main := .exited }
  | connect (o : Outcome) : s.main = .connect →
      MainMove count s (.connect o) { s with main := .subscribe }
  | subscribe (o : Outcome) : s.main = .subscribe →
      MainMove count s (.subscribe o) { s with main := .loopStart }
  | loopStart : s.main = .loopStart →
      MainMove count s (.loopStart .success) { s with main := .stamp, running := true }
  | noThread : s.main = .loopStart →
      MainMove count s (.loopStart .failure) { s with main := .stamp }
  | stamp (now : ℤ) : s.main = .stamp → s.i < count → MainMove count s (.stamp now)
      { s with main := .publish, sendTimes := Function.update s.sendTimes s.i now }
  | publish (o : Outcome) : s.main = .publish →
      MainMove count s (.publish o) { s with main := .stamp, i := s.i + 1 }
  | lock : s.main = .stamp → ¬ s.i < count → s.recvMutex = none →
      MainMove count s .lock { s with main := .check, recvMutex := some .main }
  | incomplete : s.main = .check → s.recvCount < count →
      MainMove count s .check { s with main := .wait }
  | complete : s.main = .check → ¬ s.recvCount < count →
      MainMove count s .check { s with main := .unlock }
  | wait : s.main = .wait → MainMove count s .wait { s with main := .waiting, recvMutex := none }
  | spurious : s.main = .waiting → MainMove count s .spurious { s with main := .woken }
  | relock : s.main = .woken → s.recvMutex = none →
      MainMove count s .relock { s with main := .check, recvMutex := some .main }
  | unlock : s.main = .unlock →
      MainMove count s .unlock { s with main := .loopStop, recvMutex := none }
  | loopStop : s.main = .loopStop → s.callback = .idle →
      MainMove count s .loopStop { s with main := .statistics, running := false }

theorem mainStep_move {count : ℕ} {a : Action} {s t : State}
    (h : mainStep count a s = some t) : MainMove count s a t := by
  cases a <;> simp only [mainStep, Option.ite_none_right_eq_some, reduceCtorEq] at h
  case new o =>
    obtain ⟨hp, h⟩ := h
    cases o
    · exact Option.some.inj h ▸ .new hp
    · exact Option.some.inj h ▸ .exit hp
  case connect o => exact Option.some.inj h.2 ▸ .connect o h.1
  case subscribe o => exact Option.some.inj h.2 ▸ .subscribe o h.1
  case loopStart o =>
    obtain ⟨hp, h⟩ := h
    cases o
    · exact Option.some.inj h ▸ .loopStart hp
    · exact Option.some.inj h ▸ .noThread hp
  case stamp now => exact Option.some.inj h.2 ▸ .stamp now h.1.1 h.1.2
  case publish o => exact Option.some.inj h.2 ▸ .publish o h.1
  case lock => exact Option.some.inj h.2 ▸ .lock h.1.1 h.1.2.1 h.1.2.2
  case check =>
    obtain ⟨hp, h⟩ := h
    split_ifs at h with hlt
    · exact Option.some.inj h ▸ .incomplete hp hlt
    · exact Option.some.inj h ▸ .complete hp hlt
  case wait => exact Option.some.inj h.2 ▸ .wait h.1
  case spurious => exact Option.some.inj h.2 ▸ .spurious h.1
  case relock => exact Option.some.inj h.2 ▸ .relock h.1.1 h.1.2
  case unlock => exact Option.some.inj h.2 ▸ .unlock h.1
  case loopStop => exact Option.some.inj h.2 ▸ .loopStop h.1.1 h.1.2

theorem tick_move {count : ℕ} {a : Action} {s t : State} (h : tick count a s = some t) :
    CallbackMove count s a t ∨ MainMove count s a t := by
  unfold tick at h
  split_ifs at h
  · exact .inl (onMessage_move h)
  · exact .inr (mainStep_move h)

/-- Main holds the mutex exactly at these points. -/
def MainPc.holds : MainPc → Bool
  | .check | .wait | .unlock => true
  | _ => false

/-- Main has seen a complete count. -/
def MainPc.passed : MainPc → Bool
  | .unlock | .loopStop | .statistics => true
  | _ => false

/-- Main has left the publishing loop. -/
def MainPc.published : MainPc → Bool
  | .check | .wait | .waiting | .woken | .unlock | .loopStop | .statistics => true
  | _ => false

/-! A signal only moves main within the wait loop. -/

@[simp] theorem MainPc.signal_holds (p : MainPc) : p.signal.holds = p.holds := by cases p <;> rfl

@[simp] theorem MainPc.signal_published (p : MainPc) : p.signal.published = p.published := by
  cases p <;> rfl

@[simp] theorem MainPc.signal_ne_waiting (p : MainPc) : p.signal ≠ .waiting := by
  cases p <;> simp [signal]

theorem MainPc.signal_eq_iff {p q : MainPc} (hq : q ≠ .waiting ∧ q ≠ .woken) :
    p.signal = q ↔ p = q := by
  cases p <;> simp_all [signal, eq_comm]

def CallbackPc.holds : CallbackPc → Bool
  | .signal | .unlock => true
  | _ => false

/-- The count is below the target, as the callback has read on entry. -/
def CallbackPc.receiving : CallbackPc → Bool
  | .assign _ | .increment => true
  | _ => false

/-- The signal of a count which has just become complete is still to come. -/
def CallbackPc.signalPending : CallbackPc → Bool
  | .store _ _ | .compare | .lock | .signal => true
  | _ => false

/-- The number of slots which have been stored. -/
def State.stored (s : State) : ℕ :=
  match s.callback with
  | .increment => s.recvCount + 1
  | .store _ i => i
  | _ => s.recvCount

structure Invariant (count : ℕ) (s : State) : Prop where
  mutexMain : s.recvMutex = some .main ↔ s.main.holds = true
  mutexCallback : s.recvMutex = some .callback ↔ s.callback.holds = true
  bounded : s.recvCount ≤ count
  receiving : s.callback.receiving = true → s.recvCount < count
  storing : ∀ msg i, s.callback = .store msg i → s.recvCount = i + 1
  complete : s.callback = .lock ∨ s.callback.holds = true → s.recvCount = count
  pending : s.recvCount = count → s.main = .wait ∨ s.main = .waiting →
    s.callback.signalPending = true
  passed : s.main.passed = true → s.recvCount = count
  slots : s.arrivals.map Arrival.slot = List.range s.stored
  recorded : ∀ a ∈ s.arrivals, s.recvTimes a.slot = a.time
  published : s.i ≤ count
  publishing : s.main = .publish → s.i < count
  allPublished : s.main.published = true → s.i = count
  stopped : s.running = false → s.callback = .idle
  quiet : s.main = .statistics → s.running = false

theorem invariant_init (count : ℕ) (sendTimes recvTimes : ℕ → ℤ) :
    Invariant count (run count sendTimes recvTimes).init where
  mutexMain := by simp [run, MainPc.holds]
  mutexCallback := by simp [run, CallbackPc.holds]
  bounded := Nat.zero_le count
  receiving := by simp [run, CallbackPc.receiving]
  storing := by simp [run]
  complete := by simp [run, CallbackPc.holds]
  pending := by simp [run]
  passed := by simp [run, MainPc.passed]
  slots := rfl
  recorded := by simp [run]
  published := Nat.zero_le count
  publishing := by simp [run]
  allPublished := by simp [run, MainPc.published]
  stopped := fun _ => rfl
  quiet := by simp [run]

section Steps
variable {count : ℕ} {s t : State}

theorem Invariant.mutex_eq_none (h : Invariant count s) (hm : s.main.holds = false)
    (hc : s.callback.holds = false) : s.recvMutex = none := by
  have hmain := h.mutexMain
  have hcallback := h.mutexCallback
  cases hr : s.recvMutex with
  | none => rfl
  | some p => cases p <;> simp_all

theorem Invariant.mainMove {a : Action} (h : Invariant count s)
    (hm : MainMove count s a t) : Invariant count t := by
  have hmain := h.mutexMain
  have hfree (hm : s.recvMutex ≠ some .callback) : s.callback.holds = false := by
    simpa [hm] using h.mutexCallback
  cases hm with
  | new hp | exit hp | connect _ hp | subscribe _ hp | noThread hp =>
      simp only [hp, MainPc.holds] at hmain
      exact { h with
        mutexMain := hmain
        pending := by simp
        passed := by simp [MainPc.passed]
        publishing := by simp
        allPublished := by simp [MainPc.published]
        quiet := by simp }
  | loopStart hp =>
      simp only [hp, MainPc.holds] at hmain
      exact { h with
        mutexMain := hmain
        pending := by simp
        passed := by simp [MainPc.passed]
        publishing := by simp
        allPublished := by simp [MainPc.published]
        stopped := by simp
        quiet := by simp }
  | stamp now hp hi =>
      simp only [hp, MainPc.holds] at hmain
      exact { h with
        mutexMain := hmain
        pending := by simp
        passed := by simp [MainPc.passed]
        publishing := fun _ => hi
        allPublished := by simp [MainPc.published]
        quiet := by simp }
  | publish o hp =>
      simp only [hp, MainPc.holds] at hmain
      exact { h with
        mutexMain := hmain
        pending := by simp
        passed := by simp [MainPc.passed]
        published := h.publishing hp
        publishing := by simp
        allPublished := by simp [MainPc.published]
        quiet := by simp }
  | lock hp hi hm =>
      exact { h with
        mutexMain := by simp [MainPc.holds]
        mutexCallback := by simp [hfree (by simp [hm])]
        pending := by simp
        passed := by simp [MainPc.passed]
        publishing := by simp
        allPublished := fun _ => le_antisymm h.published (not_lt.mp hi)
        quiet := by simp }
  | relock hp hm =>
      exact { h with
        mutexMain := by simp [MainPc.holds]
        mutexCallback := by simp [hfree (by simp [hm])]
        pending := by simp
        passed := by simp [MainPc.passed]
        publishing := by simp
        allPublished := fun _ => h.allPublished (by simp [hp, MainPc.published])
        quiet := by simp }
  | incomplete hp hlt =>
      simp only [hp, MainPc.holds, iff_true] at hmain
      exact { h with
        mutexMain := by simp [hmain, MainPc.holds]
        pending := fun hn => absurd hn (Nat.ne_of_lt hlt)
        passed := by simp [MainPc.passed]
        publishing := by simp
        allPublished := fun _ => h.allPublished (by simp [hp, MainPc.published])
        quiet := by simp }
  | complete hp hlt =>
      simp only [hp, MainPc.holds, iff_true] at hmain
      exact { h with
        mutexMain := by simp [hmain, MainPc.holds]
        pending := by simp
        passed := fun _ => le_antisymm h.bounded (not_lt.mp hlt)
        publishing := by simp
        allPublished := fun _ => h.allPublished (by simp [hp, MainPc.published])
        quiet := by simp }
  | wait hp =>
      simp only [hp, MainPc.holds, iff_true] at hmain
      exact { h with
        mutexMain := by simp [MainPc.holds]
        mutexCallback := by simp [hfree (by simp [hmain])]
        pending := fun hn _ => h.pending hn (.inl hp)
        passed := by simp [MainPc.passed]
        publishing := by simp
        allPublished := fun _ => h.allPublished (by simp [hp, MainPc.published])
        quiet := by simp }
  | spurious hp =>
      simp only [hp, MainPc.holds] at hmain
      exact { h with
        mutexMain := hmain
        pending := by simp
        passed := by simp [MainPc.passed]
        publishing := by simp
        allPublished := fun _ => h.allPublished (by simp [hp, MainPc.published])
        quiet := by simp }
  | unlock hp =>
      simp only [hp, MainPc.holds, iff_true] at hmain
      exact { h with
        mutexMain := by simp [MainPc.holds]
        mutexCallback := by simp [hfree (by simp [hmain])]
        pending := by simp
        passed := fun _ => h.passed (by simp [hp, MainPc.passed])
        publishing := by simp
        allPublished := fun _ => h.allPublished (by simp [hp, MainPc.published])
        quiet := by simp }
  | loopStop hp hc =>
      simp only [hp, MainPc.holds] at hmain
      exact { h with
        mutexMain := hmain
        pending := by simp
        passed := fun _ => h.passed (by simp [hp, MainPc.passed])
        publishing := by simp
        allPublished := fun _ => h.allPublished (by simp [hp, MainPc.published])
        stopped := fun _ => hc
        quiet := fun _ => rfl }

theorem Invariant.running (h : Invariant count s) (hc : s.callback ≠ .idle) : s.running = true := by
  by_contra hr
  exact hc (h.stopped (by simpa using hr))

/-- The slots stay those below the count when the next one is stored. -/
theorem slots_record {n : ℕ} (h : s.arrivals.map Arrival.slot = List.range n) (msg : ℕ) (now : ℤ) :
    (s.record msg n now).arrivals.map Arrival.slot = List.range (n + 1) := by
  simp [State.record, List.range_succ, h]

theorem recorded_record {n : ℕ} (h : s.arrivals.map Arrival.slot = List.range n)
    (hr : ∀ a ∈ s.arrivals, s.recvTimes a.slot = a.time) (msg : ℕ) (now : ℤ) :
    ∀ a ∈ (s.record msg n now).arrivals, (s.record msg n now).recvTimes a.slot = a.time := by
  intro a ha
  simp only [State.record, List.mem_append, List.mem_singleton] at ha ⊢
  rcases ha with ha | rfl
  · have hlt : a.slot ∈ List.range n := h ▸ List.mem_map_of_mem ha
    rw [Function.update_of_ne (Nat.ne_of_lt (List.mem_range.mp hlt))]
    exact hr a ha
  · exact Function.update_self ..

theorem Invariant.callbackMove {a : Action} (h : Invariant count s)
    (hm : CallbackMove count s a t) : Invariant count t := by
  have hcallback := h.mutexCallback
  have hslots := h.slots
  have hpending := h.pending
  cases hm with
  | accept msg hc hr hlt =>
      simp only [hc, CallbackPc.holds] at hcallback
      simp only [State.stored, hc] at hslots
      exact { h with
        mutexCallback := hcallback
        receiving := fun _ => hlt
        storing := by simp
        complete := by simp [CallbackPc.holds]
        pending := fun hn => absurd hn (Nat.ne_of_lt hlt)
        slots := hslots
        stopped := by simp [hr] }
  | ignore msg hc hr hlt =>
      have heq : { s with callback := .idle } = s := by rw [← hc]
      exact heq ▸ h
  | storeFirst msg now hc =>
      simp only [hc, CallbackPc.holds] at hcallback
      simp only [State.stored, hc] at hslots
      have hlt := h.receiving (by simp [hc, CallbackPc.receiving])
      have hr := h.running (by simp [hc])
      exact { h with
        mutexCallback := hcallback
        receiving := fun _ => hlt
        storing := by simp
        complete := by simp [CallbackPc.holds]
        pending := fun hn => absurd hn (Nat.ne_of_lt hlt)
        slots := slots_record hslots msg now
        recorded := recorded_record hslots h.recorded msg now
        stopped := by simp [State.record, hr] }
  | incrementLast hc | incrementFirst msg hc =>
      simp only [hc, CallbackPc.holds] at hcallback
      simp only [State.stored, hc] at hslots
      have hlt := h.receiving (by simp [hc, CallbackPc.receiving])
      have hr := h.running (by simp [hc])
      exact { h with
        mutexCallback := hcallback
        bounded := hlt
        receiving := by simp [CallbackPc.receiving]
        storing := by simp
        complete := by simp [CallbackPc.holds]
        pending := by simp [CallbackPc.signalPending]
        passed := fun hp => absurd (h.passed hp) (Nat.ne_of_lt hlt)
        slots := hslots
        stopped := by simp [hr] }
  | storeLast msg i now hc =>
      simp only [hc, CallbackPc.holds] at hcallback
      simp only [State.stored, hc] at hslots
      have hr := h.running (by simp [hc])
      have hi := h.storing msg i hc
      exact { h with
        mutexCallback := hcallback
        receiving := by simp [CallbackPc.receiving]
        storing := by simp
        complete := by simp [CallbackPc.holds]
        pending := by simp [CallbackPc.signalPending]
        slots := by simpa [State.stored, State.record, hi] using slots_record hslots msg now
        recorded := recorded_record hslots h.recorded msg now
        stopped := by simp [State.record, hr] }
  | complete hc hn =>
      simp only [hc, CallbackPc.holds] at hcallback
      simp only [State.stored, hc] at hslots
      have hr := h.running (by simp [hc])
      exact { h with
        mutexCallback := hcallback
        receiving := by simp [CallbackPc.receiving]
        storing := by simp
        complete := fun _ => hn
        pending := by simp [CallbackPc.signalPending]
        slots := hslots
        stopped := by simp [hr] }
  | incomplete hc hn =>
      simp only [hc, CallbackPc.holds] at hcallback
      simp only [State.stored, hc] at hslots
      exact { h with
        mutexCallback := hcallback
        receiving := by simp [CallbackPc.receiving]
        storing := by simp
        complete := by simp [CallbackPc.holds]
        pending := fun h => absurd h hn
        slots := hslots
        stopped := fun _ => rfl }
  | lock hc hm =>
      have hmain : s.main.holds = false := by simpa [hm] using h.mutexMain
      simp only [State.stored, hc] at hslots
      have hr := h.running (by simp [hc])
      have hn := h.complete (.inl hc)
      exact { h with
        mutexMain := by simp [hmain]
        mutexCallback := by simp [CallbackPc.holds]
        receiving := by simp [CallbackPc.receiving]
        storing := by simp
        complete := fun _ => hn
        pending := by simp [CallbackPc.signalPending]
        slots := hslots
        stopped := by simp [hr] }
  | signal hc =>
      have hm : s.recvMutex = some .callback := hcallback.mpr (by simp [hc, CallbackPc.holds])
      have hmain : s.main.holds = false := by simpa [hm] using h.mutexMain
      simp only [State.stored, hc] at hslots
      have hr := h.running (by simp [hc])
      have hn := h.complete (.inr (by simp [hc, CallbackPc.holds]))
      exact { h with
        mutexMain := by simpa using h.mutexMain
        mutexCallback := by simp [hm, CallbackPc.holds]
        receiving := by simp [CallbackPc.receiving]
        storing := by simp
        complete := fun _ => hn
        pending := by
          -- main does not hold the mutex, so it is not before its wait either
          rintro - (hp | hp)
          · rw [MainPc.signal_eq_iff (by decide)] at hp
            simp [hp, MainPc.holds] at hmain
          · exact absurd hp (MainPc.signal_ne_waiting _)
        passed := fun _ => hn
        slots := hslots
        publishing := fun hp => h.publishing ((MainPc.signal_eq_iff (by decide)).mp hp)
        allPublished := fun hp => h.allPublished (by simpa using hp)
        stopped := by simp [hr]
        quiet := fun hp => h.quiet ((MainPc.signal_eq_iff (by decide)).mp hp) }
  | unlock hc =>
      have hm : s.recvMutex = some .callback := hcallback.mpr (by simp [hc, CallbackPc.holds])
      have hmain : s.main.holds = false := by simpa [hm] using h.mutexMain
      simp only [State.stored, hc] at hslots
      simp only [hc, CallbackPc.signalPending, Bool.false_eq_true] at hpending
      exact { h with
        mutexMain := by simp [hmain]
        mutexCallback := by simp [CallbackPc.holds]
        receiving := by simp [CallbackPc.receiving]
        storing := by simp
        complete := by simp [CallbackPc.holds]
        pending := fun hn hp => (hpending hn hp).elim
        slots := hslots
        stopped := fun _ => rfl }

theorem Invariant.tick {a : Action} (h : Invariant count s)
    (ht : tick count a s = some t) : Invariant count t :=
  (tick_move ht).elim h.callbackMove h.mainMove

end Steps

/-- Moves of the program itself, without failing calls and spurious wakeups. -/
def Action.regular : Action → Bool
  | .new .failure | .connect .failure | .subscribe .failure | .loopStart .failure
  | .publish .failure | .spurious | .invoke _ => false
  | _ => true

/-- The messages which an action puts under way. -/
def Action.publishes : Action → ℕ
  | .publish _ => 1
  | _ => 0

/-- What is left of main's calls. A recheck costs more while the count is
incomplete, since it ends in the wait set. -/
def State.mainLeft (count : ℕ) (s : State) : ℕ :=
  match s.main with
  | .new => 14 + 10 * (count - s.i)
  | .connect => 13 + 10 * (count - s.i)
  | .subscribe => 12 + 10 * (count - s.i)
  | .loopStart => 11 + 10 * (count - s.i)
  | .stamp => 10 + 10 * (count - s.i)
  | .publish => 9 + 10 * (count - s.i)
  | .woken => if s.recvCount < count then 8 else 4
  | .check => if s.recvCount < count then 7 else 3
  | .wait => 6
  | .waiting => 5
  | .unlock => 2
  | .loopStop => 1
  | .statistics | .exited => 0

def CallbackPc.left : CallbackPc → ℕ
  | .assign _ => 6
  | .increment | .store _ _ => 5
  | .compare => 4
  | .lock => 3
  | .signal => 2
  | .unlock => 1
  | .idle => 0

def State.left (count : ℕ) (s : State) : ℕ := s.mainLeft count + s.callback.left

/-- Main has not yet started the network thread, or never will. -/
def MainPc.starting : MainPc → Bool
  | .new | .connect | .subscribe | .loopStart | .exited => true
  | _ => false

@[simp] theorem MainPc.signal_starting (p : MainPc) : p.signal.starting = p.starting := by
  cases p <;> rfl

/-- The messages which `on_message` counts or is about to count. -/
def State.accepted (s : State) : ℕ :=
  if s.callback.receiving then s.recvCount + 1 else s.recvCount

/-- The slots of `sendTimes` which have been stored. -/
def State.stamped (s : State) : ℕ := if s.main = .publish then s.i + 1 else s.i

/-- The send times of the test so far, in the order of their messages. -/
def State.sends (s : State) : List ℤ := (List.range s.stamped).map s.sendTimes

/-- The send time that an action takes. -/
def Action.sends : Action → List ℤ
  | .stamp now => [now]
  | _ => []

/-- The message whose reception is counted but not stored yet. -/
def CallbackPc.message : CallbackPc → List ℕ
  | .assign msg | .store msg _ => [msg]
  | _ => []

/-- The messages whose receptions are or will be stored, in order. -/
def State.taken (s : State) : List ℕ := s.arrivals.map Arrival.msg ++ s.callback.message

/-- The message for which an action invokes the callback. -/
def Action.invoked : Action → List ℕ
  | .invoke msg => [msg]
  | _ => []

section Moves
variable {count : ℕ} {a : Action} {s t : State}

theorem MainMove.callback (h : MainMove count s a t) :
    t.callback = s.callback ∧ t.recvCount = s.recvCount ∧ t.arrivals = s.arrivals := by
  cases h <;> exact ⟨rfl, rfl, rfl⟩

theorem MainMove.ofCallback (h : MainMove count s a t) : a.ofCallback = false := by
  cases h <;> rfl

/-- The callback moves main at most by its signal. -/
theorem CallbackMove.main (h : CallbackMove count s a t) :
    t.main = s.main ∨ t.main = s.main.signal := by
  cases h with
  | signal => exact .inr rfl
  | _ => exact .inl rfl

theorem CallbackMove.main_eq_iff {p : MainPc} (h : CallbackMove count s a t)
    (hp : p ≠ .waiting ∧ p ≠ .woken) : t.main = p ↔ s.main = p := by
  rcases h.main with hm | hm
  · rw [hm]
  · rw [hm, MainPc.signal_eq_iff hp]

theorem CallbackMove.starting (h : CallbackMove count s a t) :
    t.main.starting = s.main.starting := by
  rcases h.main with hm | hm <;> simp [hm]

theorem tick_i (ht : tick count a s = some t) : t.i = s.i + a.publishes := by
  rcases tick_move ht with hm | hm <;> cases hm <;> rfl

/-- Nothing leads back to the start, and before it the callback does not run. -/
theorem tick_starting (ht : tick count a s = some t) (hs : t.main.starting = true)
    (hidle : s.main.starting = true → s.running = false ∧ s.callback = .idle) :
    s.main.starting = true ∧ t.running = false ∧ a.ofCallback = false ∧ a.publishes = 0 := by
  rcases tick_move ht with hm | hm
  · obtain ⟨hr, hc⟩ := hidle (hm.starting ▸ hs)
    cases hm <;> simp_all
  · cases hm with
    | new hp | exit hp | connect o hp | subscribe o hp =>
        have hback : s.main.starting = true := by simp [hp, MainPc.starting]
        exact ⟨hback, (hidle hback).1, rfl, rfl⟩
    | _ => simp [MainPc.starting] at hs

/-- Once started, the program does not go back. -/
theorem tick_started (ht : tick count a s = some t) (hn : s.main ≠ .new) (he : s.main ≠ .exited) :
    t.main ≠ .new ∧ t.main ≠ .exited := by
  rcases tick_move ht with hm | hm
  · rw [ne_eq, ne_eq, hm.main_eq_iff (by decide), hm.main_eq_iff (by decide)]
    exact ⟨hn, he⟩
  · cases hm with
    | new hp | exit hp => exact absurd hp hn
    | _ => simp

/-- Between its start and its stop the network thread runs. -/
theorem tick_running (ht : tick count a s = some t) (ha : a ≠ .loopStart .failure)
    (hs : s.main.starting = false → s.main ≠ .statistics → s.running = true)
    (hm : t.main.starting = false) (hstat : t.main ≠ .statistics) : t.running = true := by
  rcases tick_move ht with hmove | hmove
  · rw [hmove.starting] at hm
    rw [ne_eq, hmove.main_eq_iff (by decide)] at hstat
    have hr := hs hm hstat
    cases hmove <;> exact hr
  · cases hmove with
    | loopStart => rfl
    | noThread => exact absurd rfl ha
    | new | exit | connect | subscribe | loopStop => simp [MainPc.starting] at hm hstat
    | stamp _ hp | publish _ hp | lock hp | incomplete hp | complete hp | wait hp | spurious hp
    | relock hp | unlock hp => exact hs (by simp [hp, MainPc.starting]) (by simp [hp])

theorem tick_accepted (ht : tick count a s = some t)
    (ha : ∀ msg, a ≠ .invoke msg) : t.accepted = s.accepted := by
  rcases tick_move ht with hm | hm
  · cases hm with
    | accept msg | ignore msg => exact absurd rfl (ha msg)
    | storeFirst _ _ hc | incrementLast hc | incrementFirst _ hc | storeLast _ _ _ hc
    | complete hc | incomplete hc | lock hc | signal hc | unlock hc =>
        simp [State.accepted, State.record, CallbackPc.receiving, hc]
  · obtain ⟨hc, hn, -⟩ := hm.callback
    rw [State.accepted, State.accepted, hc, hn]

theorem tick_invoke {msg : ℕ} (h : Invariant count s) (ht : tick count (.invoke msg) s = some t) :
    t.accepted = min count (s.accepted + 1) := by
  have hb := h.bounded
  cases onMessage_move (by simpa [tick, Action.ofCallback] using ht) with
  | accept _ hc _ hlt =>
      simp only [State.accepted, CallbackPc.receiving, hc, if_true, Bool.false_eq_true, if_false]
      omega
  | ignore _ hc _ hlt =>
      simp only [State.accepted, CallbackPc.receiving, hc, Bool.false_eq_true, if_false]
      omega

theorem tick_stamped (ht : tick count a s = some t) :
    (∃ now, a = .stamp now ∧ t.stamped = s.stamped + 1 ∧
      t.sendTimes = Function.update s.sendTimes s.stamped now) ∨
    t.stamped = s.stamped ∧ t.sendTimes = s.sendTimes := by
  rcases tick_move ht with hm | hm
  · right
    have hpublish := hm.main_eq_iff (p := .publish) (by decide)
    unfold State.stamped
    simp only [hpublish]
    cases hm <;> exact ⟨rfl, rfl⟩
  · cases hm with
    | stamp now hp =>
        left
        exact ⟨now, rfl, by simp [State.stamped, hp], by simp [State.stamped, hp]⟩
    | new hp | exit hp | connect _ hp | subscribe _ hp | loopStart hp | noThread hp
    | publish _ hp | lock hp | incomplete hp | complete hp | wait hp | spurious hp | relock hp
    | unlock hp | loopStop hp => simp [State.stamped, hp]

/-- Each send time goes behind those before it, and nothing else changes one. -/
theorem tick_sends (ht : tick count a s = some t) : t.sends = s.sends ++ a.sends := by
  rcases tick_move ht with hm | hm
  · have hpublish := hm.main_eq_iff (p := .publish) (by decide)
    unfold State.sends State.stamped
    simp only [hpublish]
    cases hm <;> exact (List.append_nil _).symm
  · cases hm with
    | stamp now hp =>
        have hbefore : ∀ i ∈ List.range s.i,
            Function.update s.sendTimes s.i now i = s.sendTimes i := fun i hi =>
          Function.update_of_ne (Nat.ne_of_lt (List.mem_range.mp hi)) now s.sendTimes
        simp [State.sends, State.stamped, Action.sends, hp, List.range_succ,
          List.map_congr_left hbefore]
    | new hp | exit hp | connect _ hp | subscribe _ hp | loopStart hp | noThread hp
    | publish _ hp | lock hp | incomplete hp | complete hp | wait hp | spurious hp | relock hp
    | unlock hp | loopStop hp => simp [State.sends, State.stamped, Action.sends, hp]

theorem tick_arrivals (ht : tick count a s = some t) : t.arrivals = s.arrivals ∨
    ∃ now i msg, a = .store now ∧ msg ∈ s.callback.message ∧
      t.arrivals = s.arrivals ++ [⟨i, msg, now⟩] := by
  rcases tick_move ht with hm | hm
  · cases hm with
    | storeFirst msg now hc => exact .inr ⟨now, _, msg, rfl, by simp [hc, CallbackPc.message], rfl⟩
    | storeLast msg i now hc => exact .inr ⟨now, i, msg, rfl, by simp [hc, CallbackPc.message], rfl⟩
    | _ => exact .inl rfl
  · exact .inl hm.callback.2.2

theorem tick_taken (ht : tick count a s = some t) :
    t.taken = s.taken ++ if s.recvCount < count then a.invoked else [] := by
  rcases tick_move ht with hm | hm
  · cases hm with
    | accept msg hc _ hlt => simp [State.taken, CallbackPc.message, Action.invoked, hc, hlt]
    | ignore msg hc _ hlt => simp [State.taken, CallbackPc.message, hc, hlt]
    | storeFirst _ _ hc | incrementLast hc | incrementFirst _ hc | storeLast _ _ _ hc
    | complete hc | incomplete hc | lock hc | signal hc | unlock hc =>
        simp [State.taken, State.record, CallbackPc.message, Action.invoked, hc]
  · have hinvoked : a.invoked = [] := by cases hm <;> rfl
    simp [State.taken, hinvoked, hm.callback]

/-- A message comes to an idle callback. -/
theorem tick_idle {msg : ℕ} (ht : tick count (.invoke msg) s = some t) :
    s.accepted = s.recvCount := by
  cases onMessage_move (by simpa [tick, Action.ofCallback] using ht) with
  | accept _ hc | ignore _ hc => simp [State.accepted, CallbackPc.receiving, hc]

theorem Invariant.length_arrivals (h : Invariant count s) : s.arrivals.length = s.stored := by
  simpa using congrArg List.length h.slots

theorem Invariant.length_taken (h : Invariant count s) : s.taken.length = s.accepted := by
  have hstored := h.length_arrivals
  unfold State.taken State.accepted
  rw [List.length_append, List.length_map, hstored]
  unfold State.stored
  cases hc : s.callback with
  | store msg i => simp [CallbackPc.message, CallbackPc.receiving, h.storing msg i hc]
  | _ => simp [CallbackPc.message, CallbackPc.receiving]

end Moves

/-- Some thread moves by itself, and what it does pays for what it publishes. -/
def Advances (count : ℕ) (s : State) : Prop :=
  ∃ a t, a.regular = true ∧ tick count a s = some t ∧
    t.left count + 8 * a.publishes < s.left count

section Progress
variable {count : ℕ} {s t : State}

theorem mainLeft_increment (count : ℕ) (s : State) (c : CallbackPc) :
    State.mainLeft count { s with recvCount := s.recvCount + 1, callback := c } ≤
      s.mainLeft count := by
  cases hp : s.main <;> simp only [State.mainLeft, hp, le_refl] <;> split_ifs <;> omega

theorem mainLeft_signal (hn : s.recvCount = count) :
    State.mainLeft count { s with callback := .unlock, main := s.main.signal } ≤
      s.mainLeft count := by
  cases hp : s.main <;> simp [State.mainLeft, MainPc.signal, hp, hn]

theorem advances_callback {a : Action} (hc : onMessage count a s = some t)
    (ha : a.regular = true) (ho : a.ofCallback = true)
    (hm : t.mainLeft count ≤ s.mainLeft count) (hl : t.callback.left < s.callback.left) :
    Advances count s := by
  refine ⟨a, t, ha, by rw [PubSubTest.tick, if_pos ho, hc], ?_⟩
  have hp : a.publishes = 0 := by cases a <;> simp_all [Action.publishes, Action.ofCallback]
  unfold State.left
  omega

theorem advances_main {a : Action} (hc : mainStep count a s = some t)
    (ha : a.regular = true) (ho : a.ofCallback = false)
    (hm : t.mainLeft count + 8 * a.publishes < s.mainLeft count) : Advances count s := by
  refine ⟨a, t, ha, by rw [PubSubTest.tick, if_neg (by simp [ho]), hc], ?_⟩
  rw [State.left, State.left, (mainStep_move hc).callback.1]
  omega

/-- The callback gets on unless it needs the mutex and main holds it. -/
theorem Invariant.callback_advances (h : Invariant count s) (hc : s.callback ≠ .idle)
    (hm : s.main.holds = false) : Advances count s := by
  cases hcb : s.callback with
  | idle => exact absurd hcb hc
  | assign msg =>
      apply advances_callback (a := .increment) (by simp only [onMessage, hcb]; rfl) rfl rfl
      · exact mainLeft_increment count s _
      · simp [hcb, CallbackPc.left]
  | increment =>
      apply advances_callback (a := .increment) (by simp only [onMessage, hcb]; rfl) rfl rfl
      · exact mainLeft_increment count s _
      · simp [hcb, CallbackPc.left]
  | store msg i =>
      apply advances_callback (a := .store 0) (by simp only [onMessage, hcb]; rfl) rfl rfl
      · exact le_refl _
      · simp [hcb, CallbackPc.left]
  | compare =>
      apply advances_callback (a := .compare) (by simp only [onMessage, hcb]; rfl) rfl rfl
      · exact le_refl _
      · split_ifs <;> simp [hcb, CallbackPc.left]
  | lock =>
      have hfree := h.mutex_eq_none hm (by simp [hcb, CallbackPc.holds])
      apply advances_callback (a := .callbackLock)
        (by simp only [onMessage, hcb, hfree, if_true]; rfl) rfl rfl
      · exact le_refl _
      · simp [hcb, CallbackPc.left]
  | signal =>
      apply advances_callback (a := .callbackSignal) (by simp only [onMessage, hcb]; rfl) rfl rfl
      · exact mainLeft_signal (h.complete (.inr (by simp [hcb, CallbackPc.holds])))
      · simp [hcb, CallbackPc.left]
  | unlock =>
      apply advances_callback (a := .callbackUnlock) (by simp only [onMessage, hcb]; rfl) rfl rfl
      · exact le_refl _
      · simp [hcb, CallbackPc.left]

/-- Until main is at the statistics, some thread moves by itself or main waits
for a message. -/
theorem Invariant.advances (h : Invariant count s) (hs : s.main ≠ .statistics)
    (he : s.main ≠ .exited) : Advances count s ∨
      s.main = .waiting ∧ s.callback = .idle ∧ s.recvCount < count := by
  have hcallback (hc : s.callback.holds = true) (hm : s.main.holds = false) : Advances count s :=
    h.callback_advances (fun hi => by simp [hi, CallbackPc.holds] at hc) hm
  cases hp : s.main with
  | statistics => exact absurd hp hs
  | exited => exact absurd hp he
  | new =>
      left
      apply advances_main (a := .new .success)
        (by simp only [PubSubTest.mainStep, hp, if_true]; rfl) rfl rfl
      simp [State.mainLeft, hp, Action.publishes]
  | connect =>
      left
      apply advances_main (a := .connect .success)
        (by simp only [PubSubTest.mainStep, hp, if_true]; rfl) rfl rfl
      simp [State.mainLeft, hp, Action.publishes]
  | subscribe =>
      left
      apply advances_main (a := .subscribe .success)
        (by simp only [PubSubTest.mainStep, hp, if_true]; rfl) rfl rfl
      simp [State.mainLeft, hp, Action.publishes]
  | loopStart =>
      left
      apply advances_main (a := .loopStart .success)
        (by simp only [PubSubTest.mainStep, hp, if_true]; rfl) rfl rfl
      simp [State.mainLeft, hp, Action.publishes]
  | stamp =>
      left
      by_cases hi : s.i < count
      · apply advances_main (a := .stamp 0)
          (by simp only [PubSubTest.mainStep, hp, hi, and_self, if_true]; rfl) rfl rfl
        simp [State.mainLeft, hp, Action.publishes]
      · cases hc : s.callback.holds with
        | true => exact hcallback hc (by simp [hp, MainPc.holds])
        | false =>
            have hfree := h.mutex_eq_none (by simp [hp, MainPc.holds]) hc
            apply advances_main (a := .lock)
              (by simp only [PubSubTest.mainStep, hp, hi, hfree, not_false_eq_true, and_self,
                if_true]; rfl) rfl rfl
            simp only [State.mainLeft, hp, Action.publishes]
            split_ifs <;> omega
  | publish =>
      left
      have hi := h.publishing hp
      apply advances_main (a := .publish .success)
        (by simp only [PubSubTest.mainStep, hp, if_true]; rfl) rfl rfl
      simp only [State.mainLeft, hp, Action.publishes]
      omega
  | check =>
      left
      apply advances_main (a := .check)
        (by simp only [PubSubTest.mainStep, hp, if_true]; rfl) rfl rfl
      split_ifs with hlt <;> simp [State.mainLeft, hp, hlt, Action.publishes]
  | wait =>
      left
      apply advances_main (a := .wait)
        (by simp only [PubSubTest.mainStep, hp, if_true]; rfl) rfl rfl
      simp [State.mainLeft, hp, Action.publishes]
  | woken =>
      left
      cases hc : s.callback.holds with
      | true => exact hcallback hc (by simp [hp, MainPc.holds])
      | false =>
          have hfree := h.mutex_eq_none (by simp [hp, MainPc.holds]) hc
          apply advances_main (a := .relock)
            (by simp only [PubSubTest.mainStep, hp, hfree, and_self, if_true]; rfl) rfl rfl
          simp only [State.mainLeft, hp, Action.publishes]
          split_ifs <;> omega
  | unlock =>
      left
      apply advances_main (a := .unlock)
        (by simp only [PubSubTest.mainStep, hp, if_true]; rfl) rfl rfl
      simp [State.mainLeft, hp, Action.publishes]
  | loopStop =>
      left
      by_cases hc : s.callback = .idle
      · apply advances_main (a := .loopStop)
          (by simp only [PubSubTest.mainStep, hp, hc, and_self, if_true]; rfl) rfl rfl
        simp [State.mainLeft, hp, Action.publishes]
      · exact h.callback_advances hc (by simp [hp, MainPc.holds])
  | waiting =>
      by_cases hc : s.callback = .idle
      · rcases lt_or_eq_of_le h.bounded with hlt | hn
        · exact .inr ⟨rfl, hc, hlt⟩
        · have hpending := h.pending hn (.inr hp)
          simp [hc, CallbackPc.signalPending] at hpending
      · exact .inl (h.callback_advances hc (by simp [hp, MainPc.holds]))

end Progress

section Runs
variable {count : ℕ} {sendTimes recvTimes : ℕ → ℤ} {s : State} {as : List Action}

theorem invariant_of_run (h : (run count sendTimes recvTimes).Run as
    (run count sendTimes recvTimes).init s) : Invariant count s :=
  h.invariant (fun _ => True) (fun _ _ => trivial) (invariant_init count sendTimes recvTimes)
    fun _ _ _ _ => Invariant.tick

/-- After its signal the callback only ignores messages. -/
theorem signalled (h : (run count sendTimes recvTimes).Run as
      (run count sendTimes recvTimes).init s) (hs : .callbackSignal ∈ as) :
    s.recvCount = count ∧ s.callback.signalPending = false := by
  have hall : Invariant count s ∧ (.callbackSignal ∈ as →
      s.recvCount = count ∧ (s.callback = .idle ∨ s.callback = .unlock)) := by
    apply h.history (P := fun as s => Invariant count s ∧ (.callbackSignal ∈ as →
      s.recvCount = count ∧ (s.callback = .idle ∨ s.callback = .unlock)))
    · exact ⟨invariant_init count sendTimes recvTimes, by simp⟩
    · intro as a u v hu ht
      have hinv := hu.1
      refine ⟨hinv.tick ht, fun hmem => ?_⟩
      rcases tick_move ht with hm | hm
      · rcases List.mem_append.mp hmem with hmem | hmem
        · obtain ⟨hn, hc⟩ := hu.2 hmem
          cases hm with
          | accept _ _ _ hlt => exact absurd hn (Nat.ne_of_lt hlt)
          | ignore => exact ⟨hn, .inl rfl⟩
          | unlock => exact ⟨hn, .inl rfl⟩
          | storeFirst _ _ hp | incrementLast hp | incrementFirst _ hp | storeLast _ _ _ hp
          | complete hp | incomplete hp | lock hp | signal hp => simp [hp] at hc
        · obtain rfl := List.mem_singleton.mp hmem
          cases hm with
          | signal hp =>
              exact ⟨hinv.complete (.inr (by simp [hp, CallbackPc.holds])), .inr rfl⟩
      · have hnot : .callbackSignal ∉ [a] := by
          intro hmem
          have ho := hm.ofCallback
          rw [← List.mem_singleton.mp hmem] at ho
          cases ho
        obtain ⟨hc, hn, -⟩ := hm.callback
        rw [hc, hn]
        exact hu.2 ((List.mem_append.mp hmem).resolve_right hnot)
  obtain ⟨hn, hc⟩ := hall.2 hs
  refine ⟨hn, ?_⟩
  rcases hc with hc | hc <;> simp [hc, CallbackPc.signalPending]

/-- No wakeup is lost, main passes only a complete count, and every slot of the
array is stored at most once and none beside it. -/
theorem completion_handshake (h : (run count sendTimes recvTimes).Run as
      (run count sendTimes recvTimes).init s) :
    ¬ (s.recvCount = count ∧ .callbackSignal ∈ as ∧ s.main = .waiting) ∧
    (s.recvCount = count → s.main = .waiting → s.callback.signalPending = true) ∧
    (s.main.passed = true → s.recvCount = count) ∧
    (∀ a ∈ s.arrivals, a.slot < count) ∧ (s.arrivals.map Arrival.slot).Nodup := by
  have hinv := invariant_of_run h
  have hpending (hn : s.recvCount = count) (hm : s.main = .waiting) :
      s.callback.signalPending = true := hinv.pending hn (.inr hm)
  have hstored : s.stored ≤ count := by
    have hb := hinv.bounded
    unfold State.stored
    split
    · next hc => exact hinv.receiving (by simp [hc, CallbackPc.receiving])
    · next msg i hc =>
        have hi := hinv.storing msg i hc
        omega
    · exact hb
  refine ⟨?_, hpending, hinv.passed, ?_, ?_⟩
  · rintro ⟨hn, hs, hm⟩
    simpa [hpending hn hm] using (signalled h hs).2
  · intro a ha
    have hmem : a.slot ∈ List.range s.stored := hinv.slots ▸ List.mem_map_of_mem ha
    exact lt_of_lt_of_le (List.mem_range.mp hmem) hstored
  · rw [hinv.slots]
    exact List.nodup_range

theorem completion_handshake_once : ∃ s : State, s.callback.signalPending = true ∧
    s.main = .waiting ∧ s.recvTimes 0 = 7 := by
  have h : ∃ s, (run 1 cleared cleared).Run [.new .success, .connect .success, .subscribe .success,
      .loopStart .success, .stamp 5, .publish .success, .lock, .check, .invoke 0, .increment,
      .wait, .store 7, .compare] (run 1 cleared cleared).init s ∧ s.recvCount = 1 ∧
      s.main = .waiting ∧ s.recvTimes 0 = 7 := ⟨_, rfl, by decide, by decide, by decide⟩
  obtain ⟨s, hrun, hn, hm, ht⟩ := h
  exact ⟨s, (completion_handshake hrun).2.1 hn hm, hm, ht⟩

end Runs

end MicrokernelBenchmark.PubSubTest
