import MicrokernelBenchmark.TransitionSystem
import MicrokernelBenchmark.BoundedQueue
import MicrokernelBenchmark.EchoLoop

/-!
# Round trips over one shared queue

`ipc_latency` after the fork: parent and child send to and receive from the same
queue `mq`, so the parent can take back the message it has just sent. A message
carries the bytes which are queued. Two annotations of it are read by no step:
the round in which the parent sent it, and how often the child has sent it back.

The message is conserved in every schedule. Whether a measured round is a real
round trip is a question of the schedule alone, and the condition is exact.
-/
namespace MicrokernelBenchmark.IpcLatency
open TransitionSystem EchoLoop

def msgSize : ℕ := 64
def mqMaxmsg : ℕ := 10
def iterations : ℕ := 10000

/-- A `char` array on the stack; bytes never written are undefined. -/
abbrev Buffer := List (Option UInt8)

structure Message where
  bytes : List UInt8
  round : ℕ
  echoes : ℕ
deriving DecidableEq, Repr

abbrev Queue := BoundedQueue Message mqMaxmsg

/-- The text "ping" with its terminator. -/
def ping : List UInt8 := [112, 105, 110, 103, 0]

/-- Undefined when the scan meets an undefined byte or leaves the array. -/
def strlen : Buffer → Option ℕ
  | [] => none
  | none :: _ => none
  | some b :: rest => if b = 0 then some 0 else (strlen rest).map (· + 1)

/-- The bytes of `mq_send(mq, buffer, strlen(buffer) + 1, 0)`. -/
def payload (buffer : Buffer) : Option (List UInt8) :=
  (strlen buffer).bind fun k => (buffer.take (k + 1)).mapM id

/-- `mq_receive` overwrites the front of the buffer. -/
def fill (bytes : List UInt8) (buffer : Buffer) : Buffer :=
  bytes.map some ++ buffer.drop bytes.length

structure State where
  mq : Queue := .empty
  parent : ParentPc := .loop
  parentI : ℕ := 0
  parentBuf : Buffer
  start : Timespec := ⟨0, 0⟩
  maxLatency : ℤ := 0
  child : ChildPc := .loop
  childI : ℕ := 0
  childBuf : Buffer := List.replicate msgSize none
  heldRound : ℕ := 0
  heldEchoes : ℕ := 0
  rounds : List (Round Message) := []
deriving DecidableEq

/-- One call of either process. `none` means that the process is elsewhere, that
the call blocks or that the string it would send is undefined. -/
def tick (n : ℕ) (a : Action) (s : State) : Option State :=
  match a with
  | .parentSend start .success =>
      if s.parent = .loop ∧ s.parentI < n then
        (payload s.parentBuf).bind fun bytes =>
          (s.mq.send ⟨bytes, s.parentI, 0⟩).map fun q =>
            { s with mq := q, parent := .receive, start := start }
      else none
  | .parentSend start .failure =>
      if s.parent = .loop ∧ s.parentI < n then some { s with parent := .report, start := start }
      else none
  | .parentReceive finish .success =>
      if s.parent = .receive then
        s.mq.receive.map fun (m, q) =>
          { s with mq := q, parent := .loop, parentI := s.parentI + 1,
                   parentBuf := fill m.bytes s.parentBuf,
                   maxLatency := foldLatency s.maxLatency (timespecDiffNs finish s.start),
                   rounds := s.rounds ++ [⟨s.start, finish, m⟩] }
      else none
  | .parentReceive _ .failure =>
      if s.parent = .receive then some { s with parent := .report } else none
  | .parentReport =>
      if s.parent = .loop ∧ ¬ s.parentI < n then some { s with parent := .report } else none
  | .parentKill =>
      if s.parent = .report then some { s with parent := .killed, child := s.child.kill } else none
  | .childReceive .success =>
      if s.child = .loop ∧ s.childI < n then
        s.mq.receive.map fun (m, q) =>
          { s with mq := q, child := .send, childBuf := fill m.bytes s.childBuf,
                   heldRound := m.round, heldEchoes := m.echoes }
      else none
  | .childReceive .failure =>
      if s.child = .loop ∧ s.childI < n then some { s with child := .exitFailure } else none
  | .childSend .success =>
      if s.child = .send then
        (payload s.childBuf).bind fun bytes =>
          (s.mq.send ⟨bytes, s.heldRound, s.heldEchoes + 1⟩).map fun q =>
            { s with mq := q, child := .loop, childI := s.childI + 1 }
      else none
  | .childSend .failure =>
      if s.child = .send then some { s with child := .exitFailure } else none
  | .childClose =>
      if s.child = .loop ∧ ¬ s.childI < n then some { s with child := .exitSuccess } else none

theorem tick_parent {n : ℕ} {a : Action} {s t : State} (h : tick n a s = some t) :
    t.parent = parentAfter s.parent a := by
  match a with
  | .parentSend _ .success | .childSend .success =>
      obtain ⟨-, h⟩ := Option.ite_none_right_eq_some.mp h
      obtain ⟨bytes, -, h⟩ := Option.bind_eq_some_iff.mp h
      obtain ⟨q, -, rfl⟩ := Option.map_eq_some_iff.mp h
      rfl
  | .parentReceive _ .success | .childReceive .success =>
      obtain ⟨-, h⟩ := Option.ite_none_right_eq_some.mp h
      obtain ⟨x, -, rfl⟩ := Option.map_eq_some_iff.mp h
      rfl
  | .parentSend _ .failure | .parentReceive _ .failure | .parentReport | .parentKill
  | .childReceive .failure | .childSend .failure | .childClose =>
      obtain ⟨-, h⟩ := Option.ite_none_right_eq_some.mp h
      rw [← Option.some.inj h]
      rfl

/-- The parent's buffer after `snprintf(buffer, MSG_SIZE, "ping")`. -/
def pingBuffer : Buffer := fill ping (List.replicate msgSize none)

def main (n : ℕ) : System Action State := ⟨{ parentBuf := pingBuffer }, tick n⟩

/-- The message of the round was sent by the parent in this round and has come
back through the child. -/
def RealRoundTrip (i : ℕ) (r : Round Message) : Prop := r.reply.round = i ∧ 1 ≤ r.reply.echoes

/-- `echoed`: the child has sent since the parent's last send. -/
structure Watch where
  echoed : Bool := false
  ordered : Bool := true
deriving DecidableEq, Repr

def watch (w : Watch) : Action → Watch
  | .parentSend _ _ => { w with echoed := false }
  | .childSend .success => { w with echoed := true }
  | .parentReceive _ .success => { w with ordered := w.ordered && w.echoed }
  | _ => w

/-- In the schedule some `mq_send` of the child stands between every `mq_send`
of the parent and the `mq_receive` that follows it. -/
def EchoBeforeReceive (as : List Action) : Prop := (as.foldl watch {}).ordered = true

instance (as : List Action) : Decidable (EchoBeforeReceive as) :=
  inferInstanceAs (Decidable (_ = _))

/-- The buffer starts with "ping" and its terminator. -/
def HoldsPing (buffer : Buffer) : Prop := ping.map some <+: buffer

theorem HoldsPing.fill (buffer : Buffer) : HoldsPing (fill ping buffer) :=
  List.prefix_append _ _

theorem HoldsPing.strlen {buffer : Buffer} (h : HoldsPing buffer) : strlen buffer = some 4 := by
  obtain ⟨rest, rfl⟩ := h
  rfl

theorem HoldsPing.payload {buffer : Buffer} (h : HoldsPing buffer) :
    payload buffer = some ping := by
  obtain ⟨rest, rfl⟩ := h
  rfl

/-- Where the one message is, and what the watch of the schedule says of it. -/
inductive Located (s : State) (echoed : Bool) : Prop where
  | idle : s.parent ≠ .receive → s.mq.items = [] → s.child ≠ .send → Located s echoed
  | queued (m : Message) : s.parent = .receive → s.mq.items = [m] → s.child ≠ .send →
      m.bytes = ping → m.round = s.parentI → (1 ≤ m.echoes ↔ echoed = true) → Located s echoed
  | held : s.parent = .receive → s.mq.items = [] → s.child = .send → HoldsPing s.childBuf →
      s.heldRound = s.parentI → (1 ≤ s.heldEchoes ↔ echoed = true) → Located s echoed
  | lost : s.parent = .receive → s.mq.items = [] → s.child = .exitFailure → Located s echoed

structure Invariant (n : ℕ) (as : List Action) (s : State) : Prop where
  located : Located s (as.foldl watch {}).echoed
  buffer : HoldsPing s.parentBuf
  counted : s.rounds.length = s.parentI
  folded : s.maxLatency = maxLatencyOf s.rounds
  bounded : s.parentI ≤ n
  running : s.parent = .receive → s.parentI < n
  real : (∀ (i : ℕ) r, s.rounds[i]? = some r → RealRoundTrip i r) ↔ EchoBeforeReceive as
  lost : (s.parent = .receive ∧ s.mq.items = [] ∧ s.child = .exitFailure) ↔
    .childSend .failure ∈ as

theorem invariant_init (n : ℕ) : Invariant n [] (main n).init where
  located := .idle (by simp [main]) rfl (by simp [main])
  buffer := HoldsPing.fill _
  counted := rfl
  folded := rfl
  bounded := Nat.zero_le n
  running := by simp [main]
  real := by simp [main, EchoBeforeReceive]
  lost := by simp [main]

theorem forall_getElem?_snoc {α : Type*} {xs : List α} {x : α} {P : ℕ → α → Prop} :
    (∀ i y, (xs ++ [x])[i]? = some y → P i y) ↔
      (∀ i y, xs[i]? = some y → P i y) ∧ P xs.length x := by
  constructor
  · intro h
    refine ⟨fun i y hy => h i y ?_, h xs.length x (by simp)⟩
    rwa [List.getElem?_append_left (List.getElem?_eq_some_iff.mp hy).1]
  · rintro ⟨hxs, hx⟩ i y hy
    rcases lt_or_ge i xs.length with hi | hi
    · exact hxs i y (by rwa [List.getElem?_append_left hi] at hy)
    · rw [List.getElem?_append_right hi, List.getElem?_singleton] at hy
      split_ifs at hy with h0
      obtain rfl : i = xs.length := by omega
      exact Option.some.inj hy ▸ hx

section Steps
variable {n : ℕ} {as : List Action} {s t : State}

/-- Outside of a round nothing is underway. -/
theorem Invariant.idle (h : Invariant n as s) (hp : s.parent ≠ .receive) :
    s.mq.items = [] ∧ s.child ≠ .send := by
  cases h.located with
  | idle _ hmq hc => exact ⟨hmq, hc⟩
  | queued _ hr => exact absurd hr hp
  | held hr => exact absurd hr hp
  | lost hr => exact absurd hr hp

theorem Invariant.unlost_of_parent (h : Invariant n as s) (hp : s.parent ≠ .receive) :
    .childSend .failure ∉ as := fun hmem => hp (h.lost.mpr hmem).1

theorem Invariant.unlost_of_child (h : Invariant n as s) (hc : s.child ≠ .exitFailure) :
    .childSend .failure ∉ as := fun hmem => hc (h.lost.mpr hmem).2.2

theorem Invariant.parentSend {start : Timespec} (h : Invariant n as s)
    (ht : tick n (.parentSend start .success) s = some t) :
    Invariant n (as ++ [.parentSend start .success]) t := by
  simp only [tick, Option.ite_none_right_eq_some, Option.bind_eq_some_iff,
    Option.map_eq_some_iff, h.buffer.payload, Option.some.injEq, exists_eq_left'] at ht
  obtain ⟨⟨hp, hi⟩, q, hq, rfl⟩ := ht
  have hitems := (BoundedQueue.send_eq_some.mp hq).2
  have hlost := h.unlost_of_parent (by simp [hp])
  obtain ⟨hmq, hc⟩ := h.idle (by simp [hp])
  exact {
    located := .queued _ rfl (by simpa [hmq] using hitems) hc rfl rfl (by simp [watch])
    buffer := h.buffer
    counted := h.counted
    folded := h.folded
    bounded := h.bounded
    running := fun _ => hi
    real := by simpa [EchoBeforeReceive, watch] using h.real
    lost := by simp [hlost, hitems] }

theorem Invariant.parentReceive {finish : Timespec} (h : Invariant n as s)
    (ht : tick n (.parentReceive finish .success) s = some t) :
    Invariant n (as ++ [.parentReceive finish .success]) t := by
  simp only [tick, Option.ite_none_right_eq_some, Option.map_eq_some_iff] at ht
  obtain ⟨hp, ⟨m, q⟩, hq, rfl⟩ := ht
  have hitems := BoundedQueue.receive_eq_some.mp hq
  have hlost := h.lost
  cases h.located with
  | queued k _ hmq hc hbytes hround hechoes =>
      obtain ⟨rfl, hrest⟩ := List.cons.inj (hitems.symm.trans hmq)
      exact {
        located := .idle (by simp) hrest hc
        buffer := by simpa [hbytes] using HoldsPing.fill s.parentBuf
        counted := by simpa using h.counted
        folded := by rw [maxLatencyOf_snoc, ← h.folded]; rfl
        bounded := h.running hp
        running := by simp
        real := by
          rw [forall_getElem?_snoc (P := RealRoundTrip), h.real, h.counted]
          simp [RealRoundTrip, EchoBeforeReceive, watch, hround, hechoes]
        lost := by
          simp only [hmq, List.cons_ne_self, false_and, and_false, false_iff] at hlost
          simp [hlost] }
  | idle hr => exact absurd hp hr
  | held _ hmq => simp [hmq] at hitems
  | lost _ hmq => simp [hmq] at hitems

theorem Invariant.childReceive (h : Invariant n as s)
    (ht : tick n (.childReceive .success) s = some t) :
    Invariant n (as ++ [.childReceive .success]) t := by
  simp only [tick, Option.ite_none_right_eq_some, Option.map_eq_some_iff] at ht
  obtain ⟨⟨hc, hi⟩, ⟨m, q⟩, hq, rfl⟩ := ht
  have hitems := BoundedQueue.receive_eq_some.mp hq
  have hlost := h.unlost_of_child (by simp [hc])
  cases h.located with
  | queued k hp hmq _ hbytes hround hechoes =>
      obtain ⟨rfl, hrest⟩ := List.cons.inj (hitems.symm.trans hmq)
      exact { h with
        located := .held hp hrest rfl (by simpa [hbytes] using HoldsPing.fill s.childBuf) hround
          (by simpa [watch] using hechoes)
        real := by simpa [EchoBeforeReceive, watch] using h.real
        lost := by simp [hlost] }
  | idle _ hmq => simp [hmq] at hitems
  | held _ hmq => simp [hmq] at hitems
  | lost _ hmq => simp [hmq] at hitems

theorem Invariant.childSend (h : Invariant n as s)
    (ht : tick n (.childSend .success) s = some t) :
    Invariant n (as ++ [.childSend .success]) t := by
  simp only [tick, Option.ite_none_right_eq_some, Option.bind_eq_some_iff,
    Option.map_eq_some_iff] at ht
  obtain ⟨hc, bytes, hbytes, q, hq, rfl⟩ := ht
  have hitems := (BoundedQueue.send_eq_some.mp hq).2
  have hlost := h.unlost_of_child (by simp [hc])
  cases h.located with
  | held hp hmq _ hbuf hround hechoes =>
      obtain rfl : bytes = ping := Option.some.inj (hbytes.symm.trans hbuf.payload)
      exact { h with
        located := .queued _ hp (by simpa [hmq] using hitems) (by simp) rfl hround
          (by simp [watch])
        real := by simpa [EchoBeforeReceive, watch] using h.real
        lost := by simp [hlost] }
  | idle _ _ hr => exact absurd hc hr
  | queued _ _ _ hr => exact absurd hc hr
  | lost _ _ hr => simp [hc] at hr

theorem Invariant.parentReport (h : Invariant n as s)
    (ht : tick n .parentReport s = some t) : Invariant n (as ++ [.parentReport]) t := by
  simp only [tick, Option.ite_none_right_eq_some, Option.some.injEq] at ht
  obtain ⟨⟨hp, hi⟩, rfl⟩ := ht
  have hlost := h.unlost_of_parent (by simp [hp])
  obtain ⟨hmq, hc⟩ := h.idle (by simp [hp])
  exact { h with
    located := .idle (by simp) hmq hc
    running := by simp
    real := by simpa [EchoBeforeReceive, watch] using h.real
    lost := by simp [hlost] }

theorem Invariant.parentKill (h : Invariant n as s)
    (ht : tick n .parentKill s = some t) : Invariant n (as ++ [.parentKill]) t := by
  simp only [tick, Option.ite_none_right_eq_some, Option.some.injEq] at ht
  obtain ⟨hp, rfl⟩ := ht
  have hlost := h.unlost_of_parent (by simp [hp])
  obtain ⟨hmq, -⟩ := h.idle (by simp [hp])
  exact { h with
    located := .idle (by simp) hmq (by simp)
    running := by simp
    real := by simpa [EchoBeforeReceive, watch] using h.real
    lost := by simp [hlost] }

/-- A child which holds nothing can go anywhere but to its send. -/
theorem Located.leave {echoed : Bool} (h : Located s echoed) (hc : s.child = .loop)
    {pc : ChildPc} (hpc : pc ≠ .send) : Located { s with child := pc } echoed := by
  cases h with
  | idle hp hmq _ => exact .idle hp hmq hpc
  | queued m hp hmq _ hbytes hround hechoes =>
      exact .queued m hp hmq hpc hbytes hround hechoes
  | held _ _ hr => simp [hc] at hr
  | lost _ _ hr => simp [hc] at hr

/-- A child which fails to receive leaves the message in the queue. -/
theorem Invariant.childReceive_failure (h : Invariant n as s)
    (ht : tick n (.childReceive .failure) s = some t) :
    Invariant n (as ++ [.childReceive .failure]) t := by
  simp only [tick, Option.ite_none_right_eq_some, Option.some.injEq] at ht
  obtain ⟨⟨hc, hi⟩, rfl⟩ := ht
  have hlost := h.unlost_of_child (by simp [hc])
  exact { h with
    located := by simpa [watch] using h.located.leave hc (by simp)
    real := by simpa [EchoBeforeReceive, watch] using h.real
    lost := by
      cases h.located with
      | idle hp => simp [hp, hlost]
      | queued m _ hmq => simp [hmq, hlost]
      | held _ _ hr => simp [hc] at hr
      | lost _ _ hr => simp [hc] at hr }

/-- A child which fails to send takes the message with it. -/
theorem Invariant.childSend_failure (h : Invariant n as s)
    (ht : tick n (.childSend .failure) s = some t) :
    Invariant n (as ++ [.childSend .failure]) t := by
  simp only [tick, Option.ite_none_right_eq_some, Option.some.injEq] at ht
  obtain ⟨hc, rfl⟩ := ht
  cases h.located with
  | held hp hmq =>
      exact { h with
        located := .lost hp hmq rfl
        real := by simpa [EchoBeforeReceive, watch] using h.real
        lost := by simp [hp, hmq] }
  | idle _ _ hr => exact absurd hc hr
  | queued _ _ _ hr => exact absurd hc hr
  | lost _ _ hr => simp [hc] at hr

theorem Invariant.childClose (h : Invariant n as s)
    (ht : tick n .childClose s = some t) : Invariant n (as ++ [.childClose]) t := by
  simp only [tick, Option.ite_none_right_eq_some, Option.some.injEq] at ht
  obtain ⟨⟨hc, hi⟩, rfl⟩ := ht
  have hlost := h.unlost_of_child (by simp [hc])
  exact { h with
    located := by simpa [watch] using h.located.leave hc (by simp)
    real := by simpa [EchoBeforeReceive, watch] using h.real
    lost := by simp [hlost] }

theorem Invariant.tick {a : Action} (ha : a.parentSucceeds = true) (h : Invariant n as s)
    (ht : tick n a s = some t) : Invariant n (as ++ [a]) t :=
  match a with
  | .parentSend _ .success => h.parentSend ht
  | .parentReceive _ .success => h.parentReceive ht
  | .parentReport => h.parentReport ht
  | .parentKill => h.parentKill ht
  | .childReceive .success => h.childReceive ht
  | .childSend .success => h.childSend ht
  | .childReceive .failure => h.childReceive_failure ht
  | .childSend .failure => h.childSend_failure ht
  | .childClose => h.childClose ht

theorem invariant_of_run (h : (main n).Run as (main n).init s)
    (hok : ∀ a ∈ as, a.parentSucceeds = true) : Invariant n as s := by
  refine h.history (P := fun as s => (∀ a ∈ as, a.parentSucceeds = true) → Invariant n as s)
    (fun _ => invariant_init n) ?_ hok
  intro as a u v ih ht hok
  simp only [List.mem_append, List.mem_singleton] at hok
  exact (ih fun b hb => hok b (.inl hb)).tick (hok a (.inr rfl)) ht

end Steps

section Runs
variable {n : ℕ} {as : List Action} {s t : State}

/-- The rounds folded into `max_latency` are real round trips in exactly the
schedules where the child sends between the parent's send and receive. -/
theorem real_round_trips_iff (h : (main n).Run as (main n).init s)
    (hok : ∀ a ∈ as, a.succeeds = true) :
    s.maxLatency = maxLatencyOf s.rounds ∧
      ((∀ (i : ℕ) r, s.rounds[i]? = some r → RealRoundTrip i r) ↔ EchoBeforeReceive as) := by
  have hinv := invariant_of_run h fun a ha => parentSucceeds_of_succeeds (hok a ha)
  exact ⟨hinv.folded, hinv.real⟩

def echoed : List Action :=
  [.parentSend ⟨0, 5⟩ .success, .childReceive .success, .childSend .success,
    .parentReceive ⟨0, 9⟩ .success]

theorem real_round_trips_echoed : EchoBeforeReceive echoed ∧
    ∃ s, (main 1).Run echoed (main 1).init s ∧ s.maxLatency = 4 ∧
      ∀ (i : ℕ) r, s.rounds[i]? = some r → RealRoundTrip i r := by
  have h : ∃ s, (main 1).Run echoed (main 1).init s ∧ s.maxLatency = 4 := ⟨_, rfl, by decide⟩
  obtain ⟨s, hrun, hmax⟩ := h
  exact ⟨by decide, s, hrun, hmax, (real_round_trips_iff hrun (by decide)).2.mpr (by decide)⟩

/-- Before the child is scheduled at all, the parent takes back its own message. -/
theorem parent_takes_back_own_message : ¬ ∀ (as : List Action) (s : State),
    (main iterations).Run as (main iterations).init s → (∀ a ∈ as, a.succeeds = true) →
      ∀ (i : ℕ) r, s.rounds[i]? = some r → RealRoundTrip i r := by
  intro h
  have hreal := h [.parentSend ⟨0, 5⟩ .success, .parentReceive ⟨0, 6⟩ .success] _ rfl (by decide)
    0 _ rfl
  exact absurd hreal.2 (by decide)

theorem Invariant.bytes (h : Invariant n as s) : ∀ m ∈ s.mq.items, m.bytes = ping := by
  intro m hm
  cases h.located with
  | queued k _ hmq _ hbytes =>
      rw [hmq, List.mem_singleton] at hm
      rwa [hm]
  | idle _ hmq | held _ hmq | lost _ hmq => simp [hmq] at hm

/-- The distance of the parent from its report. -/
def State.distance (n : ℕ) (s : State) : ℕ :=
  3 * (n - s.parentI) + match s.parent with
    | .loop => 2
    | .receive => if s.child = .send then 1 else 0
    | _ => 0

/-- Unless the message is lost, some call succeeds and brings the parent nearer
to its report. A queued message is the parent's to take, whoever sent it. -/
theorem Invariant.progress (h : Invariant n as s) (hl : .childSend .failure ∉ as)
    (hr : s.parent.reported ≠ true) :
    ∃ a t, a.succeeds = true ∧ IpcLatency.tick n a s = some t ∧ t.distance n < s.distance n := by
  cases h.located with
  | idle hp hmq hc =>
      have hp : s.parent = .loop := by
        cases hp : s.parent <;> simp_all [ParentPc.reported]
      by_cases hn : s.parentI < n
      · obtain ⟨q, hq, -⟩ := s.mq.exists_send ⟨ping, s.parentI, 0⟩ (by simp [hmq, mqMaxmsg])
        refine ⟨.parentSend ⟨0, 0⟩ .success, _, rfl,
          by simp [IpcLatency.tick, hp, hn, h.buffer.payload, hq]; rfl, ?_⟩
        simp [State.distance, hp, hc]
      · exact ⟨.parentReport, _, rfl, by simp [IpcLatency.tick, hp, hn]; rfl,
          by simp [State.distance, hp]⟩
  | queued m hp hmq hc =>
      obtain ⟨q, hq, -⟩ := BoundedQueue.exists_receive hmq
      have hlt := h.running hp
      refine ⟨.parentReceive ⟨0, 0⟩ .success, _, rfl,
        by simp [IpcLatency.tick, hp, hq]; rfl, ?_⟩
      simp [State.distance, hp, hc]
      omega
  | held hp hmq hc hbuf =>
      obtain ⟨q, hq, -⟩ := s.mq.exists_send ⟨ping, s.heldRound, s.heldEchoes + 1⟩
        (by simp [hmq, mqMaxmsg])
      refine ⟨.childSend .success, _, rfl,
        by simp [IpcLatency.tick, hc, hbuf.payload, hq]; rfl, ?_⟩
      simp [State.distance, hp, hc]
  | lost hp hmq hc => exact absurd (h.lost.mp ⟨hp, hmq, hc⟩) hl

def CanReport (n : ℕ) (s : State) : Prop :=
  ∃ as t, (∀ a ∈ as, a.succeeds = true) ∧ (main n).Run as s t ∧ t.parent.reported = true

/-- The child is gone, the parent waits in `mq_receive` and the queue is empty. -/
def Stranded (s : State) : Prop :=
  (s.child = .exitSuccess ∨ s.child = .exitFailure) ∧ s.parent = .receive ∧ s.mq.items = []

theorem Invariant.canReport (h : Invariant n as s) (hl : .childSend .failure ∉ as) :
    CanReport n s := by
  refine System.exists_run_to
    (I := fun s => ∃ as, Invariant n as s ∧ .childSend .failure ∉ as)
    (Action.succeeds · = true) (State.distance n) ?_ s ⟨as, h, hl⟩
  rintro s ⟨as, h, hl⟩ hr
  obtain ⟨a, t, ha, ht, hlt⟩ := h.progress hl hr
  refine ⟨a, t, ha, ht, ⟨as ++ [a], h.tick (parentSucceeds_of_succeeds ha) ht, ?_⟩, hlt⟩
  have hne : a ≠ .childSend .failure := by
    rintro rfl
    simp [Action.succeeds, Action.childFails] at ha
  simp [hl, hne.symm]

theorem Invariant.not_stranded (h : Invariant n as s) (hl : .childSend .failure ∉ as) :
    ¬ Stranded s := by
  rintro ⟨hc, hp, hmq⟩
  cases h.located with
  | idle hr => exact hr hp
  | queued m _ hr => simp [hmq] at hr
  | held _ _ hr => simp [hr] at hc
  | lost _ _ hr => exact hl (h.lost.mp ⟨hp, hmq, hr⟩)

/-- Only a failing send of the child keeps the parent from its report. After a
failing receive the parent goes on with its own messages. -/
theorem canReport_iff (h : (main n).Run as (main n).init s)
    (hok : ∀ a ∈ as, a.parentSucceeds = true) :
    ¬ Stranded s ∧ CanReport n s ↔ .childSend .failure ∉ as := by
  have hinv := invariant_of_run h hok
  constructor
  · rintro ⟨hs, -⟩ hl
    obtain ⟨hp, hmq, hc⟩ := hinv.lost.mpr hl
    exact hs ⟨.inr hc, hp, hmq⟩
  · exact fun hl => ⟨hinv.not_stranded hl, hinv.canReport hl⟩

/-- The messages in the queue and in the child's hands. -/
def State.inFlight (s : State) : ℕ := s.mq.items.length + if s.child = .send then 1 else 0

/-- The child's buffer from its first receive on, and the parent's result. -/
structure Filled (n : ℕ) (s : State) : Prop where
  buffer : s.childI ≠ 0 ∨ s.child = .send → HoldsPing s.childBuf
  finished : s.parent.reported = true → s.parentI = n

theorem Filled.tick {a : Action} (ha : a.succeeds = true) (hinv : Invariant n as s)
    (h : Filled n s) (ht : tick n a s = some t) : Filled n t := by
  have hbuf := h.buffer
  match a with
  | .parentSend _ .success =>
      simp only [IpcLatency.tick, Option.ite_none_right_eq_some, Option.bind_eq_some_iff,
        Option.map_eq_some_iff] at ht
      obtain ⟨-, bytes, -, q, -, rfl⟩ := ht
      exact ⟨hbuf, by simp [ParentPc.reported]⟩
  | .parentReceive _ .success =>
      simp only [IpcLatency.tick, Option.ite_none_right_eq_some, Option.map_eq_some_iff] at ht
      obtain ⟨-, q, -, rfl⟩ := ht
      exact ⟨hbuf, by simp [ParentPc.reported]⟩
  | .parentReport =>
      simp only [IpcLatency.tick, Option.ite_none_right_eq_some, Option.some.injEq] at ht
      obtain ⟨⟨-, hi⟩, rfl⟩ := ht
      exact ⟨hbuf, fun _ => le_antisymm hinv.bounded (not_lt.mp hi)⟩
  | .parentKill =>
      simp only [IpcLatency.tick, Option.ite_none_right_eq_some, Option.some.injEq] at ht
      obtain ⟨hp, rfl⟩ := ht
      have hn := h.finished (by simp [hp, ParentPc.reported])
      exact ⟨fun hc => hbuf (hc.imp_right (by simp)), fun _ => hn⟩
  | .childReceive .success =>
      simp only [IpcLatency.tick, Option.ite_none_right_eq_some, Option.map_eq_some_iff] at ht
      obtain ⟨-, ⟨m, q⟩, hq, rfl⟩ := ht
      have hbytes : m.bytes = ping := hinv.bytes m (BoundedQueue.receive_eq_some.mp hq ▸ by simp)
      exact ⟨fun _ => hbytes ▸ HoldsPing.fill s.childBuf, h.finished⟩
  | .childSend .success =>
      simp only [IpcLatency.tick, Option.ite_none_right_eq_some, Option.bind_eq_some_iff,
        Option.map_eq_some_iff] at ht
      obtain ⟨hc, bytes, -, q, -, rfl⟩ := ht
      exact ⟨fun _ => hbuf (.inr hc), h.finished⟩
  | .childClose =>
      simp only [IpcLatency.tick, Option.ite_none_right_eq_some, Option.some.injEq] at ht
      obtain ⟨-, rfl⟩ := ht
      exact ⟨fun hc => hbuf (hc.imp_right (by simp)), h.finished⟩

theorem filled_of_run (h : (main n).Run as (main n).init s)
    (hok : ∀ a ∈ as, a.succeeds = true) : Invariant n as s ∧ Filled n s := by
  refine h.history (P := fun as s => (∀ a ∈ as, a.succeeds = true) → Invariant n as s ∧ Filled n s)
    (fun _ => ⟨invariant_init n, by simp [main], by simp [main, ParentPc.reported]⟩) ?_ hok
  intro as a u v ih ht hok
  rw [List.forall_mem_append] at hok
  obtain ⟨hinv, hfilled⟩ := ih hok.1
  have ha := hok.2 a List.mem_cons_self
  exact ⟨hinv.tick (parentSucceeds_of_succeeds ha) ht, hfilled.tick ha hinv ht⟩

theorem childSend_failure_notMem (hok : ∀ a ∈ as, a.succeeds = true) :
    .childSend .failure ∉ as := by
  intro hmem
  exact absurd (hok _ hmem) (by decide)

theorem Invariant.inFlight_eq (h : Invariant n as s) (hl : .childSend .failure ∉ as) :
    s.inFlight = if s.parent = .receive then 1 else 0 := by
  unfold State.inFlight
  cases h.located with
  | idle hp hmq hc => simp [hp, hmq, hc]
  | queued m hp hmq hc => simp [hp, hmq, hc]
  | held hp hmq hc => simp [hp, hmq, hc]
  | lost hp hmq hc => exact absurd (h.lost.mp ⟨hp, hmq, hc⟩) hl

/-- In every schedule, repeated and stolen messages included, one message is
under way exactly between the parent's send and its receive, it is the text with
its terminator, no send finds the queue full and the parent can complete its
rounds. -/
theorem message_conserved (h : (main n).Run as (main n).init s)
    (hok : ∀ a ∈ as, a.succeeds = true) :
    s.inFlight = (if s.parent = .receive then 1 else 0) ∧
    (∀ m ∈ s.mq.items, m.bytes = ping) ∧
    (∃ k < msgSize, strlen s.parentBuf = some k) ∧
    (s.childI ≠ 0 ∨ s.child = .send → ∃ k < msgSize, strlen s.childBuf = some k) ∧
    (∀ m, (s.mq.send m).isSome) ∧
    (s.parentI < n → ∃ a, a.succeeds = true ∧ (main n).Enabled a s) ∧
    ∃ bs t, (∀ b ∈ bs, b.succeeds = true) ∧ (main n).Run bs s t ∧ t.parentI = n := by
  obtain ⟨hinv, hfilled⟩ := filled_of_run h hok
  have hl := childSend_failure_notMem hok
  have hcount := hinv.inFlight_eq hl
  refine ⟨hcount, hinv.bytes, ⟨4, by decide, hinv.buffer.strlen⟩,
    fun hc => ⟨4, by decide, (hfilled.buffer hc).strlen⟩, fun m => ?_, fun hi => ?_, ?_⟩
  · rw [BoundedQueue.send_isSome]
    unfold State.inFlight at hcount
    unfold mqMaxmsg
    split_ifs at hcount <;> omega
  · have hr : s.parent.reported ≠ true := fun hr => hi.ne (hfilled.finished hr)
    obtain ⟨a, t, ha, ht, -⟩ := hinv.progress hl hr
    exact ⟨a, ha, Option.isSome_iff_exists.mpr ⟨t, ht⟩⟩
  · obtain ⟨bs, t, hbs, hrun, hr⟩ := hinv.canReport hl
    have hall : ∀ a ∈ as ++ bs, a.succeeds = true := List.forall_mem_append.mpr ⟨hok, hbs⟩
    exact ⟨bs, t, hbs, hrun, (filled_of_run (h.append hrun) hall).2.finished hr⟩

/-- The parent takes back its first message; the child echoes the second one
twice and is done while the parent still waits. -/
def repeated : List Action :=
  [.parentSend ⟨0, 5⟩ .success, .parentReceive ⟨0, 6⟩ .success, .parentSend ⟨0, 7⟩ .success,
    .childReceive .success, .childSend .success, .childReceive .success, .childSend .success,
    .childClose]

theorem message_conserved_repeated : ∃ s, (main 2).Run repeated (main 2).init s ∧
    s.child = .exitSuccess ∧ s.inFlight = 1 ∧ ∃ k < msgSize, strlen s.childBuf = some k := by
  have h : ∃ s, (main 2).Run repeated (main 2).init s ∧ s.child = .exitSuccess ∧
      s.parent = .receive ∧ s.childI ≠ 0 := ⟨_, rfl, by decide, by decide, by decide⟩
  obtain ⟨s, hrun, hc, hp, hi⟩ := h
  have hconserved := message_conserved hrun (by decide)
  exact ⟨s, hrun, hc, by rw [hconserved.1, if_pos hp], hconserved.2.2.2.1 (.inl hi)⟩

end Runs

end MicrokernelBenchmark.IpcLatency
