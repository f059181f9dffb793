import MicrokernelBenchmark.RoundTrip
import MicrokernelBenchmark.BoundedQueue
import MicrokernelBenchmark.EchoLoop

/-!
# Round trips over one queue per direction

`ipc_mq_latency` after the fork: the parent sends on `mq_ptoc` and receives on
`mq_ctop`, the child receives on `mq_ptoc` and sends what it has received on
`mq_ctop`. A schedule of the two processes is a list of labels; failing calls
are labels of their own. The four histories in the state are read by no step.

Every schedule in which the parent's calls succeed refines the one-token
exchange. Message conservation, the absence of a full queue, the matching of
the rounds and the fate of the parent after a failing child call are read off
that refinement.
-/
namespace MicrokernelBenchmark.IpcMqLatency
open TransitionSystem EchoLoop

def msgSize : ℕ := 64
def mqMaxmsg : ℕ := 10
def iterations : ℕ := 10000

/-- `mq_send` is always called with MSG_SIZE, so a message is the whole buffer. -/
abbrev Message := Vector UInt8 msgSize

abbrev Queue := BoundedQueue Message mqMaxmsg

structure State where
  mqPtoc : Queue := .empty
  mqCtop : Queue := .empty
  parent : ParentPc := .loop
  parentI : ℕ := 0
  parentBuf : Message
  start : Timespec := ⟨0, 0⟩
  maxLatency : ℤ := 0
  child : ChildPc := .loop
  childI : ℕ := 0
  childBuf : Option Message := none
  parentSent : List Message := []
  childReceived : List Message := []
  childSent : List Message := []
  rounds : List (Round Message) := []

/-- The parent's buffer after `memset` and the store of the terminator. -/
def pattern : Message := Vector.ofFn fun k => if k.val = msgSize - 1 then 0 else 77

/-- One call of either process. `none` means that the process is elsewhere or
that the call blocks. The child's buffer is undefined before its first receive. -/
def tick (n : ℕ) (a : Action) (s : State) : Option State :=
  match a with
  | .parentSend start .success =>
      if s.parent = .loop ∧ s.parentI < n then
        (s.mqPtoc.send s.parentBuf).map fun q =>
          { s with mqPtoc := q, parent := .receive, start := start,
                   parentSent := s.parentSent ++ [s.parentBuf] }
      else none
  | .parentSend start .failure =>
      if s.parent = .loop ∧ s.parentI < n then some { s with parent := .report, start := start }
      else none
  | .parentReceive finish .success =>
      if s.parent = .receive then
        s.mqCtop.receive.map fun (m, q) =>
          { s with mqCtop := q, parent := .loop, parentI := s.parentI + 1, parentBuf := m,
                   maxLatency := foldLatency s.maxLatency (timespecDiffNs finish s.start),
                   rounds := s.rounds ++ [⟨s.start, finish, m⟩] }
      else none
  | .parentReceive _ .failure =>
      if s.parent = .receive then some { s with parent := .report } else none
  | .parentReport =>
      if s.parent = .loop ∧ ¬ s.parentI < n then some { s with parent := .report } else none
  | .parentKill =>
      if s.parent = .report then some { s with parent := .killed, child := s.child.kill } else none
  | .childReceive .success =>
      if s.child = .loop ∧ s.childI < n then
        s.mqPtoc.receive.map fun (m, q) =>
          { s with mqPtoc := q, child := .send, childBuf := some m,
                   childReceived := s.childReceived ++ [m] }
      else none
  | .childReceive .failure =>
      if s.child = .loop ∧ s.childI < n then some { s with child := .exitFailure } else none
  | .childSend .success =>
      if s.child = .send then
        s.childBuf.bind fun m => (s.mqCtop.send m).map fun q =>
          { s with mqCtop := q, child := .loop, childI := s.childI + 1,
                   childSent := s.childSent ++ [m] }
      else none
  | .childSend .failure =>
      if s.child = .send then some { s with child := .exitFailure } else none
  | .childClose =>
      if s.child = .loop ∧ ¬ s.childI < n then some { s with child := .exitSuccess } else none

theorem tick_parent {n : ℕ} {a : Action} {s t : State} (h : tick n a s = some t) :
    t.parent = parentAfter s.parent a := by
  match a with
  | .childSend .success =>
      obtain ⟨-, h⟩ := Option.ite_none_right_eq_some.mp h
      obtain ⟨m, -, h⟩ := Option.bind_eq_some_iff.mp h
      obtain ⟨q, -, rfl⟩ := Option.map_eq_some_iff.mp h
      rfl
  | .parentSend _ .success | .parentReceive _ .success | .childReceive .success =>
      obtain ⟨-, h⟩ := Option.ite_none_right_eq_some.mp h
      obtain ⟨x, -, rfl⟩ := Option.map_eq_some_iff.mp h
      rfl
  | .parentSend _ .failure | .parentReceive _ .failure | .parentReport | .parentKill
  | .childReceive .failure | .childSend .failure | .childClose =>
      obtain ⟨-, h⟩ := Option.ite_none_right_eq_some.mp h
      rw [← Option.some.inj h]
      rfl

def main (n : ℕ) : System Action State := ⟨{ parentBuf := pattern }, tick n⟩

def State.parentReceived (s : State) : List Message := s.rounds.map Round.reply

/-- The messages in the two queues and in the child's buffer. -/
def State.inFlight (s : State) : ℕ :=
  s.mqPtoc.items.length + s.mqCtop.items.length + if s.child = .send then 1 else 0

/-- Where the one message of the exchange is. A child which failed while it
held the message keeps the phase from ever advancing. -/
def Located (s : State) : RoundTrip.Phase Message → Prop
  | .idle => s.parent ≠ .receive ∧ s.mqPtoc.items = [] ∧ s.mqCtop.items = [] ∧ s.child ≠ .send
  | .request m =>
      s.parent = .receive ∧ s.mqPtoc.items = [m] ∧ s.mqCtop.items = [] ∧ s.child ≠ .send
  | .held m => s.parent = .receive ∧ s.mqPtoc.items = [] ∧ s.mqCtop.items = [] ∧
      (s.child = .send ∧ s.childBuf = some m ∨ s.child = .exitFailure)
  | .reply m =>
      s.parent = .receive ∧ s.mqPtoc.items = [] ∧ s.mqCtop.items = [m] ∧ s.child ≠ .send

structure Refines (n : ℕ) (s : State) (u : RoundTrip.State Message) : Prop where
  matched : u.Matched
  asked : s.parentSent = u.asked
  taken : s.childReceived = u.taken
  given : s.childSent = u.given
  collected : s.parentReceived = u.collected
  folded : s.maxLatency = maxLatencyOf s.rounds
  located : Located s u.phase
  parentI : s.parentI = u.collected.length
  childI : s.childI = u.given.length
  bounded : s.parentI ≤ n
  running : s.parent = .receive → s.parentI < n
  finished : s.parent.reported = true → s.parentI = n
  exited : s.child = .exitSuccess → s.childI = n
  failed : s.child = .exitFailure → s.childI < n
  killed : s.child = .killed → s.parent = .killed

theorem refines_init (n : ℕ) : Refines n (main n).init (RoundTrip.exchange Message).init where
  matched := ⟨rfl, rfl, rfl⟩
  asked := rfl
  taken := rfl
  given := rfl
  collected := rfl
  folded := rfl
  located := by simp [Located, main, RoundTrip.exchange]
  parentI := rfl
  childI := rfl
  bounded := Nat.zero_le n
  running := by simp [main]
  finished := by simp [main, ParentPc.reported]
  exited := by simp [main]
  failed := by simp [main]
  killed := by simp [main]

section Steps
variable {n : ℕ} {s t : State} {u : RoundTrip.State Message}

theorem Refines.parentSend {start : Timespec} (h : Refines n s u)
    (ht : tick n (.parentSend start .success) s = some t) :
    ∃ v, RoundTrip.tick (.ask s.parentBuf) u = some v ∧ Refines n t v := by
  simp only [tick, Option.ite_none_right_eq_some, Option.map_eq_some_iff] at ht
  obtain ⟨⟨hp, hi⟩, q, hq, rfl⟩ := ht
  obtain ⟨-, hq⟩ := BoundedQueue.send_eq_some.mp hq
  obtain ⟨phase, asked, taken, given, collected⟩ := u
  have hl := h.located
  cases phase <;> simp only [Located, hp, reduceCtorEq, false_and] at hl
  obtain ⟨-, hptoc, hctop, hc⟩ := hl
  have hv : RoundTrip.tick (.ask s.parentBuf) ⟨.idle, asked, taken, given, collected⟩ =
    some ⟨.request s.parentBuf, asked ++ [s.parentBuf], taken, given, collected⟩ := rfl
  exact ⟨_, hv, { h with
    matched := RoundTrip.tick_matched h.matched hv
    asked := congrArg (· ++ [s.parentBuf]) h.asked
    located := ⟨rfl, by simpa [hptoc] using hq, hctop, hc⟩
    running := fun _ => hi
    finished := by simp [ParentPc.reported]
    killed := fun hk => by simp [h.killed hk] at hp }⟩

theorem Refines.childReceive (h : Refines n s u)
    (ht : tick n (.childReceive .success) s = some t) :
    ∃ v, RoundTrip.tick .take u = some v ∧ Refines n t v := by
  simp only [tick, Option.ite_none_right_eq_some, Option.map_eq_some_iff] at ht
  obtain ⟨⟨hc, hi⟩, ⟨m, q⟩, hq, rfl⟩ := ht
  have hq := BoundedQueue.receive_eq_some.mp hq
  obtain ⟨phase, asked, taken, given, collected⟩ := u
  have hl := h.located
  cases phase <;> simp only [Located, hc, hq, reduceCtorEq, false_and, and_false, or_self] at hl
  rename_i k
  obtain ⟨hp, hptoc, hctop, -⟩ := hl
  obtain ⟨rfl, hrest⟩ := List.cons.inj hptoc
  have hv : RoundTrip.tick .take ⟨.request m, asked, taken, given, collected⟩ =
    some ⟨.held m, asked, taken ++ [m], given, collected⟩ := rfl
  exact ⟨_, hv, { h with
    matched := RoundTrip.tick_matched h.matched hv
    taken := congrArg (· ++ [m]) h.taken
    located := ⟨hp, hrest, hctop, .inl ⟨rfl, rfl⟩⟩
    exited := by simp
    failed := by simp
    killed := by simp }⟩

theorem Refines.childSend (h : Refines n s u)
    (ht : tick n (.childSend .success) s = some t) :
    ∃ v, RoundTrip.tick .give u = some v ∧ Refines n t v := by
  simp only [tick, Option.ite_none_right_eq_some, Option.bind_eq_some_iff,
    Option.map_eq_some_iff] at ht
  obtain ⟨hc, m, hm, q, hq, rfl⟩ := ht
  obtain ⟨-, hq⟩ := BoundedQueue.send_eq_some.mp hq
  obtain ⟨phase, asked, taken, given, collected⟩ := u
  have hl := h.located
  cases phase <;> simp only [Located, hc, hm, ne_eq, not_true_eq_false, and_false, true_and,
    Option.some.injEq, reduceCtorEq, or_false] at hl
  obtain ⟨hp, hptoc, hctop, rfl⟩ := hl
  have hv : RoundTrip.tick .give ⟨.held m, asked, taken, given, collected⟩ =
    some ⟨.reply m, asked, taken, given ++ [m], collected⟩ := rfl
  exact ⟨_, hv, { h with
    matched := RoundTrip.tick_matched h.matched hv
    given := congrArg (· ++ [m]) h.given
    located := ⟨hp, hptoc, by simpa [hctop] using hq, by simp⟩
    childI := by simpa using h.childI
    exited := by simp
    failed := by simp
    killed := by simp }⟩

theorem Refines.parentReceive {finish : Timespec} (h : Refines n s u)
    (ht : tick n (.parentReceive finish .success) s = some t) :
    ∃ v, RoundTrip.tick .collect u = some v ∧ Refines n t v := by
  simp only [tick, Option.ite_none_right_eq_some, Option.map_eq_some_iff] at ht
  obtain ⟨hp, ⟨m, q⟩, hq, rfl⟩ := ht
  have hq := BoundedQueue.receive_eq_some.mp hq
  obtain ⟨phase, asked, taken, given, collected⟩ := u
  have hl := h.located
  cases phase <;> simp only [Located, hp, hq, ne_eq, not_true_eq_false, reduceCtorEq,
    false_and, and_false] at hl
  obtain ⟨-, hptoc, hctop, hc⟩ := hl
  obtain ⟨rfl, hrest⟩ := List.cons.inj hctop
  have hv : RoundTrip.tick .collect ⟨.reply m, asked, taken, given, collected⟩ =
    some ⟨.idle, asked, taken, given, collected ++ [m]⟩ := rfl
  exact ⟨_, hv, { h with
    matched := RoundTrip.tick_matched h.matched hv
    collected := by simpa [State.parentReceived] using congrArg (· ++ [m]) h.collected
    folded := by rw [maxLatencyOf_snoc, ← h.folded]; rfl
    located := ⟨by simp, hptoc, hrest, hc⟩
    parentI := by simpa using h.parentI
    bounded := h.running hp
    running := by simp
    finished := by simp [ParentPc.reported]
    killed := fun hk => by simp [h.killed hk] at hp }⟩

theorem Refines.parentReport (h : Refines n s u)
    (ht : tick n .parentReport s = some t) : Refines n t u := by
  simp only [tick, Option.ite_none_right_eq_some, Option.some.injEq] at ht
  obtain ⟨⟨hp, hi⟩, rfl⟩ := ht
  have hl := h.located
  cases hu : u.phase <;> simp only [hu, Located, hp, reduceCtorEq, false_and] at hl
  exact { h with
    located := by rw [hu]; exact ⟨by simp, hl.2⟩
    running := by simp
    finished := fun _ => le_antisymm h.bounded (not_lt.mp hi)
    killed := fun hk => by simp [h.killed hk] at hp }

theorem Refines.parentKill (h : Refines n s u)
    (ht : tick n .parentKill s = some t) : Refines n t u := by
  simp only [tick, Option.ite_none_right_eq_some, Option.some.injEq] at ht
  obtain ⟨hp, rfl⟩ := ht
  have hl := h.located
  cases hu : u.phase <;> simp only [hu, Located, hp, reduceCtorEq, false_and] at hl
  exact { h with
    located := by rw [hu]; exact ⟨by simp, hl.2.1, hl.2.2.1, by simp⟩
    running := by simp
    finished := fun _ => h.finished (by simp [hp, ParentPc.reported])
    exited := fun hc => h.exited (by simpa using hc)
    failed := fun hc => h.failed (by simpa using hc)
    killed := fun _ => rfl }

/-- A failing child call has one effect, wherever the child is in its loop. -/
theorem tick_childFails {a : Action} (ha : a.childFails = true) (ht : tick n a s = some t) :
    t = { s with child := .exitFailure } ∧ (s.child = .loop ∧ s.childI < n ∨ s.child = .send) := by
  cases a with
  | childReceive o =>
      cases o <;> simp [Action.childFails] at ha
      simp only [tick, Option.ite_none_right_eq_some, Option.some.injEq] at ht
      exact ⟨ht.2.symm, .inl ht.1⟩
  | childSend o =>
      cases o <;> simp [Action.childFails] at ha
      simp only [tick, Option.ite_none_right_eq_some, Option.some.injEq] at ht
      exact ⟨ht.2.symm, .inr ht.1⟩
  | _ => simp [Action.childFails] at ha

theorem Refines.childI_eq (h : Refines n s u) : s.childI = s.parentI + u.phase.answered := by
  rw [h.childI, h.parentI, h.matched.given_length]

theorem Refines.receive_of_ne_idle (h : Refines n s u) (hu : u.phase ≠ .idle) :
    s.parent = .receive := by
  have hl := h.located
  cases hp : u.phase <;> rw [hp] at hl
  · exact absurd hp hu
  all_goals exact hl.1

theorem Refines.childI_le (h : Refines n s u) : s.childI ≤ n := by
  have hi := h.childI_eq
  cases hu : u.phase <;> simp only [hu, RoundTrip.Phase.answered, Nat.add_zero] at hi
  case reply m =>
    have hlt := h.running (h.receive_of_ne_idle (by simp [hu]))
    omega
  all_goals exact hi ▸ h.bounded

theorem Refines.childSend_lt (h : Refines n s u) (hc : s.child = .send) : s.childI < n := by
  have hi := h.childI_eq
  have hl := h.located
  cases hu : u.phase <;> simp only [hu, Located, hc, ne_eq, not_true_eq_false, and_false] at hl
  simp only [hu, RoundTrip.Phase.answered, Nat.add_zero] at hi
  exact hi ▸ h.running hl.1

theorem Refines.childFails {a : Action} (ha : a.childFails = true) (h : Refines n s u)
    (ht : tick n a s = some t) : Refines n t u := by
  obtain ⟨rfl, hcall⟩ := tick_childFails ha ht
  have hl := h.located
  exact { h with
    located := by
      cases hu : u.phase with
      | idle => rw [hu] at hl; exact ⟨hl.1, hl.2.1, hl.2.2.1, by simp⟩
      | request m => rw [hu] at hl; exact ⟨hl.1, hl.2.1, hl.2.2.1, by simp⟩
      | held m => rw [hu] at hl; exact ⟨hl.1, hl.2.1, hl.2.2.1, .inr rfl⟩
      | reply m => rw [hu] at hl; exact ⟨hl.1, hl.2.1, hl.2.2.1, by simp⟩
    exited := by simp
    failed := fun _ => hcall.elim (·.2) h.childSend_lt
    killed := by simp }

theorem Refines.childClose (h : Refines n s u)
    (ht : tick n .childClose s = some t) : Refines n t u := by
  simp only [tick, Option.ite_none_right_eq_some, Option.some.injEq] at ht
  obtain ⟨⟨hc, hi⟩, rfl⟩ := ht
  have hl := h.located
  exact { h with
    located := by
      cases hu : u.phase <;>
        simp only [hu, Located, hc, reduceCtorEq, false_and, or_self, and_false] at hl
      · exact ⟨hl.1, hl.2.1, hl.2.2.1, by simp⟩
      · exact ⟨hl.1, hl.2.1, hl.2.2.1, by simp⟩
      · exact ⟨hl.1, hl.2.1, hl.2.2.1, by simp⟩
    exited := fun _ => le_antisymm h.childI_le (not_lt.mp hi)
    failed := by simp
    killed := by simp }

/-- One call of either process is at most one operation of the exchange. -/
theorem Refines.tick {a : Action} (ha : a.parentSucceeds = true) (h : Refines n s u)
    (ht : tick n a s = some t) :
    ∃ ops v, (RoundTrip.exchange Message).Run ops u v ∧ Refines n t v := by
  match a with
  | .parentSend _ .success => exact System.single (h.parentSend ht)
  | .parentReceive _ .success => exact System.single (h.parentReceive ht)
  | .parentReport => exact System.stutter (h.parentReport ht)
  | .parentKill => exact System.stutter (h.parentKill ht)
  | .childReceive .success => exact System.single (h.childReceive ht)
  | .childSend .success => exact System.single (h.childSend ht)
  | .childReceive .failure => exact System.stutter (h.childFails rfl ht)
  | .childSend .failure => exact System.stutter (h.childFails rfl ht)
  | .childClose => exact System.stutter (h.childClose ht)

def refinement (n : ℕ) :
    System.Simulation (main n) (RoundTrip.exchange Message) (Action.parentSucceeds · = true) where
  Rel := Refines n
  init := refines_init n
  step _ _ _ _ ha h ht := h.tick ha ht

end Steps

section Runs
variable {n : ℕ} {s t : State} {as : List Action}

theorem exists_refines (h : (main n).Run as (main n).init s)
    (hok : ∀ a ∈ as, a.parentSucceeds = true) : ∃ u, Refines n s u := by
  obtain ⟨u, -, hu⟩ := (refinement n).run h hok
  exact ⟨u, hu⟩

theorem tick_exitFailure {a : Action} (ht : tick n a s = some t) :
    t.child = .exitFailure ↔ s.child = .exitFailure ∨ a.childFails = true := by
  match a with
  | .childReceive .failure => simp [(tick_childFails rfl ht).1, Action.childFails]
  | .childSend .failure => simp [(tick_childFails rfl ht).1, Action.childFails]
  | .parentSend _ .success =>
      simp only [tick, Option.ite_none_right_eq_some, Option.map_eq_some_iff] at ht
      obtain ⟨-, q, -, rfl⟩ := ht
      simp [Action.childFails]
  | .parentReceive _ .success =>
      simp only [tick, Option.ite_none_right_eq_some, Option.map_eq_some_iff] at ht
      obtain ⟨-, q, -, rfl⟩ := ht
      simp [Action.childFails]
  | .parentSend _ .failure | .parentReceive _ .failure | .parentReport | .parentKill =>
      simp only [tick, Option.ite_none_right_eq_some, Option.some.injEq] at ht
      obtain ⟨-, rfl⟩ := ht
      simp [Action.childFails]
  | .childReceive .success =>
      simp only [tick, Option.ite_none_right_eq_some, Option.map_eq_some_iff] at ht
      obtain ⟨hc, q, -, rfl⟩ := ht
      simp [hc.1, Action.childFails]
  | .childSend .success =>
      simp only [tick, Option.ite_none_right_eq_some, Option.bind_eq_some_iff,
        Option.map_eq_some_iff] at ht
      obtain ⟨hc, m, -, q, -, rfl⟩ := ht
      simp [hc, Action.childFails]
  | .childClose =>
      simp only [tick, Option.ite_none_right_eq_some, Option.some.injEq] at ht
      obtain ⟨hc, rfl⟩ := ht
      simp [hc.1, Action.childFails]

/-- The child has exited with a failure exactly if one of its calls has failed. -/
theorem exitFailure_iff (h : (main n).Run as (main n).init s) :
    s.child = .exitFailure ↔ ∃ a ∈ as, a.childFails = true := by
  refine h.history (P := fun as s => s.child = .exitFailure ↔ ∃ a ∈ as, a.childFails = true)
    (by simp [main]) ?_
  intro bs a v w ih ht
  rw [tick_exitFailure ht, ih]
  simp [or_and_right, exists_or]

/-- The distance of the parent from its report. -/
def State.distance (n : ℕ) (s : State) : ℕ :=
  4 * (n - s.parentI) + match s.parent with
    | .loop => 3
    | .receive => 2 * s.mqPtoc.items.length + if s.child = .send then 1 else 0
    | _ => 0

/-- Unless the child has failed, some call succeeds and brings the parent
nearer to its report: the phase says which one. -/
theorem Refines.progress {u : RoundTrip.State Message} (h : Refines n s u)
    (hf : s.child ≠ .exitFailure) (hr : s.parent.reported ≠ true) :
    ∃ a t, a.succeeds = true ∧ IpcMqLatency.tick n a s = some t ∧ t.distance n < s.distance n := by
  have hl := h.located
  have hi := h.childI_eq
  cases hu : u.phase with
  | idle =>
      rw [hu] at hl
      have hp : s.parent = .loop := by
        cases hp : s.parent <;> simp_all [ParentPc.reported, Located]
      by_cases hn : s.parentI < n
      · obtain ⟨q, hq, hitems⟩ :=
          s.mqPtoc.exists_send s.parentBuf (by simp [hl.2.1, mqMaxmsg])
        refine ⟨.parentSend ⟨0, 0⟩ .success, _, rfl,
          by simp [IpcMqLatency.tick, hp, hn, hq]; rfl, ?_⟩
        simp [State.distance, hp, hitems, hl.2.1, hl.2.2.2]
      · exact ⟨.parentReport, _, rfl, by simp [IpcMqLatency.tick, hp, hn]; rfl,
          by simp [State.distance, hp]⟩
  | request m =>
      rw [hu] at hl hi
      obtain ⟨hp, hptoc, hctop, hs⟩ := hl
      have hlt : s.childI < n := hi ▸ h.running hp
      have hc : s.child = .loop := by
        have he := h.exited
        have hk := h.killed
        cases hc : s.child <;> simp_all
      obtain ⟨q, hq, hitems⟩ := BoundedQueue.exists_receive hptoc
      refine ⟨.childReceive .success, _, rfl,
        by simp [IpcMqLatency.tick, hc, hlt, hq]; rfl, ?_⟩
      simp [State.distance, hp, hitems, hptoc, hc]
  | held m =>
      rw [hu] at hl
      obtain ⟨hp, hptoc, hctop, hs⟩ := hl
      obtain ⟨hc, hm⟩ := hs.resolve_right hf
      obtain ⟨q, hq, hitems⟩ := s.mqCtop.exists_send m (by simp [hctop, mqMaxmsg])
      refine ⟨.childSend .success, _, rfl, by simp [IpcMqLatency.tick, hc, hm, hq]; rfl, ?_⟩
      simp [State.distance, hp, hptoc, hc]
  | reply m =>
      rw [hu] at hl
      obtain ⟨hp, hptoc, hctop, hs⟩ := hl
      obtain ⟨q, hq, hitems⟩ := BoundedQueue.exists_receive hctop
      have hlt := h.running hp
      refine ⟨.parentReceive ⟨0, 0⟩ .success, _, rfl,
        by simp [IpcMqLatency.tick, hp, hq]; rfl, ?_⟩
      simp [State.distance, hp, hptoc, hs]
      omega

/-- From here the two processes can bring the parent to its report, with no
further failure. -/
def CanReport (n : ℕ) (s : State) : Prop :=
  ∃ as t, (∀ a ∈ as, a.succeeds = true) ∧ (main n).Run as s t ∧ t.parent.reported = true

/-- The child is gone, the parent waits in `mq_receive` and nothing is on its
way to the parent. -/
def Stranded (s : State) : Prop :=
  (s.child = .exitSuccess ∨ s.child = .exitFailure) ∧ s.parent = .receive ∧ s.mqCtop.items = []

theorem Refines.canReport {u : RoundTrip.State Message} (h : Refines n s u)
    (hf : s.child ≠ .exitFailure) : CanReport n s := by
  refine System.exists_run_to (I := fun s => (∃ u, Refines n s u) ∧ s.child ≠ .exitFailure)
    (Action.succeeds · = true) (State.distance n) ?_ s ⟨⟨u, h⟩, hf⟩
  rintro s ⟨⟨u, h⟩, hf⟩ hr
  obtain ⟨a, t, ha, ht, hlt⟩ := h.progress hf hr
  obtain ⟨-, v, -, hv⟩ := h.tick (parentSucceeds_of_succeeds ha) ht
  have hkeep : t.child ≠ .exitFailure := by
    rw [ne_eq, tick_exitFailure ht]
    simpa [hf] using childFails_of_succeeds ha
  exact ⟨a, t, ha, ht, ⟨⟨v, hv⟩, hkeep⟩, hlt⟩

theorem Refines.not_failed_of_reported {u : RoundTrip.State Message} (h : Refines n s u)
    (hr : s.parent.reported = true) : s.child ≠ .exitFailure := by
  intro hf
  have hlt := h.failed hf
  have hi := h.childI_eq
  have hn := h.finished hr
  omega

theorem Refines.not_stranded {u : RoundTrip.State Message} (h : Refines n s u)
    (hf : s.child ≠ .exitFailure) : ¬ Stranded s := by
  rintro ⟨hc, hp, hctop⟩
  have hc := hc.resolve_right hf
  have hl := h.located
  have hi := h.childI_eq
  cases hu : u.phase <;> simp only [hu, Located, hp, hctop, hc, ne_eq, not_true_eq_false,
    false_and, and_false, reduceCtorEq, or_self, List.ne_cons_self] at hl
  simp only [hu, RoundTrip.Phase.answered, Nat.add_zero, h.exited hc] at hi
  have hlt := h.running hp
  omega

/-- After a failing child call the parent never reports, whichever call it was. -/
theorem canReport_iff (h : (main n).Run as (main n).init s)
    (hok : ∀ a ∈ as, a.parentSucceeds = true) :
    ¬ Stranded s ∧ CanReport n s ↔ ∀ a ∈ as, a.childFails = false := by
  obtain ⟨u, hu⟩ := exists_refines h hok
  have hfail := exitFailure_iff h
  constructor
  · rintro ⟨-, bs, t, hbs, hrun, ht⟩
    have hall : ∀ a ∈ as ++ bs, a.parentSucceeds = true := by
      intro a ha
      rcases List.mem_append.mp ha with ha | ha
      · exact hok a ha
      · exact parentSucceeds_of_succeeds (hbs a ha)
    obtain ⟨v, hv⟩ := exists_refines (h.append hrun) hall
    have hnot := hv.not_failed_of_reported ht
    rw [ne_eq, exitFailure_iff (h.append hrun)] at hnot
    intro a ha
    by_contra hc
    exact hnot ⟨a, List.mem_append_left bs ha, by simpa using hc⟩
  · intro hnone
    have hf : s.child ≠ .exitFailure := by
      rw [ne_eq, hfail]
      rintro ⟨a, ha, hc⟩
      simp [hnone a ha] at hc
    exact ⟨hu.not_stranded hf, hu.canReport hf⟩

theorem maxLatency_eq (h : (main n).Run as (main n).init s)
    (hok : ∀ a ∈ as, a.parentSucceeds = true) : s.maxLatency = maxLatencyOf s.rounds := by
  obtain ⟨u, hu⟩ := exists_refines h hok
  exact hu.folded

theorem Refines.inFlight_eq {u : RoundTrip.State Message} (h : Refines n s u)
    (hf : s.child ≠ .exitFailure) : s.inFlight = if s.parent = .receive then 1 else 0 := by
  have hl := h.located
  cases hu : u.phase <;> simp_all [Located, State.inFlight]

theorem Refines.send_isSome {u : RoundTrip.State Message} (h : Refines n s u) (m : Message) :
    (s.mqPtoc.send m).isSome ∧ (s.mqCtop.send m).isSome := by
  have hl := h.located
  simp only [BoundedQueue.send_isSome]
  cases hu : u.phase <;> simp_all [Located, mqMaxmsg]

/-- In every schedule the parent's i-th receive returns its own i-th message,
which the child has received and sent back; one message is under way exactly
between the parent's send and its receive, neither queue is ever full, and some
call can always go on until the parent has done its rounds. -/
theorem round_trips (h : (main n).Run as (main n).init s)
    (hok : ∀ a ∈ as, a.succeeds = true) :
    (∀ (i : ℕ) (m : Message), s.parentReceived[i]? = some m →
      s.parentSent[i]? = some m ∧ s.childReceived[i]? = some m ∧ s.childSent[i]? = some m) ∧
    s.inFlight = (if s.parent = .receive then 1 else 0) ∧
    (∀ m, (s.mqPtoc.send m).isSome ∧ (s.mqCtop.send m).isSome) ∧
    (s.parentI < n → ∃ a, a.succeeds = true ∧ (main n).Enabled a s) := by
  obtain ⟨u, hu⟩ := exists_refines h fun a ha => parentSucceeds_of_succeeds (hok a ha)
  have hf : s.child ≠ .exitFailure := by
    rw [ne_eq, exitFailure_iff h]
    rintro ⟨a, ha, hc⟩
    simp [childFails_of_succeeds (hok a ha)] at hc
  refine ⟨?_, hu.inFlight_eq hf, hu.send_isSome, ?_⟩
  · intro i m hm
    rw [hu.collected] at hm
    rw [hu.asked, hu.taken, hu.given]
    exact hu.matched.getElem? hm
  · intro hi
    have hr : s.parent.reported ≠ true := fun hr => hi.ne (hu.finished hr)
    obtain ⟨a, t, ha, ht, -⟩ := hu.progress hf hr
    exact ⟨a, ha, Option.isSome_iff_exists.mpr ⟨t, ht⟩⟩

def echoed : List Action :=
  [.parentSend ⟨0, 5⟩ .success, .childReceive .success, .childSend .success,
    .parentReceive ⟨0, 9⟩ .success]

theorem round_trips_once : ∃ s, (main 1).Run echoed (main 1).init s ∧ s.maxLatency = 4 ∧
    s.childSent[0]? = some pattern := by
  have h : ∃ s, (main 1).Run echoed (main 1).init s ∧ s.maxLatency = 4 ∧
      s.parentReceived[0]? = some pattern := ⟨_, rfl, by decide, rfl⟩
  obtain ⟨s, hrun, hmax, hm⟩ := h
  exact ⟨s, hrun, hmax, ((round_trips hrun (by decide)).1 0 pattern hm).2.2⟩

end Runs

end MicrokernelBenchmark.IpcMqLatency
