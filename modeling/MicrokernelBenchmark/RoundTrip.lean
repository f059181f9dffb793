import MicrokernelBenchmark.TransitionSystem

/-!
# One token between an asker and an answerer

The purpose of a ping-pong exchange, without channels, processes or failures.
One message is asked, taken, given back unchanged and collected before the next
one is asked. The four histories list the messages of each operation; they are
what a concrete exchange is compared with. An implementation refines this
system when every step of it is a finite number of these four operations.
-/
namespace MicrokernelBenchmark.RoundTrip
open TransitionSystem

/-- Where the one message is. -/
inductive Phase (μ : Type*) where
  | idle
  | request (m : μ)
  | held (m : μ)
  | reply (m : μ)
deriving DecidableEq, Repr

inductive Op (μ : Type*) where
  | ask (m : μ)
  | take
  | give
  | collect
deriving DecidableEq, Repr

structure State (μ : Type*) where
  phase : Phase μ := .idle
  asked : List μ := []
  taken : List μ := []
  given : List μ := []
  collected : List μ := []
deriving DecidableEq, Repr

variable {μ : Type*}

def tick (op : Op μ) (u : State μ) : Option (State μ) :=
  match op, u.phase with
  | .ask m, .idle => some { u with phase := .request m, asked := u.asked ++ [m] }
  | .take, .request m => some { u with phase := .held m, taken := u.taken ++ [m] }
  | .give, .held m => some { u with phase := .reply m, given := u.given ++ [m] }
  | .collect, .reply m => some { u with phase := .idle, collected := u.collected ++ [m] }
  | _, _ => none

def exchange (μ : Type*) : System (Op μ) (State μ) := ⟨{}, tick⟩

def Phase.count : Phase μ → ℕ
  | .idle => 0
  | _ => 1

/-- Whether the message under way has been given back. -/
def Phase.answered : Phase μ → ℕ
  | .reply _ => 1
  | _ => 0

/-- The histories agree up to the message under way, and the phase says which
of them already contain it. -/
def State.Matched (u : State μ) : Prop :=
  match u.phase with
  | .idle => u.asked = u.collected ∧ u.taken = u.collected ∧ u.given = u.collected
  | .request m => u.asked = u.collected ++ [m] ∧ u.taken = u.collected ∧ u.given = u.collected
  | .held m => u.asked = u.collected ++ [m] ∧ u.taken = u.collected ++ [m] ∧ u.given = u.collected
  | .reply m =>
      u.asked = u.collected ++ [m] ∧ u.taken = u.collected ++ [m] ∧ u.given = u.collected ++ [m]

theorem tick_matched {op : Op μ} {u v : State μ} (hu : u.Matched) (h : tick op u = some v) :
    v.Matched := by
  obtain ⟨phase, asked, taken, given, collected⟩ := u
  cases op <;> cases phase <;> simp only [tick, Option.some.injEq, reduceCtorEq] at h
  all_goals subst v
  case ask.idle m =>
    obtain ⟨ha, ht, hg⟩ := hu
    exact ⟨congrArg (· ++ [m]) ha, ht, hg⟩
  case take.request m =>
    obtain ⟨ha, ht, hg⟩ := hu
    exact ⟨ha, congrArg (· ++ [m]) ht, hg⟩
  case give.held m =>
    obtain ⟨ha, ht, hg⟩ := hu
    exact ⟨ha, ht, congrArg (· ++ [m]) hg⟩
  case collect.reply m => exact hu

theorem reachable_matched {u : State μ} (h : (exchange μ).Reachable u) : u.Matched :=
  h.invariant ⟨rfl, rfl, rfl⟩ fun _ _ _ => tick_matched

/-- What has come back was given, what was given had been taken, and what was
taken had been asked, each in the order of asking. -/
theorem State.Matched.prefixes {u : State μ} (h : u.Matched) :
    u.collected <+: u.given ∧ u.given <+: u.taken ∧ u.taken <+: u.asked := by
  unfold State.Matched at h
  split at h <;> obtain ⟨ha, ht, hg⟩ := h <;> rw [ha, ht, hg] <;> simp

/-- The i-th message collected is the i-th asked, after it was taken and given. -/
theorem State.Matched.getElem? {u : State μ} (h : u.Matched) {i : ℕ} {m : μ}
    (hm : u.collected[i]? = some m) :
    u.asked[i]? = some m ∧ u.taken[i]? = some m ∧ u.given[i]? = some m := by
  have grow {xs ys : List μ} (hp : xs <+: ys) (hx : xs[i]? = some m) : ys[i]? = some m := by
    obtain ⟨zs, rfl⟩ := hp
    rwa [List.getElem?_append_left (List.getElem?_eq_some_iff.mp hx).1]
  obtain ⟨hgiven, htaken, hasked⟩ := h.prefixes
  have hg := grow hgiven hm
  have ht := grow htaken hg
  exact ⟨grow hasked ht, ht, hg⟩

/-- At most one message is under way, and the phase counts it. -/
theorem State.Matched.asked_length {u : State μ} (h : u.Matched) :
    u.asked.length = u.collected.length + u.phase.count := by
  unfold State.Matched at h
  split at h <;> rename_i hp <;> simp [h, hp, Phase.count]

theorem State.Matched.given_length {u : State μ} (h : u.Matched) :
    u.given.length = u.collected.length + u.phase.answered := by
  unfold State.Matched at h
  split at h <;> rename_i hp <;> simp [h, hp, Phase.answered]

end MicrokernelBenchmark.RoundTrip
