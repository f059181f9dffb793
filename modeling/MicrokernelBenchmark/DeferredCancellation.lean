import Mathlib.Data.List.Basic

/-!
# Threads under deferred cancellation

A thread runs a body: a start, a partial step, and the points at which it calls a
cancellation point. A request to cancel is only noted; it takes effect when the
thread is at such a point with a request pending. A body without such points
which never returns makes a thread that no request can end.
-/
namespace MicrokernelBenchmark.DeferredCancellation

/-- An undefined step is the return from the start routine. -/
structure Body (κ : Type*) where
  start : κ
  step : κ → Option κ
  cancellationPoint : κ → Bool

inductive Thread (κ : Type*) where
  | running (at' : κ) (cancelPending : Bool)
  | ended
deriving DecidableEq, Repr

variable {κ : Type*}

namespace Body
variable (body : Body κ)

def spawn : Thread κ := .running body.start false

def tick : Thread κ → Option (Thread κ)
  | .ended => none
  | .running k pending =>
      if pending && body.cancellationPoint k then some .ended
      else match body.step k with
        | some k' => some (.running k' pending)
        | none => some .ended

/-- The body never returns and passes no cancellation point. -/
def Spins : Prop := ∀ k, (body.step k).isSome ∧ body.cancellationPoint k = false

end Body

def Thread.cancel : Thread κ → Thread κ
  | .running k _ => .running k true
  | .ended => .ended

/-- One step of the thread at index `i`. -/
def tickAt (body : Body κ) (i : ℕ) (threads : List (Thread κ)) : Option (List (Thread κ)) :=
  (threads[i]?.bind body.tick).map (threads.set i)

def cancelAt (i : ℕ) (threads : List (Thread κ)) : List (Thread κ) :=
  threads.modify i Thread.cancel

theorem Thread.cancel_ne_ended {th : Thread κ} (h : th ≠ .ended) : th.cancel ≠ .ended := by
  cases th <;> simp_all [Thread.cancel]

/-- No request ends a thread whose body spins. -/
theorem Body.Spins.tick_ne_ended {body : Body κ} (hspin : body.Spins) {th th' : Thread κ}
    (h : body.tick th = some th') : th' ≠ .ended := by
  cases th with
  | ended => simp [Body.tick] at h
  | running k pending =>
      obtain ⟨hstep, hpoint⟩ := hspin k
      obtain ⟨k', hk⟩ := Option.isSome_iff_exists.mp hstep
      rw [Body.tick, hpoint, Bool.and_false, if_neg Bool.false_ne_true, hk] at h
      have heq : Thread.running k' pending = th' := by simpa using h
      simp [← heq]

theorem Body.Spins.tickAt {body : Body κ} (hspin : body.Spins) {i : ℕ}
    {threads threads' : List (Thread κ)} (h : tickAt body i threads = some threads')
    (halive : ∀ th ∈ threads, th ≠ .ended) : ∀ th ∈ threads', th ≠ .ended := by
  rw [DeferredCancellation.tickAt, Option.map_eq_some_iff] at h
  obtain ⟨new, hnew, rfl⟩ := h
  obtain ⟨old, _, htick⟩ := Option.bind_eq_some_iff.mp hnew
  intro th hth
  rcases List.mem_or_eq_of_mem_set hth with hmem | rfl
  · exact halive th hmem
  · exact hspin.tick_ne_ended htick

theorem cancelAt_alive {i : ℕ} {threads : List (Thread κ)}
    (halive : ∀ th ∈ threads, th ≠ .ended) : ∀ th ∈ cancelAt i threads, th ≠ .ended := by
  intro th hth
  obtain ⟨j, hj, rfl⟩ := List.getElem_of_mem hth
  simp only [cancelAt, List.getElem_modify]
  split
  · exact Thread.cancel_ne_ended (halive _ (List.getElem_mem _))
  · exact halive _ (List.getElem_mem _)

end MicrokernelBenchmark.DeferredCancellation
