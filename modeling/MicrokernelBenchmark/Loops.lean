import Mathlib.Data.List.Basic
import Mathlib.Data.Nat.Notation

/-!
# Loops over the indices below a bound

One rule for a loop that always runs to its end and one for a loop which the
first fault ends; both carry an invariant which names the passes made.
-/
namespace MicrokernelBenchmark

variable {σ ε : Type*} {s : σ} {n : ℕ}

def repeatBelow (body : σ → ℕ → σ) (n : ℕ) (s : σ) : σ := (List.range n).foldl body s

theorem repeatBelow_succ (body : σ → ℕ → σ) (n : ℕ) (s : σ) :
    repeatBelow body (n + 1) s = body (repeatBelow body n s) n := by
  rw [repeatBelow, List.range_succ, List.foldl_concat]
  rfl

theorem repeatBelow_invariant {body : σ → ℕ → σ} (I : ℕ → σ → Prop) (hs : I 0 s)
    (step : ∀ i < n, ∀ t, I i t → I (i + 1) (body t i)) : I n (repeatBelow body n s) := by
  induction n with
  | zero => exact hs
  | succ n ih =>
      rw [repeatBelow_succ]
      exact step n (Nat.lt_succ_self n) _ (ih fun i hi => step i (Nat.lt_succ_of_lt hi))

/-- A loop over the indices below a bound, which the first fault ends. -/
def forBelow (body : σ → ℕ → Except ε σ) (n : ℕ) (s : σ) : Except ε σ :=
  (List.range n).foldlM body s

theorem forBelow_succ (body : σ → ℕ → Except ε σ) (n : ℕ) (s : σ) :
    forBelow body (n + 1) s = (forBelow body n s).bind fun t => body t n := by
  rw [forBelow, forBelow, List.range_succ, List.foldlM_append]
  congr 1
  funext t
  cases h : body t n <;> simp [h, bind, Except.bind, pure, Except.pure]

/-- Where the body faults just when `P` fails at its index, the loop ends without a fault
just when `P` holds at all indices, and then in the invariant. -/
theorem forBelow_iff (body : σ → ℕ → Except ε σ) (I : ℕ → σ → Prop) (P : ℕ → Prop) (hs : I 0 s)
    (hok : ∀ i < n, ∀ t, I i t → P i → ∃ u, body t i = .ok u ∧ I (i + 1) u)
    (hfault : ∀ i < n, ∀ t, I i t → ¬ P i → ∃ e, body t i = .error e) :
    ((∀ i < n, P i) → ∃ t, forBelow body n s = .ok t ∧ I n t) ∧
      ((∃ t, forBelow body n s = .ok t) → ∀ i < n, P i) := by
  induction n with
  | zero => exact ⟨fun _ => ⟨s, rfl, hs⟩, fun _ i hi => absurd hi (Nat.not_lt_zero i)⟩
  | succ n ih =>
      obtain ⟨ihok, ihfault⟩ := ih (fun i hi => hok i (Nat.lt_succ_of_lt hi))
        (fun i hi => hfault i (Nat.lt_succ_of_lt hi))
      rw [forBelow_succ, Nat.forall_lt_succ_right]
      constructor
      · intro h
        obtain ⟨t, ht, hinv⟩ := ihok h.1
        rw [ht]
        exact hok n (Nat.lt_succ_self n) t hinv h.2
      · intro h
        cases hloop : forBelow body n s with
        | error e =>
            rw [hloop] at h
            obtain ⟨t, ht⟩ := h
            cases ht
        | ok t =>
            have hbelow := ihfault ⟨t, hloop⟩
            obtain ⟨u, hu, hinv⟩ := ihok hbelow
            rw [hu] at hloop h
            refine ⟨hbelow, ?_⟩
            by_contra hP
            obtain ⟨e, he⟩ := hfault n (Nat.lt_succ_self n) u hinv hP
            obtain ⟨v, hv⟩ := h
            change body u n = .ok v at hv
            rw [he] at hv
            cases hv

end MicrokernelBenchmark
