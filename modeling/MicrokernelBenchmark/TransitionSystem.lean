import Mathlib.Data.List.Induction
import Mathlib.Data.Option.Basic

/-!
# Labelled transition systems with partial steps

A label names one atomic action together with every value that the environment
supplies to it, so a step is a partial function of label and state and a
schedule is a list of labels. A blocked action is an undefined step. Runs are
executable; a run of a fixed schedule is computed, not derived.

The rules below package the inductions over runs: an invariant from its step
lemma, a fact about schedule and state together, a simulation from its step,
a bound on the length of a run and a continuation to a goal from a measure.
-/
namespace MicrokernelBenchmark.TransitionSystem

/-- How an injected call returns: as its system defines it, or with an error. -/
inductive Outcome where
  | success
  | failure
deriving DecidableEq, Repr

structure System (α σ : Type*) where
  init : σ
  tick : α → σ → Option σ

namespace System
variable {α β γ σ τ : Type*} (M : System α σ) {N : System β τ}

/-- The state after a schedule, if no label of it is blocked. -/
def exec : List α → σ → Option σ
  | [], s => some s
  | a :: as, s => (M.tick a s).bind (exec as)

def Run (as : List α) (s t : σ) : Prop := M.exec as s = some t

instance [DecidableEq σ] (as : List α) (s t : σ) : Decidable (M.Run as s t) :=
  inferInstanceAs (Decidable (M.exec as s = some t))

def Reachable (s : σ) : Prop := ∃ as, M.Run as M.init s

def Enabled (a : α) (s : σ) : Prop := (M.tick a s).isSome

variable {M}

@[simp] theorem run_nil {s t : σ} : M.Run [] s t ↔ s = t := by
  simp [Run, exec]

theorem run_cons {a : α} {as : List α} {s t : σ} :
    M.Run (a :: as) s t ↔ ∃ u, M.tick a s = some u ∧ M.Run as u t := by
  simp [Run, exec, Option.bind_eq_some_iff]

theorem run_append {as bs : List α} {s t : σ} :
    M.Run (as ++ bs) s t ↔ ∃ u, M.Run as s u ∧ M.Run bs u t := by
  induction as generalizing s with
  | nil => simp
  | cons a as ih =>
      rw [List.cons_append, run_cons]
      constructor
      · rintro ⟨u, hu, h⟩
        obtain ⟨v, hv, h⟩ := ih.mp h
        exact ⟨v, run_cons.mpr ⟨u, hu, hv⟩, h⟩
      · rintro ⟨v, hv, h⟩
        obtain ⟨u, hu, hv⟩ := run_cons.mp hv
        exact ⟨u, hu, ih.mpr ⟨v, hv, h⟩⟩

theorem run_single {a : α} {s t : σ} : M.Run [a] s t ↔ M.tick a s = some t := by
  simp [run_cons]

theorem run_snoc {as : List α} {a : α} {s t : σ} :
    M.Run (as ++ [a]) s t ↔ ∃ u, M.Run as s u ∧ M.tick a u = some t := by
  simp only [run_append, run_single]

theorem Run.append {as bs : List α} {s t u : σ} (h : M.Run as s t) (k : M.Run bs t u) :
    M.Run (as ++ bs) s u := run_append.mpr ⟨t, h, k⟩

/-- A fact about the schedule so far and the state it has led to. -/
theorem Run.history {P : List α → σ → Prop} {s t : σ} {as : List α} (h : M.Run as s t)
    (nil : P [] s)
    (snoc : ∀ as a u v, P as u → M.tick a u = some v → P (as ++ [a]) v) : P as t := by
  induction as using List.reverseRecOn generalizing t with
  | nil => exact run_nil.mp h ▸ nil
  | append_singleton as a ih =>
      obtain ⟨u, hu, hstep⟩ := run_snoc.mp h
      exact snoc as a u t (ih hu) hstep

/-- Invariants of the runs whose labels all satisfy `ok`. -/
theorem Run.invariant {I : σ → Prop} (ok : α → Prop) {s t : σ} {as : List α}
    (h : M.Run as s t) (hok : ∀ a ∈ as, ok a) (hs : I s)
    (step : ∀ a u v, ok a → I u → M.tick a u = some v → I v) : I t := by
  induction as generalizing s with
  | nil => exact run_nil.mp h ▸ hs
  | cons a as ih =>
      obtain ⟨u, hu, h⟩ := run_cons.mp h
      exact ih h (fun b hb => hok b (List.mem_cons_of_mem a hb))
        (step a s u (hok a List.mem_cons_self) hs hu)

theorem Reachable.invariant {I : σ → Prop} {s : σ} (h : M.Reachable s) (init : I M.init)
    (step : ∀ a u v, I u → M.tick a u = some v → I v) : I s := by
  obtain ⟨as, h⟩ := h
  exact h.invariant (fun _ => True) (fun _ _ => trivial) init (fun a u v _ => step a u v)

/-- Every step allowed by `ok` pays one unit of the measure. -/
theorem Run.length_add_le {I : σ → Prop} (ok : α → Prop) (μ : σ → ℕ) {s t : σ} {as : List α}
    (h : M.Run as s t) (hok : ∀ a ∈ as, ok a) (hs : I s)
    (step : ∀ a u v, ok a → I u → M.tick a u = some v → I v ∧ μ v < μ u) :
    as.length + μ t ≤ μ s := by
  induction as generalizing s with
  | nil => simp [run_nil.mp h]
  | cons a as ih =>
      obtain ⟨u, hu, h⟩ := run_cons.mp h
      obtain ⟨hI, hlt⟩ := step a s u (hok a List.mem_cons_self) hs hu
      have hle := ih h (fun b hb => hok b (List.mem_cons_of_mem a hb)) hI
      simp only [List.length_cons]
      omega

/-- A measure which some allowed step decreases until the goal holds leads to
the goal from every state of the invariant. -/
theorem exists_run_to {I goal : σ → Prop} (ok : α → Prop) (μ : σ → ℕ)
    (progress : ∀ s, I s → ¬ goal s → ∃ a t, ok a ∧ M.tick a s = some t ∧ I t ∧ μ t < μ s)
    (s : σ) (hs : I s) : ∃ as t, (∀ a ∈ as, ok a) ∧ M.Run as s t ∧ goal t := by
  induction hk : μ s using Nat.strongRecOn generalizing s with
  | ind k ih =>
      by_cases hg : goal s
      · exact ⟨[], s, by simp, run_nil.mpr rfl, hg⟩
      · obtain ⟨a, t, ha, ht, hI, hlt⟩ := progress s hs hg
        obtain ⟨as, u, hok, hrun, hu⟩ := ih (μ t) (hk ▸ hlt) t hI rfl
        exact ⟨a :: as, u, List.forall_mem_cons.mpr ⟨ha, hok⟩,
          run_cons.mpr ⟨t, ht, hrun⟩, hu⟩

/-- A step which the abstract system does not see. -/
theorem stutter {R : τ → Prop} {u : τ} (h : R u) : ∃ bs v, N.Run bs u v ∧ R v :=
  ⟨[], u, run_nil.mpr rfl, h⟩

/-- A step which is one abstract step. -/
theorem single {R : τ → Prop} {b : β} {u : τ} (h : ∃ v, N.tick b u = some v ∧ R v) :
    ∃ bs v, N.Run bs u v ∧ R v := by
  obtain ⟨v, hv, hR⟩ := h
  exact ⟨[b], v, run_single.mpr hv, hR⟩

/-- Forward simulation on the labels in `ok`: one concrete step is matched by
finitely many abstract steps, possibly none. -/
structure Simulation (M : System α σ) (N : System β τ) (ok : α → Prop) where
  Rel : σ → τ → Prop
  init : Rel M.init N.init
  step : ∀ a s t u, ok a → Rel s u → M.tick a s = some t → ∃ bs v, N.Run bs u v ∧ Rel t v

theorem Simulation.run {ok : α → Prop} (R : Simulation M N ok) {as : List α} {s : σ}
    (h : M.Run as M.init s) (hok : ∀ a ∈ as, ok a) : ∃ u, N.Reachable u ∧ R.Rel s u := by
  apply h.invariant ok hok ⟨N.init, ⟨[], run_nil.mpr rfl⟩, R.init⟩
  rintro a s t ha ⟨u, ⟨bs, hu⟩, hR⟩ hstep
  obtain ⟨cs, v, hv, hR⟩ := R.step a s t u ha hR hstep
  exact ⟨v, ⟨bs ++ cs, hu.append hv⟩, hR⟩

/-- The runs whose steps all meet a condition on the label and the state before it. -/
def restrict (M : System α σ) (ok : α → σ → Prop) [∀ a s, Decidable (ok a s)] : System α σ where
  init := M.init
  tick a s := if ok a s then M.tick a s else none

theorem restrict_tick {ok : α → σ → Prop} [∀ a s, Decidable (ok a s)] {a : α} {s t : σ} :
    (M.restrict ok).tick a s = some t ↔ ok a s ∧ M.tick a s = some t := by
  simp [restrict]

/-- A label moves a component by its share of it and otherwise leaves it alone. -/
def share (M : System α σ) : Option α → σ → Option σ
  | none, s => some s
  | some a, s => M.tick a s

/-- Two components which move together, each by its share of a label. -/
def sync (M : System α σ) (N : System β τ) (f : γ → Option α) (g : γ → Option β) :
    System γ (σ × τ) where
  init := (M.init, N.init)
  tick c p := (M.share (f c) p.1).bind fun s => (N.share (g c) p.2).map fun u => (s, u)

section Sync
variable {f : γ → Option α} {g : γ → Option β}

theorem sync_tick {c : γ} {p q : σ × τ} : (M.sync N f g).tick c p = some q ↔
    M.share (f c) p.1 = some q.1 ∧ N.share (g c) p.2 = some q.2 := by
  obtain ⟨s, u⟩ := q
  simp only [sync, Option.bind_eq_some_iff, Option.map_eq_some_iff, Prod.mk.injEq]
  constructor
  · rintro ⟨_, hs, _, hu, rfl, rfl⟩
    exact ⟨hs, hu⟩
  · rintro ⟨hs, hu⟩
    exact ⟨s, hs, u, hu, rfl, rfl⟩

end Sync

end System
end MicrokernelBenchmark.TransitionSystem
