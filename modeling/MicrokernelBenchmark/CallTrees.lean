import Mathlib.Data.List.Basic

/-!
# Programs as trees of calls

A program which runs alone and learns about its surroundings only from the calls
it makes. `R c` is the type of the answers to the call `c`; a call without
answers ends every run. The surroundings may answer each call according to all
that has happened before, or not at all: the run then ends within the call.

A contract follows a run with a state of its own. It says which calls are allowed
in which state, and which answers the surroundings may give. Its weakest
precondition is computed along the tree, and what it promises holds of every run.
-/
namespace MicrokernelBenchmark.CallTrees

inductive Program {C : Type} (R : C → Type) (α : Type) where
  | done (a : α)
  | call (c : C) (next : R c → Program R α)

section
variable {C : Type} {R : C → Type} {α β σ : Type}

def Program.bind : Program R α → (α → Program R β) → Program R β
  | .done a, f => f a
  | .call c next, f => .call c fun r => (next r).bind f

instance : Monad (Program R) where
  pure := .done
  bind := Program.bind

theorem Program.bind_done (p : Program R α) : p.bind .done = p := by
  induction p with
  | done a => rfl
  | call c next ih => exact congrArg (Program.call c) (funext ih)

theorem Program.bind_bind (p : Program R α) (f : α → Program R β) {γ : Type}
    (g : β → Program R γ) : (p.bind f).bind g = p.bind fun a => (f a).bind g := by
  induction p with
  | done a => rfl
  | call c next ih => exact congrArg (Program.call c) (funext ih)

instance : LawfulMonad (Program R) :=
  LawfulMonad.mk' _ Program.bind_done (fun _ _ => rfl) fun p f g => Program.bind_bind p f g

def call (c : C) : Program R (R c) := .call c .done

abbrev Event (R : C → Type) : Type := (c : C) × R c

/-- The answers of the surroundings, given what has happened before. -/
abbrev Environment (R : C → Type) : Type := List (Event R) → (c : C) → Option (R c)

/-- How a run ends: with a result, or within a call that is not answered. -/
inductive End (C α : Type) where
  | result (a : α)
  | within (c : C)
deriving DecidableEq, Repr

def run (env : Environment R) : Program R α → List (Event R) → List (Event R) × End C α
  | .done a, past => (past, .result a)
  | .call c next, past =>
      match env past c with
      | none => (past, .within c)
      | some r => run env (next r) (past ++ [⟨c, r⟩])

structure Contract {C : Type} (R : C → Type) (σ : Type) where
  allows : σ → C → Prop
  answers : σ → (c : C) → R c → Prop
  next : σ → (c : C) → R c → σ

namespace Contract
variable (K : Contract R σ)

def after (s : σ) (history : List (Event R)) : σ :=
  history.foldl (fun s e => K.next s e.1 e.2) s

/-- Every call of a history is allowed when it is made. -/
def Accepts (s : σ) : List (Event R) → Prop
  | [] => True
  | e :: history => K.allows s e.1 ∧ Accepts (K.next s e.1 e.2) history

def Honest (s : σ) (env : Environment R) : Prop :=
  ∀ past c r, env past c = some r → K.answers (K.after s past) c r

/-- The state from which the program makes allowed calls only and ends in `Q`. -/
def wp : Program R α → σ → (α → σ → Prop) → Prop
  | .done a, s, Q => Q a s
  | .call c next, s, Q =>
      K.allows s c ∧ ∀ r, K.answers s c r → wp (next r) (K.next s c r) Q

/-- What the end of a run says about the state there. -/
def Ends (Q : α → σ → Prop) (s : σ) : End C α → Prop
  | .result a => Q a s
  | .within c => K.allows s c

variable {K} {Q : α → σ → Prop}

@[simp] theorem wp_pure (a : α) (s : σ) : K.wp (pure a) s Q ↔ Q a s := Iff.rfl

@[simp] theorem wp_call (c : C) (s : σ) (Q : R c → σ → Prop) :
    K.wp (call c) s Q ↔ K.allows s c ∧ ∀ r, K.answers s c r → Q r (K.next s c r) := Iff.rfl

@[simp] theorem wp_bind (p : Program R α) (f : α → Program R β) (s : σ) (Q : β → σ → Prop) :
    K.wp (p >>= f) s Q ↔ K.wp p s fun a t => K.wp (f a) t Q := by
  change K.wp (p.bind f) s Q ↔ _
  induction p generalizing s with
  | done a => rfl
  | call c next ih => exact and_congr_right fun _ => forall₂_congr fun r _ => ih r _

theorem wp_mono {Q' : α → σ → Prop} {p : Program R α} {s : σ} (h : K.wp p s Q)
    (hQ : ∀ a t, Q a t → Q' a t) : K.wp p s Q' := by
  induction p generalizing s with
  | done a => exact hQ a s h
  | call c next ih => exact ⟨h.1, fun r hr => ih r (h.2 r hr)⟩

/-- A counting loop keeps an invariant on its counter, its accumulator and the state. -/
theorem wp_foldlM_range {n : ℕ} {body : β → ℕ → Program R β} (inv : ℕ → β → σ → Prop)
    (hbody : ∀ i < n, ∀ b s, inv i b s → K.wp (body b i) s (inv (i + 1))) {b : β} {s : σ}
    (hs : inv 0 b s) : K.wp ((List.range n).foldlM body b) s (inv n) := by
  induction n with
  | zero => exact hs
  | succ n ih =>
      rw [List.range_succ, List.foldlM_append, wp_bind]
      refine wp_mono (ih fun i hi => hbody i (Nat.lt_succ_of_lt hi)) fun b t ht => ?_
      rw [List.foldlM_cons, wp_bind]
      exact hbody n (Nat.lt_succ_self n) b t ht

theorem after_append (s : σ) (past : List (Event R)) (e : Event R) :
    K.after s (past ++ [e]) = K.next (K.after s past) e.1 e.2 := by
  rw [after, List.foldl_append]
  rfl

theorem accepts_append (s : σ) (past : List (Event R)) (e : Event R) :
    K.Accepts s (past ++ [e]) ↔ K.Accepts s past ∧ K.allows (K.after s past) e.1 := by
  induction past generalizing s with
  | nil => simp [Accepts, after]
  | cons d past ih =>
      rw [List.cons_append, Accepts, Accepts, ih, and_assoc]
      rfl

/-- The rule for whole runs: in honest surroundings every call is allowed, and the end
of the run is as the weakest precondition says. -/
theorem run_of_wp {s : σ} {env : Environment R} (henv : K.Honest s env) {p : Program R α}
    {past : List (Event R)} (hpast : K.Accepts s past) (h : K.wp p (K.after s past) Q) :
    K.Accepts s (run env p past).1 ∧
      K.Ends Q (K.after s (run env p past).1) (run env p past).2 := by
  induction p generalizing past with
  | done a => exact ⟨hpast, h⟩
  | call c next ih =>
      obtain ⟨hallowed, hnext⟩ := h
      rw [run]
      cases hanswer : env past c with
      | none => exact ⟨hpast, hallowed⟩
      | some r =>
          refine ih r ((accepts_append s past ⟨c, r⟩).mpr ⟨hpast, hallowed⟩) ?_
          rw [after_append]
          exact hnext r (henv past c r hanswer)

/-- An allowed history allows each of its calls where it is made. -/
theorem allows_of_accepts {s : σ} {past rest : List (Event R)} {e : Event R}
    (h : K.Accepts s (past ++ e :: rest)) : K.allows (K.after s past) e.1 := by
  induction past generalizing s with
  | nil => exact h.1
  | cons d past ih => exact ih h.2

/-- The contract which keeps all that has happened and admits every answer. -/
def history (allows : List (Event R) → C → Prop) : Contract R (List (Event R)) where
  allows := allows
  answers _ _ _ := True
  next past c r := past ++ [⟨c, r⟩]

theorem after_history (allows : List (Event R) → C → Prop) (s past : List (Event R)) :
    (history allows).after s past = s ++ past := by
  induction past generalizing s with
  | nil => rw [List.append_nil]; rfl
  | cons e past ih =>
      rw [List.append_cons, ← ih]
      rfl

/-- Each call is allowed by what has happened before it, whatever the answers are. -/
theorem history_of_wp {allows : List (Event R) → C → Prop} {p : Program R α}
    {Q : α → List (Event R) → Prop} (h : (history allows).wp p [] Q) (env : Environment R) :
    (∀ past e rest, (run env p []).1 = past ++ e :: rest → allows past e.1) ∧
      ∀ a, (run env p []).2 = .result a → Q a (run env p []).1 := by
  have henv : (history allows).Honest [] env := fun _ _ _ _ => trivial
  have hnone : (history allows).Accepts [] [] := trivial
  obtain ⟨haccepts, hends⟩ := run_of_wp henv hnone h
  constructor
  · intro past e rest hsplit
    rw [hsplit] at haccepts
    have hallowed := allows_of_accepts haccepts
    rw [after_history, List.nil_append] at hallowed
    exact hallowed
  · intro a ha
    rw [ha, after_history, List.nil_append] at hends
    exact hends

end Contract

end

end MicrokernelBenchmark.CallTrees
