import MicrokernelBenchmark.WorkerPool
import Mathlib.Algebra.Group.Action.Defs
import Mathlib.Algebra.Order.BigOperators.Group.Finset

/-!
# The arrays and the end of a pool

No step uses or frees an array before it is allocated or after it is freed: the
threads are all joined by then. Once the flag is set, each step takes something
from what is left, and until the program has returned some thread can go on.
-/
namespace MicrokernelBenchmark.WorkerPool
open TransitionSystem

namespace Pool
variable {ε β δ ρ : Type*} {P : Pool ε β δ ρ}

section Arrays
variable {s t : State β δ ρ} {as : List (Action ε)} {i : ℕ}

def slot (P : Pool ε β δ ρ) (i : ℕ) : List (ℕ × ℕ) :=
  if i < P.reported then [(P.slotArray, i)] else []

/-- The elements of arrays which a step reads or writes. -/
def uses (P : Pool ε β δ ρ) : Action ε → State β δ ρ → List (ℕ × ℕ)
  | .main _, s =>
      match s.pc with
      | .create i => if i < P.threads then P.handle i :: P.slot i else []
      | .join i => if i < P.threads then [P.handle i] else []
      | .report i => P.slot i
      | _ => []
  | .thread i (.step _), _ => P.slot i
  | .thread _ (.test _), _ => []

/-- The array which a step frees. -/
def frees (P : Pool ε β δ ρ) : Action ε → State β δ ρ → Option ℕ
  | .main _, s =>
      match s.pc with
      | .free k => if k < P.arrays then some k else none
      | _ => none
  | .thread _ _, _ => none

/-- The elements which the program uses exist. -/
structure InBounds (P : Pool ε β δ ρ) : Prop where
  reported : P.reported ≤ P.threads
  handle : ∀ i < P.threads, (P.handle i).1 < P.arrays ∧ (P.handle i).2 < P.size (P.handle i).1
  slot : ∀ i < P.reported, P.slotArray < P.arrays ∧ i < P.size P.slotArray

theorem InBounds.handle_mem (hP : P.InBounds) (hi : i < P.threads) :
    (P.handle i).1 ∈ Finset.range P.arrays ∧ (P.handle i).2 < P.size (P.handle i).1 :=
  ⟨Finset.mem_range.mpr (hP.handle i hi).1, (hP.handle i hi).2⟩

theorem InBounds.slot_mem (hP : P.InBounds) {x : ℕ × ℕ} (hx : x ∈ P.slot i) :
    x.1 ∈ Finset.range P.arrays ∧ x.2 < P.size x.1 := by
  obtain ⟨hi, hx⟩ := List.mem_ite_nil_right.mp hx
  rw [List.mem_singleton.mp hx]
  exact ⟨Finset.mem_range.mpr (hP.slot i hi).1, (hP.slot i hi).2⟩

theorem InBounds.uses_mem (hP : P.InBounds) {a : Action ε} {x : ℕ × ℕ} (hx : x ∈ P.uses a s) :
    x.1 ∈ Finset.range P.arrays ∧ x.2 < P.size x.1 := by
  cases a with
  | main o =>
      rw [uses] at hx
      cases hpc : s.pc with
      | create i =>
          rw [hpc] at hx
          obtain ⟨hi, hx⟩ := List.mem_ite_nil_right.mp hx
          rcases List.mem_cons.mp hx with rfl | hx
          · exact hP.handle_mem hi
          · exact hP.slot_mem hx
      | join i =>
          rw [hpc] at hx
          obtain ⟨hi, hx⟩ := List.mem_ite_nil_right.mp hx
          rw [List.mem_singleton.mp hx]
          exact hP.handle_mem hi
      | report i =>
          rw [hpc] at hx
          exact hP.slot_mem hx
      | _ =>
          rw [hpc] at hx
          cases hx
  | thread i e =>
      cases e with
      | test seen => cases hx
      | step e => exact hP.slot_mem hx

/-- A thread steps only while all arrays are there. -/
theorem ThreadMove.live {e : Event ε} (hmove : ThreadMove P s i e t) (h : Holds P s.pc s) :
    s.live = Finset.range P.arrays := by
  obtain ⟨⟨habsent, hended⟩, -⟩ := Loop.tick_started hmove.tick
  have hcreated : i < P.created s.pc := by
    by_contra hle
    exact habsent ((h.absent i).mpr (not_lt.mp hle))
  have hjoined : ¬ i < P.joined s.pc := fun hi => hended (h.joined i hi)
  have hlive := h.live
  cases hpc : s.pc with
  | create k | sleep | raise | join k =>
      rw [hpc] at hlive
      exact hlive
  | setup k | malloc k | exitFailure =>
      rw [hpc] at hcreated
      exact absurd hcreated (Nat.not_lt_zero i)
  | report k | free k | returned =>
      rw [hpc] at hcreated hjoined
      exact absurd hcreated hjoined

theorem Holds.live_of_uses [DecidableEq β] (h : Holds P s.pc s) {a : Action ε} {x : ℕ × ℕ}
    (ht : P.tick a s = some t) (hx : x ∈ P.uses a s) : s.live = Finset.range P.arrays := by
  cases a with
  | main o =>
      have hlive := h.live
      rw [uses] at hx
      cases hpc : s.pc with
      | create i | join i | report i =>
          rw [hpc] at hlive
          exact hlive
      | _ =>
          rw [hpc] at hx
          cases hx
  | thread i e => exact (tick_thread_move ht).live h

theorem Holds.mem_live_of_frees (h : Holds P s.pc s) {a : Action ε} {k : ℕ}
    (hk : k ∈ P.frees a s) : k ∈ s.live := by
  cases a with
  | main o =>
      have hlive := h.live
      rw [frees] at hk
      cases hpc : s.pc with
      | free j =>
          rw [hpc] at hlive hk
          obtain ⟨hj, hjk⟩ := Option.ite_none_right_eq_some.mp hk
          obtain rfl := Option.some.inj hjk
          rw [hlive]
          exact Finset.mem_filter.mpr ⟨Finset.mem_range.mpr hj, le_rfl⟩
      | _ =>
          rw [hpc] at hk
          cases hk
  | thread i e => cases hk

/-- No step uses or frees what is not allocated. -/
theorem uses_live [DecidableEq β] {garbage : ℕ → δ} (hP : P.InBounds) {a : Action ε}
    (h : (P.main garbage).Run as (P.main garbage).init s) (ht : P.tick a s = some t) :
    (∀ x ∈ P.uses a s, x.1 ∈ s.live ∧ x.2 < P.size x.1) ∧ ∀ k ∈ P.frees a s, k ∈ s.live := by
  have hrunning : s.pc ≠ .exitFailure := by
    intro hpc
    rw [tick_exitFailure hpc] at ht
    cases ht
  have hholds := holds_of_run hP.reported h hrunning
  refine ⟨fun x hx => ?_, fun k hk => hholds.mem_live_of_frees hk⟩
  rw [hholds.live_of_uses ht hx]
  exact hP.uses_mem hx

end Arrays

section Shutdown
variable {s t : State β δ ρ} {as : List (Action ε)} {i : ℕ}

/-- The steps of the main thread once the flag is set. -/
def mainLeft (P : Pool ε β δ ρ) : Pc → ℕ
  | .join i => P.threads - i + P.reported + P.arrays + 3
  | .report i => P.reported - i + P.arrays + 2
  | .free k => P.arrays - k + 1
  | _ => 0

/-- The steps of all threads once the flag is set. -/
def left (P : Pool ε β δ ρ) (passLeft : ℕ → β → ℕ) (s : State β δ ρ) : ℕ :=
  P.mainLeft s.pc + ∑ i ∈ Finset.range P.threads, (s.threads i).left (passLeft i)

theorem left_le (passLeft : ℕ → β → ℕ) {b : ℕ} (hb : ∀ i p, passLeft i p ≤ b)
    (s : State β δ ρ) :
    P.left passLeft s ≤ P.threads * (b + 2) + P.threads + P.reported + P.arrays + 3 := by
  have hthread : ∀ i ∈ Finset.range P.threads, (s.threads i).left (passLeft i) ≤ b + 2 := by
    intro i _
    cases s.threads i with
    | absent | test | ended =>
        simp only [Thread.left]
        omega
    | pass p => exact Nat.add_le_add_right (hb i p) 2
  have hsum := Finset.sum_le_sum hthread
  rw [Finset.sum_const, Finset.card_range, smul_eq_mul] at hsum
  have hmain : P.mainLeft s.pc ≤ P.threads + P.reported + P.arrays + 3 := by
    cases s.pc <;> simp only [mainLeft] <;> omega
  rw [left]
  omega

theorem MainMove.lt (hmove : MainMove P s t) (h : Holds P s.pc s) (hstop : s.stop = true) :
    P.mainLeft t.pc < P.mainLeft s.pc ∧ t.threads = s.threads ∧ t.pc.raised = true := by
  have hraised : s.pc.raised = true := h.stop ▸ hstop
  have hrange := h.inRange
  cases hmove with
  | exit hpc => exact absurd hraised (hpc ▸ Bool.false_ne_true)
  | join i hpc hi hended =>
      refine ⟨?_, rfl, rfl⟩
      rw [hpc]
      simp only [mainLeft]
      omega
  | joinDone i hpc hi | report i hpc hi | reportDone i hpc hi | free i hpc hi
  | freeDone i hpc hi =>
      refine ⟨?_, rfl, rfl⟩
      rw [hpc]
      simp only [mainLeft]
      omega
  | setup k hpc | setupDone k hpc | malloc k hpc | mallocFails k hpc | mallocDone k hpc
  | create k hpc | createDone k hpc | sleep hpc | raise hpc =>
      rw [hpc] at hraised
      cases hraised

theorem Holds.lt_threads (h : Holds P s.pc s) (hstop : s.stop = true)
    (hi : s.threads i ≠ .absent) : i < P.threads := by
  have hraised : s.pc.raised = true := h.stop ▸ hstop
  have hcreated : P.created s.pc = P.threads := by
    cases hpc : s.pc with
    | setup k | malloc k | create k | sleep | raise | exitFailure =>
        rw [hpc] at hraised
        cases hraised
    | _ => rfl
  by_contra hle
  exact hi ((h.absent i).mpr (hcreated ▸ not_lt.mp hle))

variable [DecidableEq β] {passLeft : ℕ → β → ℕ}

theorem Holds.step_lt (hL : ∀ i, (P.loop i).Terminating (passLeft i)) (h : Holds P s.pc s)
    (hstop : s.stop = true) {a : Action ε} (ht : P.tick a s = some t) :
    P.left passLeft t < P.left passLeft s := by
  rw [left, left]
  cases a with
  | main o =>
      obtain ⟨hlt, hthreads, -⟩ := (tick_main_move ht).lt h hstop
      rw [hthreads]
      exact Nat.add_lt_add_right hlt _
  | thread i e =>
      have hmove := tick_thread_move ht
      have hi := h.lt_threads hstop (Loop.tick_started hmove.tick).1.1
      have hagrees := hmove.agrees
      rw [hstop] at hagrees
      have hlt := (hL i).tick_lt hmove.tick hagrees
      rw [hmove.rest.1]
      apply Nat.add_lt_add_left
      apply Finset.sum_lt_sum
      · intro j _
        by_cases hj : j = i
        · subst hj
          exact hlt.le
        · rw [(hmove.others j hj).1]
      · exact ⟨i, Finset.mem_range.mpr hi, hlt⟩

theorem stop_of_tick {a : Action ε} (ht : P.tick a s = some t) (hstop : s.stop = true) :
    t.stop = true := by
  cases a with
  | main o =>
      cases tick_main_move ht with
      | raise hpc => rfl
      | _ => exact hstop
  | thread i e => exact (tick_thread_move ht).rest.2.1.trans hstop

/-- While the program has not ended, some call which does not fail or some thread can go on. -/
theorem Holds.enabled (hL : ∀ i, (P.loop i).Terminating (passLeft i)) (h : Holds P s.pc s)
    (hs : s.pc ≠ .returned) (hs' : s.pc ≠ .exitFailure) :
    ∃ a : Action ε, a ≠ .main .failure ∧ (P.tick a s).isSome := by
  have hmain : (P.mainSuccess s).isSome → ∃ a : Action ε, a ≠ .main .failure ∧
      (P.tick a s).isSome := fun hsome => ⟨.main .success, nofun, hsome⟩
  cases hpc : s.pc with
  | join i =>
      by_cases hwait : i < P.threads ∧ s.threads i ≠ .ended
      · have hcreated : s.threads i ≠ .absent := by
          rw [Ne, h.absent i, hpc]
          exact not_le.mpr hwait.1
        obtain ⟨e, hagrees, he⟩ := (hL i).exists_tick (p := (s.threads i, s.slots i)) s.stop
          ⟨hcreated, hwait.2⟩
        refine ⟨.thread i e, nofun, ?_⟩
        rw [tick, if_neg (not_or.mpr ⟨hs, hs'⟩), if_pos hagrees, Option.isSome_map]
        exact he
      · apply hmain
        simp only [mainSuccess, hpc]
        split
        case isTrue hi =>
          rw [if_pos (not_not.mp fun hended => hwait ⟨hi, hended⟩)]
          rfl
        case isFalse => rfl
  | returned => exact absurd hpc hs
  | exitFailure => exact absurd hpc hs'
  | setup k | sleep | raise =>
      apply hmain
      rw [mainSuccess, hpc]
      rfl
  | malloc k | create k | report k | free k =>
      apply hmain
      simp only [mainSuccess, hpc]
      split <;> rfl

theorem holds_of_stop {garbage : ℕ → δ} (hP : P.reported ≤ P.threads)
    (h : (P.main garbage).Run as (P.main garbage).init s) (hstop : s.stop = true) :
    Holds P s.pc s ∧ s.pc ≠ .exitFailure := by
  have hcases := history (Q := fun _ _ => True) hP h trivial fun _ _ _ _ _ _ _ _ => trivial
  rcases hcases with ⟨-, hfalse⟩ | ⟨hholds, -⟩
  · rw [hstop] at hfalse
    cases hfalse
  · refine ⟨hholds, fun hexit => ?_⟩
    have hraised := hholds.stop
    rw [hexit, hstop] at hraised
    cases hraised

/-- Once the flag is set, every run gets to the end in a bounded number of steps. -/
theorem shutdown {garbage : ℕ → δ} (passLeft : ℕ → β → ℕ) (hP : P.reported ≤ P.threads)
    (hL : ∀ i, (P.loop i).Terminating (passLeft i))
    (h : (P.main garbage).Run as (P.main garbage).init s) (hstop : s.stop = true)
    {bs : List (Action ε)} (hrun : (P.main garbage).Run bs s t) :
    bs.length + P.left passLeft t ≤ P.left passLeft s ∧
    (t.pc = .returned ∨ ∃ a : Action ε, a ≠ .main .failure ∧ (P.tick a t).isSome) := by
  have hbound := hrun.length_add_le
    (I := fun u => ∃ cs, (P.main garbage).Run cs (P.main garbage).init u ∧ u.stop = true)
    (fun _ => True) (P.left passLeft) (fun _ _ => trivial) ⟨as, h, hstop⟩ ?_
  · have hrun' := h.append hrun
    have hstop' : t.stop = true := hrun.invariant (I := fun u => u.stop = true) (fun _ => True)
      (fun _ _ => trivial) hstop fun _ _ _ _ hu htick => stop_of_tick htick hu
    obtain ⟨hholds, hexit⟩ := holds_of_stop hP hrun' hstop'
    refine ⟨hbound, ?_⟩
    by_cases hpc : t.pc = .returned
    · exact .inl hpc
    · exact .inr (hholds.enabled hL hpc hexit)
  · rintro a u v - ⟨cs, hcs, hu⟩ htick
    obtain ⟨hholds, -⟩ := holds_of_stop hP hcs hu
    exact ⟨⟨cs ++ [a], System.run_snoc.mpr ⟨u, hcs, htick⟩, stop_of_tick htick hu⟩,
      hholds.step_lt hL hu htick⟩

/-- What a thread still does once the flag is set, bounded by what its place allows. -/
theorem countP_events_le {garbage : ℕ → δ} (hP : P.reported ≤ P.threads)
    (h : (P.main garbage).Run as (P.main garbage).init s) (hstop : s.stop = true)
    {bs : List (Action ε)} (hrun : (P.main garbage).Run bs s t) (i : ℕ) (counts : Event ε → Bool)
    (allows : Thread β → ℕ)
    (step : ∀ e p q, (P.loop i).tick e p = some q → e.agrees true = true →
      [e].countP counts + allows q.1 ≤ allows p.1) :
    (events i bs).countP counts + allows (t.threads i) ≤ allows (s.threads i) := by
  have hboth := hrun.history (P := fun bs u =>
    (∃ cs, (P.main garbage).Run cs (P.main garbage).init u ∧ u.stop = true) ∧
    (events i bs).countP counts + allows (u.threads i) ≤ allows (s.threads i))
    ⟨⟨as, h, hstop⟩, (Nat.zero_add _).le⟩ ?_
  · exact hboth.2
  · rintro bs a u v ⟨⟨cs, hcs, hu⟩, hle⟩ htick
    refine ⟨⟨cs ++ [a], System.run_snoc.mpr ⟨u, hcs, htick⟩, stop_of_tick htick hu⟩, ?_⟩
    obtain ⟨hholds, -⟩ := holds_of_stop hP hcs hu
    cases a with
    | main o =>
        rw [events_append, events_main, List.append_nil,
          ((tick_main_move htick).lt hholds hu).2.1]
        exact hle
    | thread j e =>
        have hmove := tick_thread_move htick
        by_cases hj : j = i
        · subst hj
          have hagrees := hmove.agrees
          rw [hu] at hagrees
          have hstep := step e _ _ hmove.tick hagrees
          dsimp only at hstep
          rw [events_append, events_thread_self, List.countP_append]
          omega
        · rw [events_append, events_thread_of_ne hj, List.append_nil,
            (hmove.others i (Ne.symm hj)).1]
          exact hle

end Shutdown

end Pool
end MicrokernelBenchmark.WorkerPool
