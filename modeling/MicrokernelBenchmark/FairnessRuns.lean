import MicrokernelBenchmark.FairnessCollection

/-!
# Complete runs of the fairness tests

The value with which the loop of a child has ended is the one that it writes and the
parent reports. A run goes on until the parent has all counters, whichever values the
loops end with, since every step takes something from a measure.
-/
namespace MicrokernelBenchmark.ProcessFairness
open TransitionSystem

variable {capacity : ℕ}

section Readers
variable {n i : ℕ} {s : State capacity}

theorem ParentPc.forked_le_piped (pc : ParentPc) (n : ℕ) : pc.forked n ≤ pc.piped n := by
  cases pc with
  | fork i => exact Nat.le_succ i
  | _ => exact le_rfl

theorem ParentPc.holdsRead_of_waiting {pc : ParentPc} (h : pc.waited n ≠ n) (k : ℕ) :
    pc.holdsRead k := by
  cases pc with
  | pipe | fork | closeWrite | wait => rfl
  | read | closeRead | done | failed => exact absurd rfl h

theorem Ends.lt_forked (h : Ends n s) (halive : (s.children i).alive) :
    i < s.parent.forked n := by
  by_contra hle
  exact (ChildPc.ne_of_alive halive).1 ((h.absent i).mpr (not_lt.mp hle))

theorem Ends.lt_of_alive (h : Ends n s) (halive : (s.children i).alive) : i < n :=
  (h.lt_forked halive).trans_le (ParentPc.forked_le h.inRange)

/-- While a child is alive, the parent can read from its pipe. -/
theorem Ends.reader (h : Ends n s) (halive : (s.children i).alive) :
    .parent ∈ (s.pipes i).readers := by
  have hpiped : i < s.parent.piped n :=
    (h.lt_forked halive).trans_le (s.parent.forked_le_piped n)
  exact h.readers i hpiped (ParentPc.holdsRead_of_waiting (h.waiting halive) i)

end Readers

section Records

/-- A child whose loop has not ended. -/
def ChildPc.early : ChildPc → Bool
  | .absent | .closeRead | .loop => true
  | _ => false

/-- The counters of the children are those with which their loops have ended. -/
structure Recorded (as : List Action) (s : State capacity) : Prop where
  early : ∀ i, (s.children i).early → ∀ c, .breaks i c ∉ as
  broke : ∀ i c, s.children i = .write c ∨ s.wrote i = some c →
    ∀ c', .breaks i c' ∈ as ↔ c' = c
  written : (∀ a ∈ as, ¬ a.faulty) → ∀ i, (s.children i).finished → ∃ c, s.wrote i = some c

variable {n i : ℕ} {s t : State capacity} {a : Action} {as : List Action}

theorem recorded_init : Recorded [] ({} : State capacity) where
  early _ _ _ := List.not_mem_nil
  broke _ _ h := by
    rcases h with h | h
    · cases h
    · cases h
  written _ _ h := nomatch h

/-- A step which ends no loop. -/
theorem Recorded.step (h : Recorded as s) (hlabel : ∀ k c, a ≠ .breaks k c)
    (hearly : ∀ k, (t.children k).early → (s.children k).early)
    (hbroke : ∀ k c, t.children k = .write c ∨ t.wrote k = some c →
      s.children k = .write c ∨ s.wrote k = some c)
    (hwritten : ¬ a.faulty → ∀ k, (t.children k).finished →
      (s.children k).finished ∧ t.wrote k = s.wrote k ∨ ∃ c, t.wrote k = some c) :
    Recorded (as ++ [a]) t := by
  have hmem : ∀ k c, .breaks k c ∈ as ++ [a] ↔ .breaks k c ∈ as := by
    intro k c
    rw [List.mem_append, List.mem_singleton]
    exact or_iff_left (Ne.symm (hlabel k c))
  refine ⟨fun k hk c => ?_, fun k c hc c' => ?_, fun hsound k hk => ?_⟩
  · rw [hmem]
    exact h.early k (hearly k hk) c
  · rw [hmem]
    exact h.broke k c (hbroke k c hc) c'
  · have hold : ∀ b ∈ as, ¬ b.faulty := fun b hb => hsound b (List.mem_append_left _ hb)
    rcases hwritten (hsound a (by simp)) k hk with ⟨hfinished, heq⟩ | hnew
    · rw [heq]
      exact h.written hold k hfinished
    · exact hnew

/-- One child moves on without ending its loop or writing. -/
theorem Recorded.setChild (h : Recorded as s) {c : ChildPc} (f : ℕ → Channel capacity)
    (pc : ParentPc) (hlabel : ∀ k c, a ≠ .breaks k c)
    (hearly : c.early → (s.children i).early) (hwrite : ∀ x, c ≠ .write x)
    (hfinished : ¬ a.faulty → c.finished → (s.children i).finished) :
    Recorded (as ++ [a]) { s.setChild i c with pipes := f, parent := pc } := by
  refine h.step hlabel (fun k hk => ?_) (fun k x hx => ?_) fun hsound k hk => .inl ⟨?_, rfl⟩
  · exact of_setChild (P := fun c => c.early) hearly hk
  · exact hx.imp_left (of_setChild (P := (· = .write x)) fun heq => absurd heq (hwrite x))
  · exact of_setChild (P := fun c => c.finished) (hfinished hsound) hk

theorem Recorded.breaks (h : Recorded as s) (c : UInt64) (hc : s.children i = .loop)
    (hnone : s.wrote i = none) :
    Recorded (as ++ [.breaks i c]) (s.setChild i (.write c)) := by
  have hnew : ∀ x, .breaks i x ∉ as := h.early i (by rw [hc]; rfl)
  have hmem : ∀ k x, .breaks k x ∈ as ++ [.breaks i c] ↔
      .breaks k x ∈ as ∨ k = i ∧ x = c := by
    intro k x
    rw [List.mem_append, List.mem_singleton, Action.breaks.injEq]
  refine ⟨fun k hk x => ?_, fun k x hx x' => ?_, fun hsound k hk => ?_⟩
  · rw [setChild_children] at hk
    split at hk
    case isTrue => cases hk
    case isFalse hki =>
      rw [hmem]
      exact fun hx => hx.elim (h.early k hk x) fun heq => hki heq.1
  · rw [hmem]
    by_cases hki : k = i
    · subst hki
      rw [setChild_children, if_pos rfl, ChildPc.write.injEq] at hx
      have hxc : c = x := hx.resolve_right fun hwrote => by
        rw [State.setChild, hnone] at hwrote
        cases hwrote
      rw [hxc, or_iff_right (hnew x'), and_iff_right rfl]
    · rw [setChild_children, if_neg hki] at hx
      rw [h.broke k x hx x', or_iff_left fun heq => hki heq.1]
  · have hfinished := of_setChild (P := fun c => c.finished) (c := .write c) nofun hk
    exact h.written (fun b hb => hsound b (List.mem_append_left _ hb)) k hfinished

theorem Recorded.write (h : Recorded as s) {c : UInt64} (p : Channel capacity)
    (hc : s.children i = .write c) :
    Recorded (as ++ [.call (.child i) .success]) { (s.setPipe i p).setChild i .close with
      wrote := Function.update s.wrote i (some c) } := by
  refine h.step nofun (fun k hk => ?_) (fun k x hx => ?_) fun hsound k hk => ?_
  · exact of_setChild (P := fun c => c.early) (c := .close) nofun hk
  · rcases hx with hx | hx
    · exact .inl (of_setChild (P := (· = .write x)) (c := .close) nofun hx)
    · have hwrote : Function.update s.wrote i (some c) k = some x := hx
      rw [Function.update_apply] at hwrote
      split at hwrote
      case isTrue hki => exact .inl (hki ▸ Option.some.inj hwrote ▸ hc)
      case isFalse => exact .inr hwrote
  · by_cases hki : k = i
    · subst hki
      exact .inr ⟨c, Function.update_self _ _ _⟩
    · rw [setChild_children, if_neg hki] at hk
      exact .inl ⟨hk, Function.update_of_ne hki _ _⟩

theorem Recorded.childMove (h : Recorded as s) (hinv : Invariant n s) (hmove : ChildMove s i a t) :
    Recorded (as ++ [a]) t := by
  cases hmove with
  | closeRead hc =>
      exact h.setChild (c := .loop) _ s.parent nofun (fun _ => by rw [hc]; rfl) nofun nofun
  | breaks c hc => exact h.breaks c hc (hinv.contents.fresh i (by rw [hc]; rfl))
  | write c p hc => exact h.write p hc
  | writeFails =>
      exact h.setChild (c := .close) _ s.parent nofun nofun nofun
        fun hsound _ => absurd rfl hsound
  | close hc =>
      exact h.setChild (c := .exit) _ s.parent nofun nofun nofun fun _ _ => by rw [hc]; rfl
  | exit hc =>
      exact h.setChild (c := .exited) _ s.parent nofun nofun nofun fun _ _ => by rw [hc]; rfl
  | sigpipe c hc hreaders =>
      have hreader := hinv.ends.reader (i := i) (by rw [hc]; rfl)
      rw [hreaders] at hreader
      exact absurd hreader (Finset.notMem_empty _)
  | crash a hfaulty =>
      refine h.setChild (c := .exited) _ s.parent ?_ nofun nofun
        fun hsound _ => absurd hfaulty hsound
      rintro k c rfl
      cases hfaulty

theorem Recorded.move (h : Recorded as s) (hinv : Invariant n s) (hmove : Move n s a t)
    (hgoes : t.parent ≠ .failed) : Recorded (as ++ [a]) t := by
  cases hmove with
  | parent o t hmove =>
      cases hmove with
      | fork i hp =>
          have hnew : s.children i = .absent :=
            (hinv.ends.absent i).mpr (by rw [hp]; exact le_rfl)
          exact h.setChild (c := .closeRead) _ _ nofun (fun _ => by rw [hnew]; rfl) nofun nofun
      | _ => exact h.step nofun (fun _ => id) (fun _ _ => id) fun _ k hk => .inl ⟨hk, rfl⟩
  | failed t ht => exact absurd ht hgoes
  | child i a t hmove => exact h.childMove hinv hmove
  | reap i j hp hj hi =>
      exact h.setChild (c := .reaped) s.pipes _ nofun nofun nofun fun _ _ => by rw [hi]; rfl

theorem recorded_run {clockChecked : Bool}
    (h : (system capacity clockChecked n).Run as (system capacity clockChecked n).init s) :
    s.parent = .failed ∨ Invariant n s ∧ Recorded as s :=
  invariant_history h recorded_init fun _ _ _ _ hinv hinv' hmove hrecorded =>
    hrecorded.move hinv hmove hinv'.running

end Records

section Progress

def ChildPc.left : ChildPc → ℕ
  | .absent => 7
  | .closeRead => 6
  | .loop => 5
  | .write _ => 4
  | .close => 3
  | .exit => 2
  | .exited => 1
  | .reaped => 0

def ParentPc.left (n : ℕ) : ParentPc → ℕ
  | .pipe i => 2 * (n - i) + 4 * n + 4
  | .fork i => 2 * (n - i) + 4 * n + 3
  | .closeWrite i => (n - i) + 3 * n + 3
  | .wait i => (n - i) + 2 * n + 2
  | .read i => 2 * (n - i) + 1
  | .closeRead i => 2 * (n - i)
  | .done | .failed => 0

/-- What is left to do, by the parent and by its children. -/
def State.left (n : ℕ) (s : State capacity) : ℕ :=
  s.parent.left n + ∑ i ∈ Finset.range n, (s.children i).left

variable {n i : ℕ} {s t : State capacity} {a : Action}

theorem ParentMove.left (h : ParentMove n s t) (hinv : Ends n s) :
    t.parent.left n < s.parent.left n ∧ ∀ k, (t.children k).left ≤ (s.children k).left := by
  have hrange := hinv.inRange
  cases h with
  | fork i hp =>
      rw [hp] at hrange
      have hi : i < n := hrange
      refine ⟨by simp only [hp, ParentPc.left]; omega, fun k => ?_⟩
      have hnew : s.children i = .absent := (hinv.absent i).mpr (by rw [hp]; exact le_rfl)
      have hleft : ((s.setChild i .closeRead).children k).left ≤ (s.children k).left := by
        rw [setChild_children]
        split
        case isTrue hki =>
          rw [hki, hnew]
          decide
        case isFalse => exact le_rfl
      exact hleft
  | closeRead i hp =>
      rw [hp] at hrange
      have hi : i < n := hrange
      exact ⟨by simp only [hp, ParentPc.left]; omega, fun _ => le_rfl⟩
  | collected i hp hi => exact ⟨by simp only [State.exitParent, hp, ParentPc.left]; omega,
      fun _ => le_rfl⟩
  | pipe i hp | forked i hp | closeWrite i hp | closed i hp | noChild i hp | waited i hp
  | readNone i hp | read i buf p hp =>
      exact ⟨by simp only [hp, ParentPc.left]; omega, fun _ => le_rfl⟩

theorem ChildMove.left (h : ChildMove s i a t) :
    ∃ c : ChildPc, t.children = (s.setChild i c).children ∧ c.left < (s.children i).left := by
  cases h with
  | closeRead hc => exact ⟨.loop, rfl, by rw [hc]; decide⟩
  | breaks c hc => exact ⟨.write c, rfl, by rw [hc]; exact Nat.lt_succ_self 4⟩
  | write c p hc => exact ⟨.close, rfl, by rw [hc]; exact Nat.lt_succ_self 3⟩
  | writeFails c hc => exact ⟨.close, rfl, by rw [hc]; exact Nat.lt_succ_self 3⟩
  | close hc => exact ⟨.exit, rfl, by rw [hc]; decide⟩
  | exit hc => exact ⟨.exited, rfl, by rw [hc]; decide⟩
  | sigpipe c hc => exact ⟨.exited, rfl, by rw [hc]; exact Nat.lt_of_sub_eq_succ rfl⟩
  | crash a hfaulty halive =>
      refine ⟨.exited, rfl, ?_⟩
      revert halive
      cases s.children i with
      | absent | exited | reaped => exact nofun
      | _ => exact fun _ => by simp [ChildPc.left]

/-- A child with less to do lowers the sum. -/
theorem sum_left_setChild {c : ChildPc} (hi : i < n) (hc : c.left < (s.children i).left) :
    ∑ k ∈ Finset.range n, ((s.setChild i c).children k).left <
      ∑ k ∈ Finset.range n, (s.children k).left := by
  apply Finset.sum_lt_sum
  · intro k _
    rw [setChild_children]
    split
    case isTrue hki => exact hki ▸ hc.le
    case isFalse => exact le_rfl
  · refine ⟨i, Finset.mem_range.mpr hi, ?_⟩
    rwa [setChild_children, if_pos rfl]

/-- Every step but a failure of the parent takes something from what is left. -/
theorem Move.left (h : Move n s a t) (hinv : Ends n s) (hgoes : t.parent ≠ .failed) :
    t.left n < s.left n := by
  rw [State.left, State.left]
  cases h with
  | parent o t hmove =>
      obtain ⟨hparent, hchildren⟩ := hmove.left hinv
      exact Nat.add_lt_add_of_lt_of_le hparent (Finset.sum_le_sum fun k _ => hchildren k)
  | failed t ht => exact absurd ht hgoes
  | child i a t hmove =>
      obtain ⟨c, hchildren, hc⟩ := hmove.left
      rw [hmove.childStep.parent, hchildren]
      exact Nat.add_lt_add_left (sum_left_setChild (hinv.lt_of_alive hmove.alive) hc) _
  | reap i j hp hj hi =>
      have hin : i < n := by
        by_contra hle
        have habsent := (hinv.absent i).mpr ((ParentPc.forked_le hinv.inRange).trans
          (not_lt.mp hle))
        rw [hi] at habsent
        cases habsent
      have hsum := sum_left_setChild (c := .reaped) hin (by rw [hi]; decide)
      have hparent : ParentPc.left n (.wait (j + 1)) < s.parent.left n := by
        simp only [hp, ParentPc.left]
        omega
      exact Nat.add_lt_add hparent hsum

theorem left_init (n : ℕ) : ({} : State capacity).left n = 13 * n + 4 := by
  have hsum : ∑ _i ∈ Finset.range n, ChildPc.absent.left = 7 * n := by
    rw [Finset.sum_const, Finset.card_range, smul_eq_mul, Nat.mul_comm]
    rfl
  calc ({} : State capacity).left n
      = 2 * (n - 0) + 4 * n + 4 + ∑ _i ∈ Finset.range n, ChildPc.absent.left := rfl
    _ = 13 * n + 4 := by
      rw [hsum]
      omega

theorem length_run_le {clockChecked : Bool} {as : List Action}
    (h : (system capacity clockChecked n).Run as (system capacity clockChecked n).init s) :
    s.parent = .failed ∨ Invariant n s ∧ as.length + s.left n ≤ 13 * n + 4 := by
  refine invariant_history (P := fun as s => as.length + s.left n ≤ 13 * n + 4) h ?_ ?_
  · rw [left_init, List.length_nil, Nat.zero_add]
  · intro as a s t hinv hinv' hmove hle
    have hlt := hmove.left hinv.ends hinv'.running
    rw [List.length_append, List.length_singleton]
    omega

/-- A label of a run without a fault, in which the loop of child `i` ends with `v i`. -/
def Action.Follows (v : ℕ → UInt64) (a : Action) : Prop :=
  a.faulty = false ∧ ∀ i c, a = .breaks i c → c = v i

variable {clockChecked : Bool} {v : ℕ → UInt64}

theorem Invariant.child_enabled (h : Invariant n s) (hcapacity : 20 ≤ capacity)
    (halive : (s.children i).alive) (v : ℕ → UInt64) :
    ∃ a, Action.Follows v a ∧ (tick clockChecked n s a).isSome := by
  have hcall : (childSuccess s i).isSome →
      ∃ a, Action.Follows v a ∧ (tick clockChecked n s a).isSome :=
    fun hsome => ⟨.call (.child i) .success, ⟨rfl, nofun⟩, hsome⟩
  cases hc : s.children i with
  | absent | exited | reaped =>
      rw [hc] at halive
      cases halive
  | closeRead | close | exit =>
      apply hcall
      rw [childSuccess, hc]
      rfl
  | loop =>
      refine ⟨.breaks i (v i), ⟨rfl, ?_⟩, ?_⟩
      · rintro j c hlabel
        obtain ⟨rfl, rfl⟩ := Action.breaks.inj hlabel
        rfl
      · rw [tick, if_pos hc]
        rfl
  | write c =>
      obtain ⟨hunread, -⟩ := ParentPc.unread_of_waiting (h.ends.waiting halive)
      have hempty := h.contents.empty (hunread i) (h.ends.lt_of_alive halive) (by rw [hc]; rfl)
      have hroom : (s.pipes i).buffer.items.length + (text c).length ≤ capacity := by
        rw [hempty, List.length_nil, Nat.zero_add]
        exact (length_text_le c).trans hcapacity
      obtain ⟨p, hwrite⟩ :=
        Pipe.exists_writeAll (Finset.ne_empty_of_mem (h.ends.reader halive)) hroom
      apply hcall
      rw [childSuccess, hc]
      dsimp only
      rw [message_eq, Option.bind_some, hwrite]
      rfl

/-- While fewer children have been waited for than forked, one is alive or can be reaped. -/
theorem Ends.left_over (h : Ends n s) (hp : s.parent = .wait i) (hi : i < n) :
    ∃ k, (s.children k).alive ∨ s.children k = .exited := by
  have hcard := h.reaped
  have hnot : ¬ ∀ k ∈ Finset.range n, s.children k = .reaped := by
    intro hall
    rw [Finset.filter_true_of_mem hall, Finset.card_range, hp] at hcard
    exact absurd hi (hcard ▸ lt_irrefl n)
  push Not at hnot
  obtain ⟨k, hk, hreaped⟩ := hnot
  have habsent : s.children k ≠ .absent := by
    intro habsent
    have hle := (h.absent k).mp habsent
    rw [hp] at hle
    exact absurd (Finset.mem_range.mp hk) (not_lt.mpr hle)
  refine ⟨k, ?_⟩
  cases hc : s.children k with
  | absent => exact absurd hc habsent
  | exited => exact .inr rfl
  | reaped => exact absurd hc hreaped
  | _ => exact .inl rfl

/-- When the parent reads, no write end is left. -/
theorem Ends.readUpTo_ne_blocked (h : Ends n s) (hp : s.parent = .read i) (hi : i < n) :
    (s.pipes i).readUpTo (bufferSize - 1) ≠ .blocked := by
  have hwriters : (s.pipes i).writers = ∅ := by
    rw [Finset.eq_empty_iff_forall_notMem]
    intro q hq
    rcases h.writers i (by rw [hp]; exact hi) q hq with ⟨-, hholds⟩ | ⟨k, -, halive⟩
    · rw [hp] at hholds
      cases hholds
    · rw [h.dead (by rw [hp]; rfl) k] at halive
      cases halive
  exact Pipe.readUpTo_ne_blocked hwriters (bufferSize - 1)

theorem Invariant.enabled (h : Invariant n s) (hcapacity : 20 ≤ capacity)
    (hdone : s.parent ≠ .done) (v : ℕ → UInt64) :
    ∃ a, Action.Follows v a ∧ (tick clockChecked n s a).isSome := by
  have hcall : (parentSuccess n s).isSome →
      ∃ a, Action.Follows v a ∧ (tick clockChecked n s a).isSome :=
    fun hsome => ⟨.call .parent .success, ⟨rfl, nofun⟩, hsome⟩
  cases hp : s.parent with
  | pipe i | closeWrite i =>
      apply hcall
      rw [parentSuccess, hp]
      dsimp only
      split <;> rfl
  | fork i | closeRead i =>
      apply hcall
      rw [parentSuccess, hp]
      rfl
  | wait i =>
      by_cases hi : i < n
      · obtain ⟨k, halive | hexited⟩ := h.ends.left_over hp hi
        · exact h.child_enabled hcapacity halive v
        · refine ⟨.reap k, ⟨rfl, nofun⟩, ?_⟩
          rw [tick, hp]
          dsimp only
          rw [if_pos ⟨hi, hexited⟩]
          rfl
      · apply hcall
        rw [parentSuccess, hp]
        dsimp only
        rw [if_neg hi]
        rfl
  | read i =>
      apply hcall
      rw [parentSuccess, hp]
      dsimp only
      split
      case isTrue hi =>
        cases hread : (s.pipes i).readUpTo (bufferSize - 1) with
        | blocked => exact absurd hread (h.ends.readUpTo_ne_blocked hp hi)
        | closed | done r => rfl
      case isFalse => rfl
  | done => exact absurd hp hdone
  | failed => exact absurd hp h.running

/-- Without a fault and with any values, the parent comes to its end. -/
theorem Invariant.completes (h : Invariant n s) (hcapacity : 20 ≤ capacity) (v : ℕ → UInt64) :
    ∃ as t, (∀ a ∈ as, Action.Follows v a) ∧ (system capacity clockChecked n).Run as s t ∧
      t.parent = .done := by
  refine System.exists_run_to (I := Invariant n) (Action.Follows v) (State.left n) ?_ s h
  intro s h hdone
  obtain ⟨a, hfollows, hsome⟩ := h.enabled hcapacity hdone v
  obtain ⟨t, hstep⟩ := Option.isSome_iff_exists.mp hsome
  have hmove := tick_move hstep
  have hinv : Invariant n t := by
    refine (hmove.invariant h).resolve_left ?_
    rintro ⟨rfl, -⟩
    cases hfollows.1
  exact ⟨a, t, hfollows, hstep, hinv, hmove.left h.ends hinv.running⟩

end Progress

/-- What the parent has at its end. -/
structure Collected (n : ℕ) (as : List Action) (s : State capacity) : Prop where
  counts : s.counts = (List.range n).map fun i => (s.wrote i).getD 0
  counter : ∀ i c, s.wrote i = some c → ∀ c', .breaks i c' ∈ as ↔ c' = c
  written : (∀ a ∈ as, ¬ a.faulty) → ∀ i < n, ∃ c, s.wrote i = some c
  describes : Describes (statistics s.counts) s.counts

/-- In every run. No run goes on for ever, the parent can get to its end as long as it has
not given up, and there is a run for every vector of counters. -/
structure Collects (M : System Action (State capacity)) (n : ℕ) : Prop where
  collected : ∀ as s, M.Run as M.init s → s.parent = .done → Collected n as s
  finite : ∀ as s, M.Run as M.init s → s.parent ≠ .failed → as.length ≤ 13 * n + 4
  completes : 20 ≤ capacity → ∀ as s, M.Run as M.init s → s.parent ≠ .failed → ∀ v,
    ∃ bs t, (∀ b ∈ bs, Action.Follows v b) ∧ M.Run bs s t ∧ t.parent = .done
  every : 20 ≤ capacity → ∀ v, ∃ as s, M.Run as M.init s ∧ s.parent = .done ∧
    s.counts = (List.range n).map v

section Runs
variable {clockChecked : Bool} {n : ℕ} {s : State capacity} {as : List Action}

/-- At the end of the parent every child is through with its `write`. -/
theorem Ends.finished (h : Ends n s) (hdone : s.parent = .done) {i : ℕ} (hi : i < n) :
    (s.children i).finished := by
  have hdead := h.dead (by rw [hdone]; rfl) i
  have habsent : s.children i ≠ .absent := by
    intro habsent
    have hle := (h.absent i).mp habsent
    rw [hdone] at hle
    exact absurd hi (not_lt.mpr hle)
  cases hc : s.children i with
  | absent => exact absurd hc habsent
  | close | exit | exited | reaped => rfl
  | closeRead | loop | write =>
      rw [hc] at hdead
      cases hdead

theorem collected_run (hn : 1 ≤ n)
    (h : (system capacity clockChecked n).Run as (system capacity clockChecked n).init s)
    (hdone : s.parent = .done) : Collected n as s := by
  rcases recorded_run h with hfailed | ⟨hinv, hrecorded⟩
  · rw [hdone] at hfailed
    cases hfailed
  · have hcounts := hinv.contents.counts
    rw [hdone] at hcounts
    have hne : s.counts ≠ [] := by
      apply List.ne_nil_of_length_pos
      rw [hcounts, List.length_map, List.length_range]
      exact hn
    exact ⟨hcounts, fun i c hc => hrecorded.broke i c (.inr hc),
      fun hsound i hi => hrecorded.written hsound i (hinv.ends.finished hdone hi),
      describes_statistics hne⟩

theorem Collected.counts_eq (h : Collected n as s) {v : ℕ → UInt64}
    (hfollows : ∀ a ∈ as, Action.Follows v a) : s.counts = (List.range n).map v := by
  rw [h.counts]
  apply List.map_congr_left
  intro i hi
  have hsound : ∀ a ∈ as, ¬ a.faulty := fun a ha => by simp [(hfollows a ha).1]
  obtain ⟨c, hc⟩ := h.written hsound i (List.mem_range.mp hi)
  have hbreaks : .breaks i c ∈ as := (h.counter i c hc c).mpr rfl
  rw [hc, Option.getD_some]
  exact (hfollows _ hbreaks).2 i c rfl

theorem collects_system (hn : 1 ≤ n) : Collects (system capacity clockChecked n) n where
  collected as s h hdone := collected_run hn h hdone
  finite as s h hgoes := by
    obtain ⟨-, hle⟩ := (length_run_le h).resolve_left hgoes
    exact (Nat.le_add_right _ _).trans hle
  completes hcapacity as s h hgoes v := by
    obtain ⟨hinv, -⟩ := (recorded_run h).resolve_left hgoes
    exact hinv.completes hcapacity v
  every hcapacity v := by
    obtain ⟨as, s, hfollows, hrun, hdone⟩ := (invariant_init n).completes hcapacity v
    exact ⟨as, s, hrun, hdone, (collected_run hn hrun hdone).counts_eq hfollows⟩

/-- The text of a counter fits and is read back; both programs report the counters of their
children, zero for one that has written nothing, with their extremes and their total. -/
theorem fairness_collection (hn : 1 ≤ n) :
    (∀ counter, (text counter).length ≤ bufferSize - 1 ∧ message counter = some (text counter) ∧
      count (text counter) = counter) ∧
    Collects (processFairness capacity n) n ∧ Collects (ipcPipeLatency capacity n) n := by
  refine ⟨fun counter => ⟨?_, message_eq counter, count_text counter⟩, collects_system hn,
    collects_system hn⟩
  exact (length_text_le counter).trans (by decide)

/-- The clock of the first child fails, and the second child exits before it. -/
def oneWrites : List Action :=
  List.replicate 8 (.call .parent .success) ++
  [.call (.child 0) .success, .call (.child 1) .success, .breaks 1 18446744073709551615,
    .call (.child 1) .success, .call (.child 1) .success, .call (.child 1) .success,
    .reap 1, .clockFails 0, .reap 0] ++
  List.replicate 6 (.call .parent .success)

theorem fairness_collection_oneWrites :
    ∃ s, (processFairness 512 2).Run oneWrites (processFairness 512 2).init s ∧
      s.parent = .done ∧ s.counts = [0, 18446744073709551615] ∧ Collected 2 oneWrites s := by
  have hend : ((processFairness 512 2).exec oneWrites (processFairness 512 2).init).map
      (fun s => (s.parent, s.counts)) = some (.done, [0, 18446744073709551615]) := by
    decide +kernel
  obtain ⟨s, hrun, hs⟩ := Option.map_eq_some_iff.mp hend
  obtain ⟨hparent, hcounts⟩ := Prod.mk.inj hs
  have hcollects : Collects (processFairness 512 2) 2 := (fairness_collection (by decide)).2.1
  exact ⟨s, hrun, hparent, hcounts, hcollects.collected oneWrites s hrun hparent⟩

end Runs

end MicrokernelBenchmark.ProcessFairness
