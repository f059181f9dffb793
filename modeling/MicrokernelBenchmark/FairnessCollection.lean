import MicrokernelBenchmark.ProcessFairness
import Mathlib.Algebra.Order.BigOperators.Group.Finset
import Mathlib.Data.Finset.Card

/-!
# The fairness tests collect every counter

Until the parent reads it, a pipe holds the text of what its child has written and
nothing else. The parent reads after as many waits as forks, so every child has exited,
no write end is left and the order of the exits has no influence on the counters.
-/
namespace MicrokernelBenchmark.ProcessFairness
open TransitionSystem

variable {capacity : ℕ}

def Action.faulty : Action → Bool
  | .call _ .failure | .clockFails _ | .signal _ => true
  | _ => false

/-- The steps of child `i` by their labels. -/
inductive ChildMove (s : State capacity) (i : ℕ) : Action → State capacity → Prop
  | closeRead : s.children i = .closeRead → ChildMove s i (.call (.child i) .success)
      (s.setPipe i ((s.pipes i).closeRead (.child i)) |>.setChild i .loop)
  | breaks (c : UInt64) : s.children i = .loop → ChildMove s i (.breaks i c)
      (s.setChild i (.write c))
  | write (c : UInt64) (p : Channel capacity) : s.children i = .write c →
      (s.pipes i).writeAll (text c) = .done p → ChildMove s i (.call (.child i) .success)
      { (s.setPipe i p).setChild i .close with wrote := Function.update s.wrote i (some c) }
  | writeFails (c : UInt64) : s.children i = .write c →
      ChildMove s i (.call (.child i) .failure) (s.setChild i .close)
  | close : s.children i = .close → ChildMove s i (.call (.child i) .success)
      (s.setPipe i ((s.pipes i).closeWrite (.child i)) |>.setChild i .exit)
  | exit : s.children i = .exit → ChildMove s i (.call (.child i) .success) (s.exitChild i)
  | sigpipe (c : UInt64) : s.children i = .write c → (s.pipes i).readers = ∅ →
      ChildMove s i (.call (.child i) .success) (s.exitChild i)
  | crash (a : Action) : a.faulty → (s.children i).alive → ChildMove s i a (s.exitChild i)

inductive ParentMove (n : ℕ) (s : State capacity) : State capacity → Prop
  | pipe (i : ℕ) : s.parent = .pipe i → i < n → ParentMove n s
      { s.setPipe i { readers := {.parent}, writers := {.parent} } with parent := .fork i }
  | forked (i : ℕ) : s.parent = .pipe i → ¬ i < n → ParentMove n s
      { s with parent := .closeWrite 0 }
  | fork (i : ℕ) : s.parent = .fork i → ParentMove n s { s.setChild i .closeRead with
      pipes := fun k => (s.pipes k).inherit .parent (.child i), parent := .pipe (i + 1) }
  | closeWrite (i : ℕ) : s.parent = .closeWrite i → i < n → ParentMove n s
      { s.setPipe i ((s.pipes i).closeWrite .parent) with parent := .closeWrite (i + 1) }
  | closed (i : ℕ) : s.parent = .closeWrite i → ¬ i < n → ParentMove n s
      { s with parent := .wait 0 }
  | noChild (i : ℕ) : s.parent = .wait i → i < n → s.NoChild n → ParentMove n s
      { s with parent := .wait (i + 1) }
  | waited (i : ℕ) : s.parent = .wait i → ¬ i < n → ParentMove n s { s with parent := .read 0 }
  | readNone (i : ℕ) : s.parent = .read i → i < n →
      (s.pipes i).readUpTo (bufferSize - 1) = .closed → ParentMove n s
      { s with counts := s.counts ++ [0], parent := .closeRead i }
  | read (i : ℕ) (buf : List UInt8) (p : Channel capacity) : s.parent = .read i → i < n →
      (s.pipes i).readUpTo (bufferSize - 1) = .done (buf, p) → ParentMove n s
      { s.setPipe i p with counts := s.counts ++ [count buf], parent := .closeRead i }
  | collected (i : ℕ) : s.parent = .read i → ¬ i < n → ParentMove n s (s.exitParent .done)
  | closeRead (i : ℕ) : s.parent = .closeRead i → ParentMove n s
      { s.setPipe i ((s.pipes i).closeRead .parent) with parent := .read (i + 1) }

inductive Move (n : ℕ) (s : State capacity) : Action → State capacity → Prop
  | parent (o : Outcome) (t : State capacity) : ParentMove n s t → Move n s (.call .parent o) t
  | failed (t : State capacity) : t.parent = .failed → Move n s (.call .parent .failure) t
  | child (i : ℕ) (a : Action) (t : State capacity) : ChildMove s i a t → Move n s a t
  | reap (i j : ℕ) : s.parent = .wait j → j < n → s.children i = .exited →
      Move n s (.reap i) { s.setChild i .reaped with parent := .wait (j + 1) }

section Inversion
variable {clockChecked : Bool} {n i : ℕ} {s t : State capacity} {a : Action} {o : Outcome}

theorem parentSuccess_move (h : parentSuccess n s = some t) : ParentMove n s t := by
  unfold parentSuccess at h
  split at h
  case h_1 i hp =>
    split at h
    case isTrue hi => exact Option.some.inj h ▸ .pipe i hp hi
    case isFalse hi => exact Option.some.inj h ▸ .forked i hp hi
  case h_2 i hp => exact Option.some.inj h ▸ .fork i hp
  case h_3 i hp =>
    split at h
    case isTrue hi => exact Option.some.inj h ▸ .closeWrite i hp hi
    case isFalse hi => exact Option.some.inj h ▸ .closed i hp hi
  case h_4 i hp =>
    split at h
    case isTrue => cases h
    case isFalse hi => exact Option.some.inj h ▸ .waited i hp hi
  case h_5 i hp =>
    split at h
    case isTrue hi =>
      split at h
      case h_1 => cases h
      case h_2 hread => exact Option.some.inj h ▸ .readNone i hp hi hread
      case h_3 buf p hread => exact Option.some.inj h ▸ .read i buf p hp hi hread
    case isFalse hi => exact Option.some.inj h ▸ .collected i hp hi
  case h_6 i hp => exact Option.some.inj h ▸ .closeRead i hp
  case h_7 | h_8 => cases h

theorem parentFailure_move (h : parentFailure n s = some t) :
    t.parent = .failed ∨ ParentMove n s t := by
  unfold parentFailure at h
  split at h
  case h_1 i hp =>
    split at h
    case isTrue => exact Option.some.inj h ▸ .inl rfl
    case isFalse => cases h
  case h_2 => exact Option.some.inj h ▸ .inl rfl
  case h_3 i hp =>
    split at h
    case isTrue hnone => exact Option.some.inj h ▸ .inr (.noChild i hp hnone.1 hnone.2)
    case isFalse => cases h
  case h_4 => cases h

theorem childSuccess_move (h : childSuccess s i = some t) :
    ChildMove s i (.call (.child i) .success) t := by
  rw [childSuccess] at h
  cases hc : s.children i with
  | closeRead =>
      rw [hc] at h
      exact Option.some.inj h ▸ .closeRead hc
  | write c =>
      rw [hc] at h
      dsimp only at h
      rw [message_eq, Option.bind_some] at h
      split at h
      case h_1 => cases h
      case h_2 hwrite =>
        rw [Pipe.writeAll] at hwrite
        split_ifs at hwrite with hreaders
        exact Option.some.inj h ▸ .sigpipe c hc hreaders
      case h_3 p hwrite => exact Option.some.inj h ▸ .write c p hc hwrite
  | close =>
      rw [hc] at h
      exact Option.some.inj h ▸ .close hc
  | exit =>
      rw [hc] at h
      exact Option.some.inj h ▸ .exit hc
  | absent | loop | exited | reaped =>
      rw [hc] at h
      cases h

theorem childFailure_move (h : childFailure s i = some t) :
    ChildMove s i (.call (.child i) .failure) t := by
  unfold childFailure at h
  split at h
  case h_1 c hc => exact Option.some.inj h ▸ .writeFails c hc
  case h_2 => cases h

theorem tick_move (h : tick clockChecked n s a = some t) : Move n s a t := by
  cases a with
  | call q o =>
      cases q with
      | parent =>
          cases o with
          | success => exact .parent .success t (parentSuccess_move h)
          | failure =>
              rcases parentFailure_move h with hfailed | hmove
              · exact .failed t hfailed
              · exact .parent .failure t hmove
      | child i =>
          cases o with
          | success => exact .child i _ t (childSuccess_move h)
          | failure => exact .child i _ t (childFailure_move h)
  | breaks i c =>
      rw [tick, Option.ite_none_right_eq_some] at h
      obtain ⟨hc, ht⟩ := h
      exact Option.some.inj ht ▸ .child i _ _ (.breaks c hc)
  | clockFails i =>
      rw [tick, Option.ite_none_right_eq_some] at h
      obtain ⟨⟨-, hc⟩, ht⟩ := h
      exact Option.some.inj ht ▸ .child i _ _ (.crash _ rfl (by rw [hc]; rfl))
  | signal i =>
      rw [tick, Option.ite_none_right_eq_some] at h
      obtain ⟨halive, ht⟩ := h
      exact Option.some.inj ht ▸ .child i _ _ (.crash _ rfl halive)
  | reap i =>
      rw [tick] at h
      split at h
      case h_1 j hp =>
        split at h
        case isTrue hi => exact Option.some.inj h ▸ .reap i j hp hi.1 hi.2
        case isFalse => cases h
      case h_2 => cases h

end Inversion

namespace ParentPc

def InRange (n : ℕ) : ParentPc → Prop
  | .pipe i | .closeWrite i | .wait i | .read i => i ≤ n
  | .fork i | .closeRead i => i < n
  | .done => True
  | .failed => False

def piped (n : ℕ) : ParentPc → ℕ
  | .pipe i => i
  | .fork i => i + 1
  | _ => n

def forked (n : ℕ) : ParentPc → ℕ
  | .pipe i | .fork i => i
  | _ => n

/-- The number of calls of `wait` that have returned. -/
def waited (n : ℕ) : ParentPc → ℕ
  | .pipe _ | .fork _ | .closeWrite _ => 0
  | .wait i => i
  | _ => n

def holdsWrite (k : ℕ) : ParentPc → Bool
  | .pipe _ | .fork _ => true
  | .closeWrite i => i ≤ k
  | _ => false

def holdsRead (k : ℕ) : ParentPc → Bool
  | .read i | .closeRead i => i ≤ k
  | .done | .failed => false
  | _ => true

def unread (k : ℕ) : ParentPc → Bool
  | .read i => i ≤ k
  | .closeRead i => i < k
  | .done | .failed => false
  | _ => true

/-- The number of entries of `counts`. -/
def reported (n : ℕ) : ParentPc → ℕ
  | .read i => i
  | .closeRead i => i + 1
  | .done => n
  | _ => 0

end ParentPc

/-- Which children exist, how many have been waited for, and who holds which end. -/
structure Ends (n : ℕ) (s : State capacity) : Prop where
  inRange : s.parent.InRange n
  absent : ∀ i, s.children i = .absent ↔ s.parent.forked n ≤ i
  reaped : ((Finset.range n).filter fun i => s.children i = .reaped).card = s.parent.waited n
  writers : ∀ k < s.parent.piped n, ∀ q ∈ (s.pipes k).writers,
    q = .parent ∧ s.parent.holdsWrite k ∨ ∃ i, q = .child i ∧ (s.children i).alive
  readers : ∀ k < s.parent.piped n, s.parent.holdsRead k → .parent ∈ (s.pipes k).readers

/-- What a step of a child leaves as it was: which children exist and have been waited for.
No one gets a write end, a child that has exited has none, and the parent keeps its ends. -/
structure ChildStep (s t : State capacity) : Prop where
  parent : t.parent = s.parent
  counts : t.counts = s.counts
  absent : ∀ i, t.children i = .absent ↔ s.children i = .absent
  reaped : ∀ i, t.children i = .reaped ↔ s.children i = .reaped
  writers : ∀ k, ∀ q ∈ (t.pipes k).writers, q ∈ (s.pipes k).writers ∧
    ∀ i, q = .child i → (s.children i).alive → (t.children i).alive
  readers : ∀ k, .parent ∈ (s.pipes k).readers → .parent ∈ (t.pipes k).readers

section ChildSteps
variable {n i : ℕ} {s t : State capacity} {a : Action} {c : ChildPc}

@[simp] theorem setChild_children (k : ℕ) :
    (s.setChild i c).children k = if k = i then c else s.children k :=
  Function.update_apply s.children i c k

theorem of_setChild {P : ChildPc → Prop} (hP : P c → P (s.children i)) {k : ℕ}
    (hk : P ((s.setChild i c).children k)) : P (s.children k) := by
  rw [setChild_children] at hk
  split at hk
  case isTrue hki => exact hki ▸ hP hk
  case isFalse => exact hk

theorem setChild_of {P : ChildPc → Prop} (hP : P (s.children i) → P c) {k : ℕ}
    (hk : P (s.children k)) : P ((s.setChild i c).children k) := by
  rw [setChild_children]
  split
  case isTrue hki => exact hP (hki ▸ hk)
  case isFalse => exact hk

/-- Neither before nor after the step is child `i` in that state. -/
theorem setChild_eq_iff {c' : ChildPc} (hc : c ≠ c') (hold : s.children i ≠ c') (k : ℕ) :
    (s.setChild i c).children k = c' ↔ s.children k = c' :=
  ⟨of_setChild (P := (· = c')) fun h => absurd h hc,
    setChild_of (P := (· = c')) fun h => absurd h hold⟩

@[simp] theorem setPipe_pipes (p : Channel capacity) (k : ℕ) :
    (s.setPipe i p).pipes k = if k = i then p else s.pipes k :=
  Function.update_apply s.pipes i p k

theorem ChildPc.ne_of_alive (h : c.alive) : c ≠ .absent ∧ c ≠ .reaped := by
  cases c with
  | absent | reaped => cases h
  | _ => exact ⟨nofun, nofun⟩

/-- A living child goes on or exits. -/
theorem ChildStep.setChild (halive : (s.children i).alive) (hc : c ≠ .absent ∧ c ≠ .reaped)
    (f : ℕ → Channel capacity) (w : ℕ → Option UInt64)
    (hwriters : ∀ k, ∀ q ∈ (f k).writers, q ∈ (s.pipes k).writers ∧ (q = .child i → c.alive))
    (hreaders : ∀ k, .parent ∈ (s.pipes k).readers → .parent ∈ (f k).readers) :
    ChildStep s { s.setChild i c with pipes := f, wrote := w } := by
  obtain ⟨habsent, hreaped⟩ := ChildPc.ne_of_alive halive
  refine ⟨rfl, rfl, setChild_eq_iff hc.1 habsent, setChild_eq_iff hc.2 hreaped,
    fun k q hq => ?_, hreaders⟩
  obtain ⟨hmem, hlives⟩ := hwriters k q hq
  refine ⟨hmem, fun j hj hold => ?_⟩
  rw [setChild_children]
  split
  case isTrue hji => exact hlives (hji ▸ hj)
  case isFalse => exact hold

theorem childStep_exitChild (halive : (s.children i).alive) : ChildStep s (s.exitChild i) := by
  refine .setChild (c := .exited) halive ⟨nofun, nofun⟩ (fun k => (s.pipes k).exit (.child i))
    s.wrote (fun k q hq => ?_) fun k hk => ?_
  · obtain ⟨hne, hmem⟩ := Finset.mem_erase.mp hq
    exact ⟨hmem, fun heq => absurd heq hne⟩
  · exact Finset.mem_erase.mpr ⟨nofun, hk⟩

/-- A child that goes on has changed its own pipe only. -/
theorem ChildStep.setPipe (halive : (s.children i).alive) (hc : c.alive) (p : Channel capacity)
    (w : ℕ → Option UInt64) (hwriters : p.writers ⊆ (s.pipes i).writers)
    (hreaders : .parent ∈ (s.pipes i).readers → .parent ∈ p.readers) :
    ChildStep s { (s.setPipe i p).setChild i c with wrote := w } := by
  refine .setChild halive (ChildPc.ne_of_alive hc) (s.setPipe i p).pipes w
    (fun k q hq => ⟨?_, fun _ => hc⟩) fun k hk => ?_
  · rw [setPipe_pipes] at hq
    split at hq
    case isTrue hki => exact hki ▸ hwriters hq
    case isFalse => exact hq
  · rw [setPipe_pipes]
    split
    case isTrue hki => exact hreaders (hki ▸ hk)
    case isFalse => exact hk

theorem ChildMove.alive (h : ChildMove s i a t) : (s.children i).alive := by
  cases h with
  | closeRead hc | breaks c hc | write c p hc hwrite | writeFails c hc | close hc | exit hc
  | sigpipe c hc hreaders => rw [hc]; rfl
  | crash a hfaulty halive => exact halive

theorem ChildMove.childStep (h : ChildMove s i a t) : ChildStep s t := by
  have halive := h.alive
  have hkeep : ∀ {c : ChildPc}, c.alive → ChildStep s (s.setChild i c) := fun hc =>
    .setChild halive (ChildPc.ne_of_alive hc) s.pipes s.wrote (fun _ _ hq => ⟨hq, fun _ => hc⟩)
      fun _ => id
  cases h with
  | closeRead =>
      exact .setPipe (c := .loop) halive rfl _ s.wrote subset_rfl
        fun hmem => Finset.mem_erase.mpr ⟨nofun, hmem⟩
  | breaks c => exact hkeep rfl
  | write c p hc hwrite =>
      obtain ⟨-, hreaders, hwriters⟩ := Pipe.writeAll_eq_done hwrite
      exact .setPipe (c := .close) halive rfl p _ hwriters.subset fun hmem => hreaders ▸ hmem
  | writeFails => exact hkeep rfl
  | close => exact .setPipe (c := .exit) halive rfl _ s.wrote (Finset.erase_subset _ _) id
  | exit | sigpipe | crash => exact childStep_exitChild halive

theorem Ends.childStep (h : Ends n s) (hstep : ChildStep s t) : Ends n t where
  inRange := hstep.parent ▸ h.inRange
  absent i := by rw [hstep.absent, hstep.parent, h.absent]
  reaped := by
    have hsame : ((Finset.range n).filter fun i => t.children i = .reaped) =
        (Finset.range n).filter fun i => s.children i = .reaped :=
      Finset.filter_congr fun i _ => hstep.reaped i
    rw [hsame, hstep.parent, h.reaped]
  writers k hk q hq := by
    obtain ⟨hmem, halive⟩ := hstep.writers k q hq
    rw [hstep.parent] at hk ⊢
    exact (h.writers k hk q hmem).imp_right fun ⟨i, hi, hold⟩ => ⟨i, hi, halive i hi hold⟩
  readers k hk hholds := by
    rw [hstep.parent] at hk hholds
    exact hstep.readers k (h.readers k hk hholds)

end ChildSteps

section ParentSteps
variable {n i j : ℕ} {s t : State capacity}

theorem ParentPc.forked_le {pc : ParentPc} (h : pc.InRange n) : pc.forked n ≤ n := by
  cases pc with
  | pipe i => exact h
  | fork i => exact Nat.le_of_lt h
  | _ => exact le_rfl

/-- Once there have been as many waits as forks, no child is left. -/
theorem Ends.dead (h : Ends n s) (hwaited : s.parent.waited n = n) (i : ℕ) :
    (s.children i).alive = false := by
  by_cases hi : i < n
  · have hall : ((Finset.range n).filter fun i => s.children i = .reaped) = Finset.range n := by
      apply Finset.eq_of_subset_of_card_le (Finset.filter_subset _ _)
      rw [h.reaped, hwaited, Finset.card_range]
    have hmem : i ∈ (Finset.range n).filter fun i => s.children i = .reaped := by
      rw [hall]
      exact Finset.mem_range.mpr hi
    rw [(Finset.mem_filter.mp hmem).2]
    rfl
  · have hle : s.parent.forked n ≤ i := (ParentPc.forked_le h.inRange).trans (not_lt.mp hi)
    rw [(h.absent i).mpr hle]
    rfl

theorem ends_init (n : ℕ) : Ends n ({} : State capacity) where
  inRange := Nat.zero_le n
  absent i := by simp [ParentPc.forked]
  reaped := by simp [ParentPc.waited]
  writers k hk := absurd hk (Nat.not_lt_zero k)
  readers k hk := absurd hk (Nat.not_lt_zero k)

/-- The parent goes on after the forks, with its own ends closed or kept. -/
theorem Ends.advance (h : Ends n s) {pc : ParentPc} {f : ℕ → Channel capacity}
    {counts : List UInt64} (hrange : pc.InRange n) (hpiped : pc.piped n = s.parent.piped n)
    (hforked : pc.forked n = s.parent.forked n) (hwaited : pc.waited n = s.parent.waited n)
    (hwriters : ∀ k < s.parent.piped n, ∀ q ∈ (f k).writers, q ∈ (s.pipes k).writers ∧
      (q = .parent → s.parent.holdsWrite k → pc.holdsWrite k))
    (hreaders : ∀ k, pc.holdsRead k → s.parent.holdsRead k ∧
      (.parent ∈ (s.pipes k).readers → .parent ∈ (f k).readers)) :
    Ends n { s with pipes := f, parent := pc, counts := counts } where
  inRange := hrange
  absent i := by rw [h.absent, hforked]
  reaped := by rw [h.reaped, hwaited]
  writers k hk q hq := by
    rw [hpiped] at hk
    obtain ⟨hmem, hkeep⟩ := hwriters k hk q hq
    exact (h.writers k hk q hmem).imp_left fun ⟨hq, hholds⟩ => ⟨hq, hkeep hq hholds⟩
  readers k hk hholds := by
    rw [hpiped] at hk
    obtain ⟨hold, hkeep⟩ := hreaders k hholds
    exact hkeep (h.readers k hk hold)

/-- The parent goes on after it has closed all its write ends. -/
theorem Ends.advance_closed (h : Ends n s) (hclosed : ∀ k, s.parent.holdsWrite k = false)
    {pc : ParentPc} {f : ℕ → Channel capacity} {counts : List UInt64} (hrange : pc.InRange n)
    (hpiped : pc.piped n = s.parent.piped n) (hforked : pc.forked n = s.parent.forked n)
    (hwaited : pc.waited n = s.parent.waited n)
    (hwriters : ∀ k, (f k).writers ⊆ (s.pipes k).writers)
    (hreaders : ∀ k, pc.holdsRead k → s.parent.holdsRead k ∧
      (.parent ∈ (s.pipes k).readers → .parent ∈ (f k).readers)) :
    Ends n { s with pipes := f, parent := pc, counts := counts } := by
  refine h.advance hrange hpiped hforked hwaited (fun k _ q hq => ⟨hwriters k hq, ?_⟩) hreaders
  intro _ hholds
  exact absurd ((hclosed k).symm.trans hholds) Bool.false_ne_true

theorem setPipe_writers {p : Channel capacity} (hp : p.writers = (s.pipes i).writers) (k : ℕ) :
    ((s.setPipe i p).pipes k).writers ⊆ (s.pipes k).writers := by
  rw [setPipe_pipes]
  split
  case isTrue hki => exact hki ▸ hp.subset
  case isFalse => exact subset_rfl

theorem Ends.pipe (h : Ends n s) (hp : s.parent = .pipe i) (hi : i < n) :
    Ends n { s.setPipe i { readers := {.parent}, writers := {.parent} } with
      parent := .fork i } := by
  obtain ⟨-, habsent, hreaped, hwriters, hreaders⟩ := h
  rw [hp] at habsent hreaped hwriters hreaders
  refine ⟨hi, habsent, hreaped, fun k hk q hq => ?_, fun k hk _ => ?_⟩
  · rw [setPipe_pipes] at hq
    split at hq
    case isTrue => exact .inl ⟨Finset.mem_singleton.mp hq, rfl⟩
    case isFalse hki =>
      exact hwriters k (Nat.lt_of_le_of_ne (Nat.le_of_lt_succ hk) hki) q hq
  · rw [setPipe_pipes]
    split
    case isTrue => exact Finset.mem_singleton_self _
    case isFalse hki =>
      exact hreaders k (Nat.lt_of_le_of_ne (Nat.le_of_lt_succ hk) hki) rfl

/-- The new child gets a copy of every end of the parent. -/
theorem Ends.fork (h : Ends n s) (hp : s.parent = .fork i) :
    Ends n { s.setChild i .closeRead with
      pipes := fun k => (s.pipes k).inherit .parent (.child i), parent := .pipe (i + 1) } := by
  obtain ⟨hrange, habsent, hreaped, hwriters, hreaders⟩ := h
  rw [hp] at hrange habsent hreaped hwriters hreaders
  have hnew : s.children i = .absent := (habsent i).mpr le_rfl
  refine ⟨hrange, fun k => ?_, ?_, fun k hk q hq => ?_, fun k hk _ => ?_⟩
  · rw [setChild_children]
    split
    case isTrue hki => exact iff_of_false nofun (by rw [hki]; exact Nat.not_succ_le_self i)
    case isFalse hki =>
      rw [habsent]
      exact ⟨fun hle => Nat.lt_of_le_of_ne hle (Ne.symm hki), Nat.le_of_succ_le⟩
  · have hsame : ((Finset.range n).filter fun k => (s.setChild i .closeRead).children k = .reaped)
        = (Finset.range n).filter fun k => s.children k = .reaped := by
      apply Finset.filter_congr
      intro k _
      apply setChild_eq_iff
      · exact nofun
      · rw [hnew]
        exact nofun
    exact (congrArg Finset.card hsame).trans hreaped
  · have halive : ∀ j, (s.children j).alive → ((s.setChild i .closeRead).children j).alive :=
      fun _ => setChild_of (P := fun c => c.alive) fun _ => rfl
    rcases Pipe.of_mem_inherit_writers hq with hmem | rfl
    · exact (hwriters k hk q hmem).imp_right fun ⟨j, hj, hold⟩ => ⟨j, hj, halive j hold⟩
    · have hchild : ((s.setChild i .closeRead).children i).alive := by
        rw [setChild_children, if_pos rfl]
        rfl
      exact .inr ⟨i, rfl, hchild⟩
  · exact Pipe.mem_inherit_readers (hreaders k hk rfl)

theorem Ends.reap (h : Ends n s) (hp : s.parent = .wait j) (hj : j < n)
    (hi : s.children i = .exited) :
    Ends n { s.setChild i .reaped with parent := .wait (j + 1) } := by
  obtain ⟨-, habsent, hreaped, hwriters, hreaders⟩ := h
  rw [hp] at habsent hreaped hwriters hreaders
  have hin : i < n := by
    by_contra hle
    have hnone := (habsent i).mpr (not_lt.mp hle)
    rw [hi] at hnone
    cases hnone
  refine ⟨hj, fun k => ?_, ?_, fun k hk q hq => ?_, hreaders⟩
  · refine Iff.trans ?_ (habsent k)
    apply setChild_eq_iff
    · exact nofun
    · rw [hi]
      exact nofun
  · have hmore : ((Finset.range n).filter fun k => (s.setChild i .reaped).children k = .reaped)
        = insert i ((Finset.range n).filter fun k => s.children k = .reaped) := by
      ext k
      rw [Finset.mem_insert, Finset.mem_filter, Finset.mem_filter, Finset.mem_range,
        setChild_children]
      split
      case isTrue hki => simp [hki, hin]
      case isFalse hki => simp [hki]
    have hnot : i ∉ (Finset.range n).filter fun k => s.children k = .reaped := by
      rw [Finset.mem_filter, hi]
      exact fun hmem => nomatch hmem.2
    calc ((Finset.range n).filter fun k => (s.setChild i .reaped).children k = .reaped).card
        = ((Finset.range n).filter fun k => s.children k = .reaped).card + 1 := by
          rw [hmore, Finset.card_insert_of_notMem hnot]
      _ = j + 1 := by rw [hreaped]; rfl
  · have halive : ∀ m, (s.children m).alive → ((s.setChild i .reaped).children m).alive :=
      fun _ => setChild_of (P := fun c => c.alive) fun hold => by rw [hi] at hold; cases hold
    exact (hwriters k hk q hq).imp_right fun ⟨m, hm, hold⟩ => ⟨m, hm, halive m hold⟩

theorem Ends.parentMove (h : Ends n s) (hmove : ParentMove n s t) : Ends n t := by
  have hrange := h.inRange
  cases hmove with
  | pipe i hp hi => exact h.pipe hp hi
  | forked i hp hi =>
      rw [hp] at hrange
      have hin : i = n := Nat.le_antisymm hrange (not_lt.mp hi)
      refine h.advance (Nat.zero_le n) (by rw [hp, hin]; rfl) (by rw [hp, hin]; rfl)
        (by rw [hp]; rfl) (fun k _ q hq => ⟨hq, fun _ _ => ?_⟩) fun k _ => ⟨by rw [hp]; rfl, id⟩
      exact decide_eq_true (Nat.zero_le k)
  | fork i hp => exact h.fork hp
  | closeWrite i hp hi =>
      refine h.advance hi (by rw [hp]; rfl) (by rw [hp]; rfl) (by rw [hp]; rfl)
        (fun k _ q hq => ?_) fun k _ => ⟨by rw [hp]; rfl, ?_⟩
      · rw [setPipe_pipes] at hq
        split at hq
        case isTrue hki =>
          obtain ⟨hne, hmem⟩ := Finset.mem_erase.mp hq
          exact ⟨hki ▸ hmem, fun heq => absurd heq hne⟩
        case isFalse hki =>
          refine ⟨hq, fun _ hholds => ?_⟩
          rw [hp, ParentPc.holdsWrite, decide_eq_true_eq] at hholds
          exact decide_eq_true (Nat.lt_of_le_of_ne hholds (Ne.symm hki))
      · rw [setPipe_pipes]
        split
        case isTrue hki => exact fun hmem => hki ▸ hmem
        case isFalse => exact id
  | closed i hp hi =>
      refine h.advance (Nat.zero_le n) (by rw [hp]; rfl) (by rw [hp]; rfl) (by rw [hp]; rfl)
        (fun k hk q hq => ⟨hq, fun _ hholds => ?_⟩) fun k _ => ⟨by rw [hp]; rfl, id⟩
      rw [hp] at hk hholds
      rw [ParentPc.holdsWrite, decide_eq_true_eq] at hholds
      exact absurd (hholds.trans_lt hk) hi
  | noChild i hp hi hnone =>
      have hreaped : ∀ k ∈ Finset.range n, s.children k = .reaped := by
        intro k hk
        have hk := Finset.mem_range.mp hk
        refine (hnone k hk).resolve_left fun habsent => ?_
        have hle := (h.absent k).mp habsent
        rw [hp] at hle
        exact absurd hk (not_lt.mpr hle)
      have hall := h.reaped
      rw [Finset.filter_true_of_mem hreaped, Finset.card_range, hp] at hall
      exact absurd hi (hall ▸ lt_irrefl n)
  | waited i hp hi =>
      rw [hp] at hrange
      have hin : i = n := Nat.le_antisymm hrange (not_lt.mp hi)
      exact h.advance_closed (fun _ => by rw [hp]; rfl) (Nat.zero_le n) (by rw [hp]; rfl)
        (by rw [hp]; rfl) (by rw [hp, hin]; rfl) (fun _ => subset_rfl)
        fun k _ => ⟨by rw [hp]; rfl, id⟩
  | readNone i hp hi hread =>
      exact h.advance_closed (fun _ => by rw [hp]; rfl) hi (by rw [hp]; rfl) (by rw [hp]; rfl)
        (by rw [hp]; rfl) (fun _ => subset_rfl) fun k hk => ⟨by rw [hp]; exact hk, id⟩
  | read i buf p hp hi hread =>
      obtain ⟨hreaders, hwriters⟩ := Pipe.readUpTo_eq_done hread
      refine h.advance_closed (f := (s.setPipe i p).pipes) (fun _ => by rw [hp]; rfl) hi
        (by rw [hp]; rfl) (by rw [hp]; rfl) (by rw [hp]; rfl) (setPipe_writers hwriters)
        fun k hk => ⟨by rw [hp]; exact hk, ?_⟩
      rw [setPipe_pipes]
      split
      case isTrue hki => exact fun hmem => hreaders ▸ hki ▸ hmem
      case isFalse => exact id
  | collected i hp hi =>
      exact h.advance_closed (fun _ => by rw [hp]; rfl) trivial (by rw [hp]; rfl)
        (by rw [hp]; rfl) (by rw [hp]; rfl) (fun k => Finset.erase_subset _ _) nofun
  | closeRead i hp =>
      rw [hp] at hrange
      refine h.advance_closed (fun _ => by rw [hp]; rfl) hrange (by rw [hp]; rfl)
        (by rw [hp]; rfl) (by rw [hp]; rfl) (setPipe_writers rfl) fun k hk => ?_
      rw [ParentPc.holdsRead, decide_eq_true_eq] at hk
      rw [hp, setPipe_pipes, if_neg (Nat.ne_of_gt hk)]
      exact ⟨decide_eq_true (Nat.le_of_succ_le hk), id⟩

end ParentSteps

/-- A child that is through with its `write`. -/
def ChildPc.finished : ChildPc → Bool
  | .close | .exit | .exited | .reaped => true
  | _ => false

/-- What is to be the entry of child `k`. -/
def State.expected (s : State capacity) (k : ℕ) : UInt64 := (s.wrote k).getD 0

/-- A pipe holds what its child has written until the parent reads it. -/
structure Contents (n : ℕ) (s : State capacity) : Prop where
  fresh : ∀ i, (s.children i).finished = false → s.wrote i = none
  buffers : ∀ k < n, (s.pipes k).buffer.items =
    if s.parent.unread k then ((s.wrote k).map text).getD [] else []
  counts : s.counts = (List.range (s.parent.reported n)).map s.expected

section ContentsSteps
variable {n i j : ℕ} {s t : State capacity} {a : Action}

theorem contents_init (n : ℕ) : Contents n ({} : State capacity) where
  fresh _ _ := rfl
  buffers _ _ := rfl
  counts := rfl

/-- A step which changes no buffer and no history. -/
theorem Contents.keep (h : Contents n s) (hunread : ∀ k < n, t.parent.unread k = s.parent.unread k)
    (hreported : t.parent.reported n = s.parent.reported n) (hcounts : t.counts = s.counts)
    (hwrote : t.wrote = s.wrote) (hbuffers : ∀ k, (t.pipes k).buffer = (s.pipes k).buffer)
    (hfresh : ∀ k, (t.children k).finished = false → (s.children k).finished = false) :
    Contents n t where
  fresh k hk := by rw [hwrote, h.fresh k (hfresh k hk)]
  buffers k hk := by rw [hbuffers, h.buffers k hk, hunread k hk, hwrote]
  counts := by
    have hexpected : t.expected = s.expected := by
      funext k
      rw [State.expected, State.expected, hwrote]
    rw [hcounts, h.counts, hreported, hexpected]

/-- A child moves without writing. -/
theorem Contents.setChild (h : Contents n s) {c : ChildPc} (f : ℕ → Channel capacity)
    (hc : c.finished = false → (s.children i).finished = false)
    (hbuffers : ∀ k, (f k).buffer = (s.pipes k).buffer) :
    Contents n { s.setChild i c with pipes := f } :=
  h.keep (fun _ _ => rfl) rfl rfl rfl hbuffers fun _ =>
    of_setChild (P := fun c => c.finished = false) hc

theorem setPipe_buffer {p : Channel capacity} (hp : p.buffer = (s.pipes i).buffer) (k : ℕ) :
    ((s.setPipe i p).pipes k).buffer = (s.pipes k).buffer := by
  rw [setPipe_pipes]
  split
  case isTrue hki => rw [hp, hki]
  case isFalse => rfl

theorem ParentPc.unread_of_waiting {pc : ParentPc} (h : pc.waited n ≠ n) :
    (∀ k, pc.unread k = true) ∧ pc.reported n = 0 := by
  cases pc with
  | pipe | fork | closeWrite | wait => exact ⟨fun _ => rfl, rfl⟩
  | read | closeRead | done | failed => exact absurd rfl h

/-- While a child is alive, the parent has not begun to read. -/
theorem Ends.waiting (h : Ends n s) (halive : (s.children i).alive) :
    s.parent.waited n ≠ n := by
  intro hwaited
  rw [h.dead hwaited i] at halive
  cases halive

/-- The text goes into an empty pipe. -/
theorem Contents.empty (h : Contents n s) (hunread : s.parent.unread i) (hi : i < n)
    (hc : (s.children i).finished = false) : (s.pipes i).buffer.items = [] := by
  rw [h.buffers i hi, if_pos hunread, h.fresh i hc]
  rfl

theorem Contents.write (h : Contents n s) (hends : Ends n s) {c : UInt64} {p : Channel capacity}
    (hc : s.children i = .write c) (hwrite : (s.pipes i).writeAll (text c) = .done p) :
    Contents n { (s.setPipe i p).setChild i .close with
      wrote := Function.update s.wrote i (some c) } := by
  obtain ⟨hitems, -, -⟩ := Pipe.writeAll_eq_done hwrite
  have halive : (s.children i).alive := by rw [hc]; rfl
  obtain ⟨hunread, hreported⟩ := ParentPc.unread_of_waiting (hends.waiting halive)
  refine ⟨fun k hk => ?_, fun k hk => ?_, ?_⟩
  · have hki : k ≠ i := by
      rintro rfl
      rw [setChild_children, if_pos rfl] at hk
      cases hk
    rw [setChild_children, if_neg hki] at hk
    exact (Function.update_of_ne hki _ _).trans (h.fresh k hk)
  · have hpipe : ((s.setPipe i p).pipes k).buffer.items =
        ((Function.update s.wrote i (some c) k).map text).getD [] := by
      rw [setPipe_pipes, Function.update_apply]
      split
      case isTrue hki =>
        rw [hitems, h.empty (hunread i) (hki ▸ hk) (by rw [hc]; rfl)]
        rfl
      case isFalse => rw [h.buffers k hk, if_pos (hunread k)]
    exact hpipe.trans (if_pos (hunread k)).symm
  · have hnil : ∀ f : ℕ → UInt64, s.counts = (List.range (s.parent.reported n)).map f := by
      intro f
      rw [h.counts, hreported]
      rfl
    exact hnil _

theorem Contents.childMove (h : Contents n s) (hends : Ends n s) (hmove : ChildMove s i a t) :
    Contents n t := by
  cases hmove with
  | closeRead hc => exact h.setChild (c := .loop) _ (fun _ => by rw [hc]; rfl) (setPipe_buffer rfl)
  | breaks c hc => exact h.setChild (c := .write c) _ (fun _ => by rw [hc]; rfl) fun _ => rfl
  | write c p hc hwrite => exact h.write hends hc hwrite
  | writeFails => exact h.setChild (c := .close) _ nofun fun _ => rfl
  | close => exact h.setChild (c := .exit) _ nofun (setPipe_buffer rfl)
  | exit | sigpipe | crash => exact h.setChild (c := .exited) _ nofun fun _ => rfl

theorem Contents.pipe (h : Contents n s) (hends : Ends n s) (hp : s.parent = .pipe i) :
    Contents n { s.setPipe i { readers := {.parent}, writers := {.parent} } with
      parent := .fork i } := by
  obtain ⟨hfresh, hbuffers, hcounts⟩ := h
  rw [hp] at hbuffers hcounts
  refine ⟨hfresh, fun k hk => ?_, hcounts⟩
  have hnew : s.children i = .absent := (hends.absent i).mpr (by rw [hp]; exact le_rfl)
  have hnone : s.wrote i = none := hfresh i (by rw [hnew]; rfl)
  rw [setPipe_pipes]
  split
  case isTrue hki =>
    have hitems : [] = ((s.wrote k).map text).getD [] := by
      rw [hki, hnone]
      rfl
    exact hitems
  case isFalse => exact hbuffers k hk

/-- The entry of child `i` follows those of the children before it. -/
theorem Contents.read (h : Contents n s) (hp : s.parent = .read i) {p : Channel capacity}
    {c : UInt64} (hc : c = s.expected i) (hnil : p.buffer.items = []) :
    Contents n { s.setPipe i p with counts := s.counts ++ [c], parent := .closeRead i } := by
  obtain ⟨hfresh, hbuffers, hcounts⟩ := h
  rw [hp] at hbuffers hcounts
  refine ⟨hfresh, fun k hk => ?_, ?_⟩
  · have hitems : ((s.setPipe i p).pipes k).buffer.items =
        if ParentPc.unread k (.closeRead i) then ((s.wrote k).map text).getD [] else [] := by
      rw [setPipe_pipes]
      split
      case isTrue hki =>
        rw [hnil, ParentPc.unread, if_neg]
        simp [hki]
      case isFalse hki =>
        have hsame : ParentPc.unread k (.read i) = ParentPc.unread k (.closeRead i) :=
          decide_eq_decide.mpr (by omega)
        rw [hbuffers k hk, hsame]
    exact hitems
  · have hmore : s.counts ++ [c] = (List.range (i + 1)).map s.expected := by
      rw [hcounts, hc, List.range_succ, List.map_append]
      rfl
    exact hmore

theorem Contents.items_of_read (h : Contents n s) (hp : s.parent = .read i) (hi : i < n) :
    (s.pipes i).buffer.items = ((s.wrote i).map text).getD [] := by
  have hunread : s.parent.unread i = true := by
    rw [hp]
    exact decide_eq_true le_rfl
  rw [h.buffers i hi, if_pos hunread]

theorem Contents.expected_of_closed (h : Contents n s) (hp : s.parent = .read i) (hi : i < n)
    (hread : (s.pipes i).readUpTo (bufferSize - 1) = .closed) :
    s.expected i = 0 ∧ (s.pipes i).buffer.items = [] := by
  have hnil := Pipe.readUpTo_eq_closed hread
  have hitems := h.items_of_read hp hi
  rw [hnil] at hitems
  refine ⟨?_, hnil⟩
  rw [State.expected]
  cases hwrote : s.wrote i with
  | none => rfl
  | some c =>
      rw [hwrote] at hitems
      exact absurd hitems.symm (text_ne_nil c)

/-- The counter of child `i` comes back whole. -/
theorem Contents.expected_of_done (h : Contents n s) (hp : s.parent = .read i) (hi : i < n)
    {p : Channel capacity} {buf : List UInt8}
    (hread : (s.pipes i).readUpTo (bufferSize - 1) = .done (buf, p)) :
    count buf = s.expected i ∧ p.buffer.items = [] := by
  have hitems := h.items_of_read hp hi
  rw [State.expected]
  cases hwrote : s.wrote i with
  | none =>
      rw [hwrote] at hitems
      rw [Pipe.readUpTo_nil hitems] at hread
      split at hread <;> cases hread
  | some c =>
      rw [hwrote, Option.map_some, Option.getD_some] at hitems
      have hlength : (s.pipes i).buffer.items.length ≤ bufferSize - 1 := by
        rw [hitems]
        exact (length_text_le c).trans (by decide)
      rw [Pipe.readUpTo_all (hitems ▸ text_ne_nil c) hlength] at hread
      obtain ⟨hbuf, hp'⟩ := Prod.mk.inj (Transfer.done.inj hread)
      rw [← hbuf, hitems, ← hp', count_text]
      exact ⟨rfl, rfl⟩

theorem Contents.parentMove (h : Contents n s) (hends : Ends n s) (hmove : ParentMove n s t) :
    Contents n t := by
  have hrange := hends.inRange
  cases hmove with
  | pipe i hp hi => exact h.pipe hends hp
  | forked i hp | closed i hp =>
      exact h.keep (fun _ _ => by rw [hp]; rfl) (by rw [hp]; rfl) rfl rfl (fun _ => rfl) fun _ => id
  | fork i hp =>
      have hnew : s.children i = .absent := (hends.absent i).mpr (by rw [hp]; exact le_rfl)
      exact h.keep (fun _ _ => by rw [hp]; rfl) (by rw [hp]; rfl) rfl rfl (fun _ => rfl)
        fun _ => of_setChild (P := fun c => c.finished = false) fun _ => by rw [hnew]; rfl
  | closeWrite i hp =>
      exact h.keep (fun _ _ => by rw [hp]; rfl) (by rw [hp]; rfl) rfl rfl (setPipe_buffer rfl)
        fun _ => id
  | noChild i hp =>
      exact h.keep (fun _ _ => by rw [hp]; rfl) (by rw [hp]; rfl) rfl rfl (fun _ => rfl) fun _ => id
  | waited i hp =>
      exact h.keep (fun k _ => by rw [hp]; exact decide_eq_true (Nat.zero_le k)) (by rw [hp]; rfl)
        rfl rfl (fun _ => rfl) fun _ => id
  | readNone i hp hi hread =>
      obtain ⟨hexpected, hnil⟩ := h.expected_of_closed hp hi hread
      have hkeep := h.read hp hexpected.symm hnil
      rwa [State.setPipe, Function.update_eq_self] at hkeep
  | read i buf p hp hi hread =>
      obtain ⟨hexpected, hnil⟩ := h.expected_of_done hp hi hread
      exact h.read hp hexpected hnil
  | collected i hp hi =>
      rw [hp] at hrange
      have hin : i = n := Nat.le_antisymm hrange (not_lt.mp hi)
      refine h.keep (fun k hk => ?_) (by rw [hp, hin]; rfl) rfl rfl (fun _ => rfl) fun _ => id
      rw [hp, hin]
      exact (decide_eq_false (not_le.mpr hk)).symm
  | closeRead i hp =>
      exact h.keep (fun k _ => by rw [hp]; rfl) (by rw [hp]; rfl) rfl rfl (setPipe_buffer rfl)
        fun _ => id

theorem Contents.reap (h : Contents n s) (hp : s.parent = .wait j) :
    Contents n { s.setChild i .reaped with parent := .wait (j + 1) } :=
  h.keep (fun _ _ => by rw [hp]; rfl) (by rw [hp]; rfl) rfl rfl (fun _ => rfl)
    fun _ => of_setChild (P := fun c => c.finished = false) (c := .reaped) nofun

end ContentsSteps

structure Invariant (n : ℕ) (s : State capacity) : Prop where
  ends : Ends n s
  contents : Contents n s

section Runs
variable {n : ℕ} {s t : State capacity} {a : Action}

theorem ParentMove.not_failed (h : ParentMove n s t) : s.parent ≠ .failed := by
  cases h with
  | pipe i hp | forked i hp | fork i hp | closeWrite i hp | closed i hp | noChild i hp
  | waited i hp | readNone i hp | read i buf p hp | collected i hp | closeRead i hp =>
      rw [hp]
      exact nofun

theorem Move.failed_of_failed (h : Move n s a t) (hfailed : s.parent = .failed) :
    t.parent = .failed := by
  cases h with
  | parent o t hmove => exact absurd hfailed hmove.not_failed
  | failed t ht => exact ht
  | child i a t hmove => rw [hmove.childStep.parent, hfailed]
  | reap i j hp =>
      rw [hfailed] at hp
      cases hp

theorem Invariant.running (h : Invariant n s) : s.parent ≠ .failed := by
  intro hfailed
  have hrange := h.ends.inRange
  rw [hfailed] at hrange
  exact hrange

/-- Unless the parent gives up. -/
theorem Move.invariant (hmove : Move n s a t) (h : Invariant n s) :
    a = .call .parent .failure ∧ t.parent = .failed ∨ Invariant n t := by
  obtain ⟨hends, hcontents⟩ := h
  cases hmove with
  | parent o t hmove => exact .inr ⟨hends.parentMove hmove, hcontents.parentMove hends hmove⟩
  | failed t ht => exact .inl ⟨rfl, ht⟩
  | child i a t hmove =>
      exact .inr ⟨hends.childStep hmove.childStep, hcontents.childMove hends hmove⟩
  | reap i j hp hj hi => exact .inr ⟨hends.reap hp hj hi, hcontents.reap hp⟩

theorem invariant_init (n : ℕ) : Invariant n ({} : State capacity) :=
  ⟨ends_init n, contents_init n⟩

/-- A fact about the schedule and the state, as long as the parent has not given up. -/
theorem invariant_history {clockChecked : Bool} {P : List Action → State capacity → Prop}
    {as : List Action}
    (h : (system capacity clockChecked n).Run as (system capacity clockChecked n).init s)
    (nil : P [] {}) (snoc : ∀ as a s t, Invariant n s → Invariant n t → Move n s a t → P as s →
      P (as ++ [a]) t) : s.parent = .failed ∨ Invariant n s ∧ P as s := by
  have hinit : ({} : State capacity).parent = .failed ∨
      Invariant n ({} : State capacity) ∧ P [] {} := .inr ⟨invariant_init n, nil⟩
  refine h.history (P := fun as s => s.parent = .failed ∨ Invariant n s ∧ P as s) hinit ?_
  intro as a s t hs hstep
  have hmove := tick_move hstep
  rcases hs with hfailed | ⟨hinv, hP⟩
  · exact .inl (hmove.failed_of_failed hfailed)
  · rcases hmove.invariant hinv with ⟨-, hfailed⟩ | hinv'
    · exact .inl hfailed
    · exact .inr ⟨hinv', snoc as a s t hinv hinv' hmove hP⟩

end Runs

end MicrokernelBenchmark.ProcessFairness
