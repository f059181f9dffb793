import Mathlib.Data.PNat.Basic

/-!
# The children of a process

A table of the children that a process has made and not yet reaped. A signal to -1
goes to all of them, and a wait for -1 takes any one; a wait for a pid which no child
has fails at once. Only a child of a kind which is `free` ends without a signal. A new
child has a pid which none of the others has.
-/
namespace MicrokernelBenchmark.ChildTable

/-- The value of `fork` in the parent. -/
def pidT : Option ℕ+ → ℤ
  | some p => p
  | none => -1

structure Child (K : Type*) where
  pid : ℕ+
  kind : K
  signalled : Bool := false
  ended : Bool := false
deriving DecidableEq, Repr

abbrev Table (K : Type*) := List (Child K)

variable {K : Type*}

def names (pid : ℤ) (c : Child K) : Prop := pid = c.pid ∨ pid = -1

instance (pid : ℤ) (c : Child K) : Decidable (names pid c) := inferInstanceAs (Decidable (_ ∨ _))

def fork (kind : K) (o : Option ℕ+) (cs : Table K) : Option (Table K) :=
  match o with
  | none => some cs
  | some p => if ∀ c ∈ cs, c.pid ≠ p then some (cs ++ [{ pid := p, kind }]) else none

def Child.signal (pid : ℤ) (c : Child K) : Child K :=
  if names pid c then { c with signalled := true } else c

def kill (pid : ℤ) (cs : Table K) : Table K := cs.map (Child.signal pid)

/-- The outcome is the pid of the child which is reaped. -/
def waitpid (pid : ℤ) (o : Option ℕ+) (cs : Table K) : Option (Table K) :=
  match o with
  | none => if ∀ c ∈ cs, ¬ names pid c then some cs else none
  | some p =>
      if ∃ c ∈ cs, c.pid = p ∧ names pid c ∧ c.ended = true then some (cs.filter (·.pid ≠ p))
      else none

/-- Whether a child may end. -/
def Child.Ending (free : K → Bool) (c : Child K) : Prop :=
  c.ended = false ∧ (free c.kind = true ∨ c.signalled = true)

instance (free : K → Bool) (c : Child K) : Decidable (c.Ending free) :=
  inferInstanceAs (Decidable (_ ∧ _))

def Child.finish (free : K → Bool) (p : ℕ+) (c : Child K) : Child K :=
  if c.pid = p ∧ c.Ending free then { c with ended := true } else c

def finish (free : K → Bool) (p : ℕ+) (cs : Table K) : Option (Table K) :=
  if ∃ c ∈ cs, c.pid = p ∧ c.Ending free then some (cs.map (Child.finish free p)) else none

/-- The number of the children that go on. -/
def running (cs : Table K) : ℕ := cs.countP (·.ended = false)

section
variable {cs ds : Table K} {c d : Child K} {pid : ℤ} {o : Option ℕ+} {p : ℕ+} {free : K → Bool}

@[simp] theorem pid_signal : (c.signal pid).pid = c.pid := by
  rw [Child.signal]
  split <;> rfl

@[simp] theorem kind_signal : (c.signal pid).kind = c.kind := by
  rw [Child.signal]
  split <;> rfl

@[simp] theorem pid_finish : (c.finish free p).pid = c.pid := by
  rw [Child.finish]
  split <;> rfl

@[simp] theorem kind_finish : (c.finish free p).kind = c.kind := by
  rw [Child.finish]
  split <;> rfl

@[simp] theorem signalled_finish : (c.finish free p).signalled = c.signalled := by
  rw [Child.finish]
  split <;> rfl

/-- A child of a kind which is not free goes on until it is signalled. -/
theorem finish_eq_self (hfree : free c.kind = false) (hc : c.signalled = false) :
    c.finish free p = c := by
  rw [Child.finish, if_neg]
  rintro ⟨-, -, h | h⟩
  · rw [hfree] at h
    cases h
  · rw [hc] at h
    cases h

theorem mem_fork {kind : K} (h : fork kind o cs = some ds) :
    c ∈ ds ↔ c ∈ cs ∨ ∃ p, o = some p ∧ c = { pid := p, kind } := by
  cases o with
  | none =>
      rw [← Option.some.inj h]
      simp
  | some p =>
      obtain ⟨-, h⟩ := Option.ite_none_right_eq_some.mp h
      rw [← Option.some.inj h]
      simp

theorem mem_finish (h : finish free p cs = some ds) (hd : d ∈ ds) :
    ∃ c ∈ cs, d = c.finish free p := by
  obtain ⟨-, h⟩ := Option.ite_none_right_eq_some.mp h
  rw [← Option.some.inj h] at hd
  obtain ⟨c, hc, rfl⟩ := List.mem_map.mp hd
  exact ⟨c, hc, rfl⟩

theorem finish_mem (h : finish free p cs = some ds) (hc : c ∈ cs) : c.finish free p ∈ ds := by
  obtain ⟨-, h⟩ := Option.ite_none_right_eq_some.mp h
  rw [← Option.some.inj h]
  exact List.mem_map_of_mem hc

theorem mem_kill (hd : d ∈ kill pid cs) : ∃ c ∈ cs, d = c.signal pid := by
  obtain ⟨c, hc, rfl⟩ := List.mem_map.mp hd
  exact ⟨c, hc, rfl⟩

/-- Whom a signal names has been signalled. -/
theorem signalled_of_mem_kill (hd : d ∈ kill pid cs) (hpid : names pid d) :
    d.signalled = true := by
  obtain ⟨c, -, rfl⟩ := mem_kill hd
  have hnames : names pid c := by rwa [names, pid_signal] at hpid
  rw [Child.signal, if_pos hnames]

/-- A wait takes no child into the table, and leaves none of those that it names singly. -/
theorem mem_waitpid (h : waitpid pid o cs = some ds) (hc : c ∈ ds) :
    c ∈ cs ∧ pid ≠ c.pid := by
  cases o with
  | none =>
      obtain ⟨hnone, h⟩ := Option.ite_none_right_eq_some.mp h
      rw [← Option.some.inj h] at hc
      exact ⟨hc, fun hpid => hnone c hc (.inl hpid)⟩
  | some p =>
      obtain ⟨⟨d, -, hpid, hnames, -⟩, h⟩ := Option.ite_none_right_eq_some.mp h
      rw [← Option.some.inj h, List.mem_filter] at hc
      refine ⟨hc.1, fun hc' => ?_⟩
      rcases hnames with hd | hd
      · have hpids : (c.pid : ℤ) = d.pid := hc'.symm.trans hd
        have hne : c.pid ≠ p := by simpa using hc.2
        exact hne ((PNat.coe_inj.mp (by exact_mod_cast hpids)).trans hpid)
      · have hpos : (0 : ℤ) < c.pid := by exact_mod_cast c.pid.pos
        omega

theorem running_kill : running (kill pid cs) = running cs := by
  rw [running, running, kill, List.countP_map]
  congr 1
  funext c
  rw [Function.comp_apply, Child.signal]
  split <;> rfl

theorem running_waitpid_le (h : waitpid pid o cs = some ds) : running ds ≤ running cs := by
  cases o with
  | none =>
      obtain ⟨-, h⟩ := Option.ite_none_right_eq_some.mp h
      rw [← Option.some.inj h]
  | some p =>
      obtain ⟨-, h⟩ := Option.ite_none_right_eq_some.mp h
      rw [← Option.some.inj h]
      exact List.filter_sublist.countP_le

theorem running_finish_le (cs : Table K) : running (cs.map (Child.finish free p)) ≤ running cs := by
  rw [running, running, List.countP_map]
  refine List.countP_mono_left fun c _ hc => ?_
  rw [Function.comp_apply, Child.finish] at hc
  split at hc
  · cases hc
  · exact hc

theorem running_finish_lt (h : finish free p cs = some ds) : running ds < running cs := by
  obtain ⟨⟨c, hc, hpid, hending⟩, h⟩ := Option.ite_none_right_eq_some.mp h
  obtain ⟨front, rear, rfl⟩ := List.append_of_mem hc
  rw [← Option.some.inj h, List.map_append, List.map_cons, Child.finish, if_pos ⟨hpid, hending⟩]
  have hfront : running (front.map (Child.finish free p)) ≤ running front := running_finish_le front
  have hrear : running (rear.map (Child.finish free p)) ≤ running rear := running_finish_le rear
  unfold running at hfront hrear ⊢
  rw [List.countP_append, List.countP_append, List.countP_cons_of_neg (by simp),
    List.countP_cons_of_pos (by simpa using hending.1)]
  omega

/-- A wait for children which have all been signalled comes to its end: it can return, or
one of them can end. -/
theorem wait_goes_on (free : K → Bool) (h : ∀ c ∈ cs, names pid c → c.signalled = true) :
    (∃ o, (waitpid pid o cs).isSome) ∨ ∃ p, (finish free p cs).isSome := by
  by_cases hnone : ∀ c ∈ cs, ¬ names pid c
  · left
    refine ⟨none, ?_⟩
    rw [waitpid, if_pos hnone]
    rfl
  · push Not at hnone
    obtain ⟨c, hc, hnames⟩ := hnone
    cases hended : c.ended with
    | true =>
        left
        refine ⟨some c.pid, ?_⟩
        rw [waitpid, if_pos ⟨c, hc, rfl, hnames, hended⟩]
        rfl
    | false =>
        right
        refine ⟨c.pid, ?_⟩
        rw [finish, if_pos ⟨c, hc, rfl, hended, .inr (h c hc hnames)⟩]
        rfl

end

end MicrokernelBenchmark.ChildTable
