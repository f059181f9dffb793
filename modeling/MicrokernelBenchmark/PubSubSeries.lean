import MicrokernelBenchmark.PubSubStatistics
import MicrokernelBenchmark.PubSubTest

/-!
# Tests one after the other

The arrays, the mutex and the counter of the publish and subscribe benchmarks are
static, so a test begins with what the one before has left in them. `finished` keeps
the states in which the tests have printed; no step reads it.
-/
namespace MicrokernelBenchmark.PubSubSeries
open TransitionSystem TransitionSystem.System PubSubTest
open PubSubStatistics (Statistics statistics)

structure Series where
  test : PubSubTest.State
  printed : List Statistics := []
  finished : List PubSubTest.State := []

/-- The static variables at the start of the next test. -/
def restarted (u : PubSubTest.State) : PubSubTest.State :=
  { u with main := .new, i := 0, recvCount := 0, arrivals := [] }

def Series.first (count : ℕ) : Series := { test := (run count cleared cleared).init }

def Series.move (count : ℕ) (a : PubSubTest.Action) (s : Series) : Option Series :=
  (PubSubTest.tick count a s.test).map fun u => { s with test := u }

def Series.print (count : ℕ) (s : Series) : Option Series :=
  if s.test.main = .statistics then
    some {
      test := restarted s.test
      printed := s.printed ++ [statistics count s.test.sendTimes s.test.recvTimes]
      finished := s.finished ++ [s.test] }
  else none

/-- Tests one after the other, each begun with the arrays that the one before has left, and
the arrays behind the last. -/
inductive Tests (count : ℕ) : List PubSubTest.State → (ℕ → ℤ) → (ℕ → ℤ) → Prop
  | none : Tests count [] cleared cleared
  | next {us : List PubSubTest.State} {sendTimes recvTimes : ℕ → ℤ} (u : PubSubTest.State) :
      Tests count us sendTimes recvTimes → (run count sendTimes recvTimes).Reachable u →
      u.main = .statistics → Tests count (us ++ [u]) u.sendTimes u.recvTimes

/-- The send times of all tests so far, those of each finished test being one block. -/
def Series.sends (count : ℕ) (s : Series) : List ℤ :=
  (s.finished.flatMap fun u => (List.range count).map u.sendTimes) ++ s.test.sends

/-- What each test begins with and prints. -/
structure Fresh (count : ℕ) (s : Series) : Prop where
  tests : ∃ sendTimes recvTimes, Tests count s.finished sendTimes recvTimes ∧
    (run count sendTimes recvTimes).Reachable s.test
  printed : s.printed = s.finished.map fun u => statistics count u.sendTimes u.recvTimes

section
variable {count : ℕ} {u : PubSubTest.State} {s t : Series}

theorem reachable_invariant {sendTimes recvTimes : ℕ → ℤ}
    (h : (run count sendTimes recvTimes).Reachable u) : Invariant count u :=
  let ⟨_, hrun⟩ := h
  invariant_of_run hrun

/-- What a finished test leaves is a beginning: the mutex is free and the callback at rest. -/
theorem restarted_eq (h : Invariant count u) (hm : u.main = .statistics) :
    restarted u = (run count u.sendTimes u.recvTimes).init := by
  have hrunning := h.quiet hm
  have hcallback := h.stopped hrunning
  have hmutex : u.recvMutex = none :=
    h.mutex_eq_none (by rw [hm]; rfl) (by rw [hcallback]; rfl)
  rw [restarted, hcallback, hmutex, hrunning]
  rfl

theorem Tests.mem {us : List PubSubTest.State} {sendTimes recvTimes : ℕ → ℤ}
    (h : Tests count us sendTimes recvTimes) (hu : u ∈ us) :
    Invariant count u ∧ u.main = .statistics := by
  induction h with
  | none => cases hu
  | next v _ hreached hm ih =>
      rcases List.mem_append.mp hu with hu | hu
      · exact ih hu
      · rw [List.mem_singleton.mp hu]
        exact ⟨reachable_invariant hreached, hm⟩

theorem fresh_first (count : ℕ) : Fresh count (.first count) where
  tests := ⟨cleared, cleared, .none, [], run_nil.mpr rfl⟩
  printed := rfl

theorem Fresh.move {a : PubSubTest.Action} (h : Fresh count s) (ht : s.move count a = some t) :
    Fresh count t := by
  obtain ⟨u, hu, rfl⟩ := Option.map_eq_some_iff.mp ht
  obtain ⟨sendTimes, recvTimes, htests, as, hrun⟩ := h.tests
  exact ⟨⟨sendTimes, recvTimes, htests, as ++ [a], run_snoc.mpr ⟨_, hrun, hu⟩⟩, h.printed⟩

theorem Fresh.print (h : Fresh count s) (ht : s.print count = some t) : Fresh count t := by
  obtain ⟨hm, ht⟩ := Option.ite_none_right_eq_some.mp ht
  obtain ⟨sendTimes, recvTimes, htests, hreached⟩ := h.tests
  rw [← Option.some.inj ht]
  constructor
  · refine ⟨_, _, .next s.test htests hreached hm, [], run_nil.mpr ?_⟩
    exact (restarted_eq (reachable_invariant hreached) hm).symm
  · simp only [h.printed, List.map_append, List.map_cons, List.map_nil]

theorem sends_first (count : ℕ) : (Series.first count).sends count = [] := rfl

theorem sends_move {a : PubSubTest.Action} (ht : s.move count a = some t) :
    t.sends count = s.sends count ++ a.sends := by
  obtain ⟨u, hu, rfl⟩ := Option.map_eq_some_iff.mp ht
  simp only [Series.sends, tick_sends hu, List.append_assoc]

/-- A test which prints has filled its block, and the next begins with an empty one. -/
theorem Fresh.sends_print (h : Fresh count s) (ht : s.print count = some t) :
    t.sends count = s.sends count := by
  obtain ⟨hm, ht⟩ := Option.ite_none_right_eq_some.mp ht
  obtain ⟨sendTimes, recvTimes, -, hreached⟩ := h.tests
  have hi : s.test.i = count := (reachable_invariant hreached).allPublished (by rw [hm]; rfl)
  have hblock : s.test.sends = (List.range count).map s.test.sendTimes := by
    simp [State.sends, State.stamped, hm, hi]
  rw [← Option.some.inj ht, Series.sends, Series.sends, hblock, List.flatMap_append,
    List.flatMap_singleton]
  exact List.append_nil _

theorem length_print (ht : s.print count = some t) : t.printed.length = s.printed.length + 1 := by
  obtain ⟨-, ht⟩ := Option.ite_none_right_eq_some.mp ht
  rw [← Option.some.inj ht, List.length_append, List.length_singleton]

theorem printed_move {a : PubSubTest.Action} (ht : s.move count a = some t) :
    t.printed = s.printed := by
  obtain ⟨u, -, rfl⟩ := Option.map_eq_some_iff.mp ht
  rfl

/-- A finished test has one reception for each slot of its array. -/
theorem Fresh.receptions (h : Fresh count s) (hu : u ∈ s.finished) :
    u.arrivals.map Arrival.slot = List.range count ∧
      ∀ a ∈ u.arrivals, u.recvTimes a.slot = a.time := by
  obtain ⟨sendTimes, recvTimes, htests, -⟩ := h.tests
  obtain ⟨hinv, hm⟩ := htests.mem hu
  have hcallback := hinv.stopped (hinv.quiet hm)
  have hcount : u.recvCount = count := hinv.passed (by rw [hm]; rfl)
  have hslots := hinv.slots
  rw [State.stored, hcallback, hcount] at hslots
  exact ⟨hslots, hinv.recorded⟩

end

end MicrokernelBenchmark.PubSubSeries
