import MicrokernelBenchmark.ChildTable
import MicrokernelBenchmark.PubSubSeries

/-!
# The runs of the CPU load test

`main` of `cpu_load_pubsub_test` with its children: a test without load, the fork of
the load workers, a test under load, and the end of the workers and of the broker. The
tests are the runs of `PubSubTest`. A worker counts for ever and ends by a signal only;
the broker may end at any time, also without having become the broker program.

`i` is the variable of the loop in `stop_load`. What a signal to -1 does to processes
which are no children is left out.
-/
namespace MicrokernelBenchmark.CpuLoadRuns
open TransitionSystem TransitionSystem.System PubSubSeries ChildTable

def loadProcs : ℕ := 2

inductive Kind where
  | broker
  | worker
deriving DecidableEq, Repr

/-- The kind which ends by itself. -/
def Kind.free : Kind → Bool
  | .broker => true
  | .worker => false

inductive Pc where
  | startBroker
  | baseline
  | startLoad
  | underLoad
  | killLoad
  | waitLoad
  | killBroker
  | waitBroker
  | returned
  | exited
deriving DecidableEq, Repr

structure State where
  pc : Pc := .startBroker
  brokerPid : ℤ := 0
  loadPids : List ℤ := []
  i : ℕ := 0
  children : Table Kind := []
  series : Series

inductive Action where
  | startBroker (o : Option ℕ+)
  | startLoad (o : Option ℕ+)
  | test (a : PubSubTest.Action)
  | print
  | killLoad
  | waitLoad (o : Option ℕ+)
  | killBroker
  | waitBroker (o : Option ℕ+)
  | ends (p : ℕ+)

/-- The head of the loop in `start_load`. -/
def State.startNext (procs : ℕ) (s : State) : State :=
  { s with pc := if s.loadPids.length < procs then .startLoad else .underLoad }

/-- The head of the loop in `stop_load`, and the test of `stop_broker` behind it. -/
def State.stopNext (procs : ℕ) (s : State) : State :=
  { s with pc :=
      if s.i < procs then .killLoad else if 0 < s.brokerPid then .killBroker else .returned }

/-- What follows the test that has printed. -/
def State.testNext (procs : ℕ) (s : State) : State :=
  if s.pc = .baseline then s.startNext procs else s.stopNext procs

def Pc.testing (pc : Pc) : Prop := pc = .baseline ∨ pc = .underLoad

instance (pc : Pc) : Decidable pc.testing := inferInstanceAs (Decidable (_ ∨ _))

def tick (procs count : ℕ) : Action → State → Option State
  | .startBroker o, s =>
      if s.pc = .startBroker then
        (fork .broker o s.children).map fun cs =>
          { s with pc := .baseline, brokerPid := pidT o, children := cs }
      else none
  | .startLoad o, s =>
      if s.pc = .startLoad then
        (fork .worker o s.children).map fun cs =>
          { s with loadPids := s.loadPids ++ [pidT o], children := cs }.startNext procs
      else none
  | .test a, s =>
      if s.pc.testing then
        (s.series.move count a).map fun u =>
          { s with pc := if u.test.main = .exited then .exited else s.pc, series := u }
      else none
  | .print, s =>
      if s.pc.testing then
        (s.series.print count).map fun u => { s with series := u }.testNext procs
      else none
  | .killLoad, s =>
      if s.pc = .killLoad then
        s.loadPids[s.i]?.map fun pid =>
          { s with pc := .waitLoad, children := kill pid s.children }
      else none
  | .waitLoad o, s =>
      if s.pc = .waitLoad then
        s.loadPids[s.i]?.bind fun pid =>
          (waitpid pid o s.children).map fun cs =>
            { s with i := s.i + 1, children := cs }.stopNext procs
      else none
  | .killBroker, s =>
      if s.pc = .killBroker then
        some { s with pc := .waitBroker, children := kill s.brokerPid s.children }
      else none
  | .waitBroker o, s =>
      if s.pc = .waitBroker then
        (waitpid s.brokerPid o s.children).map fun cs =>
          { s with pc := .returned, children := cs }
      else none
  | .ends p, s => (finish Kind.free p s.children).map fun cs => { s with children := cs }

def main (procs count : ℕ) : System Action State :=
  ⟨{ series := .first count }, tick procs count⟩

/-- What the forks of `start_load` have returned. -/
def forked (as : List Action) : List (Option ℕ+) :=
  as.filterMap fun a => match a with | .startLoad o => some o | _ => none

section Children
variable {procs count : ℕ} {as : List Action} {s t : State} {cs ds : Table Kind} {p : ℕ+}

/-- Every worker that has been started goes on, and none has been signalled. -/
structure Loaded (pids : List ℤ) (cs : Table Kind) : Prop where
  alive : ∀ p : ℕ+, (p : ℤ) ∈ pids → { pid := p, kind := .worker } ∈ cs
  quiet : ∀ c ∈ cs, c.kind = .worker → c.signalled = false ∧ c.ended = false

/-- Whom a wait for the pid is for has been signalled. -/
def Awaited (pid : ℤ) (cs : Table Kind) : Prop := ∀ c ∈ cs, names pid c → c.signalled = true

/-- What is known of the load and of the signals, place by place. -/
def Place (procs : ℕ) (s : State) : Pc → Prop
  | .startBroker => s.children = [] ∧ s.loadPids = [] ∧ s.i = 0
  | .baseline => s.loadPids = [] ∧ s.i = 0 ∧ Loaded s.loadPids s.children
  | .startLoad => s.loadPids.length < procs ∧ s.i = 0 ∧ Loaded s.loadPids s.children
  | .underLoad => s.loadPids.length = procs ∧ s.i = 0 ∧ Loaded s.loadPids s.children
  | .killLoad => s.loadPids.length = procs ∧ s.i < procs
  | .waitLoad => s.loadPids.length = procs ∧
      ∃ pid, s.loadPids[s.i]? = some pid ∧ Awaited pid s.children
  | .killBroker => s.loadPids.length = procs ∧ s.i = procs ∧ 0 < s.brokerPid
  | .waitBroker => s.loadPids.length = procs ∧ s.i = procs ∧ Awaited s.brokerPid s.children
  | .returned => s.children = []
  | .exited => (s.loadPids = [] ∨ s.loadPids.length = procs) ∧ s.i = 0 ∧
      Loaded s.loadPids s.children

/-- The broker, or one of the workers which `stop_load` has still to reap. -/
def Recorded (brokerPid : ℤ) (pids : List ℤ) (c : Child Kind) : Prop :=
  c.kind = .broker ∧ (c.pid : ℤ) = brokerPid ∨ c.kind = .worker ∧ (c.pid : ℤ) ∈ pids

structure Holds (procs count : ℕ) (as : List Action) (s : State) : Prop where
  place : Place procs s s.pc
  recorded : ∀ c ∈ s.children, Recorded s.brokerPid (s.loadPids.drop s.i) c
  pids : s.loadPids = (forked as).map pidT
  fresh : Fresh count s.series

theorem Loaded.fork {o : Option ℕ+} {pids : List ℤ} (h : Loaded pids cs)
    (ht : fork .worker o cs = some ds) : Loaded (pids ++ [pidT o]) ds where
  alive := by
    intro p hp
    refine (mem_fork ht).mpr ?_
    rcases List.mem_append.mp hp with hp | hp
    · exact .inl (h.alive p hp)
    · rw [List.mem_singleton] at hp
      cases o with
      | none =>
          have hpos : (0 : ℤ) < p := by exact_mod_cast p.pos
          rw [hp] at hpos
          cases hpos
      | some q =>
          have hpids : (p : ℤ) = q := hp
          have hpq : p = q := PNat.coe_inj.mp (by exact_mod_cast hpids)
          exact .inr ⟨q, rfl, by rw [hpq]⟩
  quiet := by
    intro c hc hkind
    rcases (mem_fork ht).mp hc with hc | ⟨q, -, rfl⟩
    · exact h.quiet c hc hkind
    · exact ⟨rfl, rfl⟩

theorem Loaded.finish {pids : List ℤ} (h : Loaded pids cs)
    (ht : finish Kind.free p cs = some ds) : Loaded pids ds where
  alive := by
    intro q hq
    have hmem := finish_mem ht (h.alive q hq)
    rw [finish_eq_self rfl rfl] at hmem
    exact hmem
  quiet := by
    intro c hc hkind
    obtain ⟨d, hd, rfl⟩ := mem_finish ht hc
    rw [kind_finish] at hkind
    have hquiet := h.quiet d hd hkind
    have hfree : Kind.free d.kind = false := by rw [hkind]; rfl
    rw [finish_eq_self hfree hquiet.1]
    exact hquiet

theorem Awaited.finish {pid : ℤ} (h : Awaited pid cs)
    (ht : finish Kind.free p cs = some ds) : Awaited pid ds := by
  intro d hd hnames
  obtain ⟨c, hc, rfl⟩ := mem_finish ht hd
  rw [names, pid_finish] at hnames
  rw [signalled_finish]
  exact h c hc hnames

theorem finish_nil (ht : finish Kind.free p [] = some ds) : ds = [] := by
  obtain ⟨⟨c, hc, -⟩, -⟩ := Option.ite_none_right_eq_some.mp ht
  cases hc

theorem place_finish (h : Place procs s s.pc) (ht : finish Kind.free p s.children = some cs) :
    Place procs { s with children := cs } s.pc := by
  cases hpc : s.pc with
  | startBroker =>
      rw [hpc] at h
      rw [h.1] at ht
      exact ⟨finish_nil ht, h.2⟩
  | baseline | startLoad | underLoad | exited =>
      rw [hpc] at h
      exact ⟨h.1, h.2.1, h.2.2.finish ht⟩
  | killLoad | killBroker =>
      rw [hpc] at h
      exact h
  | waitLoad =>
      rw [hpc] at h
      obtain ⟨hlength, pid, hpid, hawaited⟩ := h
      exact ⟨hlength, pid, hpid, hawaited.finish ht⟩
  | waitBroker =>
      rw [hpc] at h
      exact ⟨h.1, h.2.1, h.2.2.finish ht⟩
  | returned =>
      rw [hpc] at h
      have hnone : s.children = [] := h
      rw [hnone] at ht
      exact finish_nil ht

theorem place_startNext (hlength : s.loadPids.length ≤ procs) (hi : s.i = 0)
    (h : Loaded s.loadPids s.children) :
    Place procs (s.startNext procs) (s.startNext procs).pc := by
  by_cases hlt : s.loadPids.length < procs
  · rw [State.startNext, if_pos hlt]
    exact ⟨hlt, hi, h⟩
  · rw [State.startNext, if_neg hlt]
    exact ⟨by dsimp only; omega, hi, h⟩

/-- Behind the last worker only the broker is left, if there is one. -/
theorem place_stopNext (hlength : s.loadPids.length = procs) (hi : s.i ≤ procs)
    (h : ∀ c ∈ s.children, Recorded s.brokerPid (s.loadPids.drop s.i) c) :
    Place procs (s.stopNext procs) (s.stopNext procs).pc := by
  by_cases hlt : s.i < procs
  · rw [State.stopNext, if_pos hlt]
    exact ⟨hlength, hlt⟩
  · rw [State.stopNext, if_neg hlt]
    have hlast : s.i = procs := by omega
    by_cases hpid : 0 < s.brokerPid
    · rw [if_pos hpid]
      exact ⟨hlength, hlast, hpid⟩
    · rw [if_neg hpid]
      refine List.eq_nil_iff_forall_not_mem.mpr fun c hc => ?_
      have hpos : (0 : ℤ) < c.pid := by exact_mod_cast c.pid.pos
      rcases h c hc with ⟨-, hbroker⟩ | ⟨-, hworker⟩
      · omega
      · rw [hlast, ← hlength, List.drop_length] at hworker
        cases hworker

theorem holds_init (procs count : ℕ) : Holds procs count [] (main procs count).init where
  place := ⟨rfl, rfl, rfl⟩
  recorded := nofun
  pids := rfl
  fresh := fresh_first count

theorem forked_append (as bs : List Action) : forked (as ++ bs) = forked as ++ forked bs :=
  List.filterMap_append

theorem Holds.pids_other {a : Action} (h : Holds procs count as s) (ha : forked [a] = []) :
    s.loadPids = (forked (as ++ [a])).map pidT := by
  rw [forked_append, ha, List.append_nil]
  exact h.pids

theorem Holds.startBroker {o : Option ℕ+} (h : Holds procs count as s) (hpc : s.pc = .startBroker)
    (ht : fork .broker o s.children = some cs) :
    Holds procs count (as ++ [.startBroker o])
      { s with pc := .baseline, brokerPid := pidT o, children := cs } := by
  have hplace := h.place
  rw [hpc] at hplace
  obtain ⟨hchildren, hpids, hi⟩ := hplace
  have hbroker : ∀ c ∈ cs, c.kind = .broker ∧ (c.pid : ℤ) = pidT o := by
    intro c hc
    rcases (mem_fork ht).mp hc with hc | ⟨p, rfl, rfl⟩
    · rw [hchildren] at hc
      cases hc
    · exact ⟨rfl, rfl⟩
  refine ⟨⟨hpids, hi, ?alive, ?quiet⟩, fun c hc => .inl (hbroker c hc), h.pids_other rfl,
    h.fresh⟩
  case alive =>
    intro p hp
    rw [hpids] at hp
    cases hp
  case quiet =>
    intro c hc hkind
    rw [(hbroker c hc).1] at hkind
    cases hkind

theorem Holds.startLoad {o : Option ℕ+} (h : Holds procs count as s) (hpc : s.pc = .startLoad)
    (ht : fork .worker o s.children = some cs) :
    Holds procs count (as ++ [.startLoad o])
      ({ s with loadPids := s.loadPids ++ [pidT o], children := cs }.startNext procs) := by
  have hplace := h.place
  rw [hpc] at hplace
  obtain ⟨hlt, hi, hloaded⟩ := hplace
  refine ⟨place_startNext ?_ hi (hloaded.fork ht), ?recorded, ?loads, h.fresh⟩
  · rw [List.length_append, List.length_singleton]
    exact hlt
  case recorded =>
    intro c hc
    rw [State.startNext, hi, List.drop_zero]
    rcases (mem_fork ht).mp hc with hc | ⟨p, rfl, rfl⟩
    · have hrecorded := h.recorded c hc
      rw [hi, List.drop_zero] at hrecorded
      exact hrecorded.imp_right fun hworker =>
        ⟨hworker.1, List.mem_append_left _ hworker.2⟩
    · exact .inr ⟨rfl, List.mem_append_right _ List.mem_cons_self⟩
  case loads =>
    rw [forked_append, List.map_append, ← h.pids]
    rfl

theorem Holds.test {a : PubSubTest.Action} {u : Series} (h : Holds procs count as s)
    (hpc : s.pc.testing) (hu : s.series.move count a = some u) :
    Holds procs count (as ++ [.test a])
      { s with pc := if u.test.main = .exited then .exited else s.pc, series := u } := by
  refine ⟨?_, h.recorded, h.pids_other rfl, h.fresh.move hu⟩
  have hplace := h.place
  dsimp only
  rcases hpc with hpc | hpc
  · rw [hpc] at hplace ⊢
    split
    · exact ⟨.inl hplace.1, hplace.2⟩
    · exact hplace
  · rw [hpc] at hplace ⊢
    split
    · exact ⟨.inr hplace.1, hplace.2⟩
    · exact hplace

theorem Holds.print {u : Series} (h : Holds procs count as s) (hpc : s.pc.testing)
    (hu : s.series.print count = some u) :
    Holds procs count (as ++ [.print]) ({ s with series := u }.testNext procs) := by
  have hplace := h.place
  have hloads := h.pids_other (a := .print) rfl
  rcases hpc with hpc | hpc
  · rw [hpc] at hplace
    obtain ⟨hpids, hi, hloaded⟩ := hplace
    rw [State.testNext, if_pos hpc]
    refine ⟨place_startNext ?_ hi hloaded, h.recorded, hloads, h.fresh.print hu⟩
    rw [hpids]
    exact Nat.zero_le _
  · rw [hpc] at hplace
    obtain ⟨hlength, hi, -⟩ := hplace
    have hother : s.pc ≠ .baseline := by
      rw [hpc]
      nofun
    rw [State.testNext, if_neg hother]
    refine ⟨place_stopNext hlength ?_ h.recorded, h.recorded, hloads, h.fresh.print hu⟩
    rw [hi]
    exact Nat.zero_le _

/-- A signal changes nothing of what is recorded. -/
theorem recorded_kill {brokerPid pid : ℤ} {pids : List ℤ}
    (h : ∀ c ∈ cs, Recorded brokerPid pids c) : ∀ c ∈ kill pid cs, Recorded brokerPid pids c := by
  intro c hc
  obtain ⟨d, hd, rfl⟩ := mem_kill hc
  rw [Recorded, kind_signal, pid_signal]
  exact h d hd

theorem Holds.waitLoad {o : Option ℕ+} {pid : ℤ} (h : Holds procs count as s)
    (hpc : s.pc = .waitLoad) (hpid : s.loadPids[s.i]? = some pid)
    (ht : waitpid pid o s.children = some cs) :
    Holds procs count (as ++ [.waitLoad o])
      ({ s with i := s.i + 1, children := cs }.stopNext procs) := by
  have hplace := h.place
  rw [hpc] at hplace
  obtain ⟨hlt, hhead⟩ := List.getElem?_eq_some_iff.mp hpid
  have hrecorded : ∀ c ∈ cs, Recorded s.brokerPid (s.loadPids.drop (s.i + 1)) c := by
    intro c hc
    obtain ⟨hchild, hother⟩ := mem_waitpid ht hc
    rcases h.recorded c hchild with hbroker | ⟨hkind, hworker⟩
    · exact .inl hbroker
    · rw [List.drop_eq_getElem_cons hlt, hhead, List.mem_cons] at hworker
      exact .inr ⟨hkind, hworker.resolve_left fun heq => hother heq.symm⟩
  exact ⟨place_stopNext hplace.1 (hplace.1 ▸ hlt) hrecorded, hrecorded, h.pids_other rfl, h.fresh⟩

theorem Holds.waitBroker {o : Option ℕ+} (h : Holds procs count as s) (hpc : s.pc = .waitBroker)
    (ht : waitpid s.brokerPid o s.children = some cs) :
    Holds procs count (as ++ [.waitBroker o]) { s with pc := .returned, children := cs } := by
  have hplace := h.place
  rw [hpc] at hplace
  have hnone : cs = [] := by
    refine List.eq_nil_iff_forall_not_mem.mpr fun c hc => ?_
    obtain ⟨hchild, hother⟩ := mem_waitpid ht hc
    rcases h.recorded c hchild with ⟨-, hbroker⟩ | ⟨-, hworker⟩
    · exact hother hbroker.symm
    · rw [hplace.2.1, ← hplace.1, List.drop_length] at hworker
      cases hworker
  rw [hnone]
  exact ⟨rfl, nofun, h.pids_other rfl, h.fresh⟩

theorem holds_tick {a : Action} (h : Holds procs count as s)
    (ht : tick procs count a s = some t) : Holds procs count (as ++ [a]) t := by
  have hplace := h.place
  cases a with
  | startBroker o =>
      obtain ⟨hpc, ht⟩ := Option.ite_none_right_eq_some.mp ht
      obtain ⟨cs, hcs, rfl⟩ := Option.map_eq_some_iff.mp ht
      exact h.startBroker hpc hcs
  | startLoad o =>
      obtain ⟨hpc, ht⟩ := Option.ite_none_right_eq_some.mp ht
      obtain ⟨cs, hcs, rfl⟩ := Option.map_eq_some_iff.mp ht
      exact h.startLoad hpc hcs
  | test a =>
      obtain ⟨hpc, ht⟩ := Option.ite_none_right_eq_some.mp ht
      obtain ⟨u, hu, rfl⟩ := Option.map_eq_some_iff.mp ht
      exact h.test hpc hu
  | print =>
      obtain ⟨hpc, ht⟩ := Option.ite_none_right_eq_some.mp ht
      obtain ⟨u, hu, rfl⟩ := Option.map_eq_some_iff.mp ht
      exact h.print hpc hu
  | killLoad =>
      obtain ⟨hpc, ht⟩ := Option.ite_none_right_eq_some.mp ht
      obtain ⟨pid, hpid, rfl⟩ := Option.map_eq_some_iff.mp ht
      rw [hpc] at hplace
      exact ⟨⟨hplace.1, pid, hpid, fun c hc => signalled_of_mem_kill hc⟩,
        recorded_kill h.recorded, h.pids_other rfl, h.fresh⟩
  | waitLoad o =>
      obtain ⟨hpc, ht⟩ := Option.ite_none_right_eq_some.mp ht
      obtain ⟨pid, hpid, ht⟩ := Option.bind_eq_some_iff.mp ht
      obtain ⟨cs, hcs, rfl⟩ := Option.map_eq_some_iff.mp ht
      exact h.waitLoad hpc hpid hcs
  | killBroker =>
      obtain ⟨hpc, ht⟩ := Option.ite_none_right_eq_some.mp ht
      rw [hpc] at hplace
      rw [← Option.some.inj ht]
      exact ⟨⟨hplace.1, hplace.2.1, fun c hc => signalled_of_mem_kill hc⟩,
        recorded_kill h.recorded, h.pids_other rfl, h.fresh⟩
  | waitBroker o =>
      obtain ⟨hpc, ht⟩ := Option.ite_none_right_eq_some.mp ht
      obtain ⟨cs, hcs, rfl⟩ := Option.map_eq_some_iff.mp ht
      exact h.waitBroker hpc hcs
  | ends p =>
      obtain ⟨cs, hcs, rfl⟩ := Option.map_eq_some_iff.mp ht
      refine ⟨place_finish hplace hcs, ?_, h.pids_other rfl, h.fresh⟩
      intro c hc
      obtain ⟨d, hd, rfl⟩ := mem_finish hcs hc
      rw [Recorded, kind_finish, pid_finish]
      exact h.recorded d hd

theorem holds_of_run (h : (main procs count).Run as (main procs count).init s) :
    Holds procs count as s :=
  h.history (holds_init procs count) fun _ _ _ _ hs ht => holds_tick hs ht

/-- In the first test there is no worker. In the second each worker that a fork has returned
is a child which has neither been signalled nor ended, and `start_load` is over. -/
theorem measured_under_load (h : (main procs count).Run as (main procs count).init s) :
    (s.pc = .baseline → forked as = [] ∧ ∀ c ∈ s.children, c.kind = .broker) ∧
    (s.pc = .underLoad → (forked as).length = procs ∧
      (∀ p, some p ∈ forked as → { pid := p, kind := .worker } ∈ s.children) ∧
      ∀ c ∈ s.children, c.kind = .worker → c.signalled = false ∧ c.ended = false) ∧
    Fresh count s.series ∧
    ∀ u ∈ s.series.finished, u.arrivals.map PubSubTest.Arrival.slot = List.range count ∧
      ∀ a ∈ u.arrivals, u.recvTimes a.slot = a.time := by
  have hholds := holds_of_run h
  have hplace := hholds.place
  have hpids := hholds.pids
  refine ⟨fun hpc => ?_, fun hpc => ?_, hholds.fresh, fun u hu => hholds.fresh.receptions hu⟩
  · rw [hpc] at hplace
    rw [hplace.1] at hpids
    refine ⟨List.map_eq_nil_iff.mp hpids.symm, fun c hc => ?_⟩
    rcases hholds.recorded c hc with hbroker | hworker
    · exact hbroker.1
    · rw [hplace.1, List.drop_nil] at hworker
      cases hworker.2
  · rw [hpc] at hplace
    obtain ⟨hlength, -, hloaded⟩ := hplace
    refine ⟨?_, fun p hp => hloaded.alive p ?_, hloaded.quiet⟩
    · rw [hpids, List.length_map] at hlength
      exact hlength
    · rw [hpids]
      exact List.mem_map_of_mem (f := pidT) hp

/-- From `stop_load` on. -/
def Pc.stopping (pc : Pc) : Prop :=
  pc = .killLoad ∨ pc = .waitLoad ∨ pc = .killBroker ∨ pc = .waitBroker ∨ pc = .returned

/-- What main has still to do there. -/
def stage (procs : ℕ) (s : State) : ℕ :=
  match s.pc with
  | .killLoad => 2 * (procs - s.i) + 2
  | .waitLoad => 2 * (procs - s.i) + 1
  | .killBroker => 2
  | .waitBroker => 1
  | _ => 0

theorem stopping_stopNext (s : State) : (s.stopNext procs).pc.stopping := by
  rw [State.stopNext]
  dsimp only
  split
  · exact .inl rfl
  · split
    · exact .inr (.inr (.inl rfl))
    · exact .inr (.inr (.inr (.inr rfl)))

theorem stage_stopNext_le (procs : ℕ) (s : State) :
    stage procs (s.stopNext procs) ≤ 2 * (procs - s.i) + 2 := by
  rw [State.stopNext, stage]
  dsimp only
  split <;> omega

theorem not_testing (h : s.pc.stopping) : ¬ s.pc.testing := by
  rintro (hpc | hpc) <;> simp [hpc, Pc.stopping] at h

/-- Each step brings the end of the program nearer. -/
theorem stopping_tick {a : Action} (h : Holds procs count as s) (hs : s.pc.stopping)
    (ht : tick procs count a s = some t) :
    t.pc.stopping ∧ running t.children + stage procs t < running s.children + stage procs s := by
  cases a with
  | startBroker o =>
      obtain ⟨hpc, -⟩ := Option.ite_none_right_eq_some.mp ht
      simp [hpc, Pc.stopping] at hs
  | startLoad o =>
      obtain ⟨hpc, -⟩ := Option.ite_none_right_eq_some.mp ht
      simp [hpc, Pc.stopping] at hs
  | test a =>
      obtain ⟨hpc, -⟩ := Option.ite_none_right_eq_some.mp ht
      exact absurd hpc (not_testing hs)
  | print =>
      obtain ⟨hpc, -⟩ := Option.ite_none_right_eq_some.mp ht
      exact absurd hpc (not_testing hs)
  | killLoad =>
      obtain ⟨hpc, ht⟩ := Option.ite_none_right_eq_some.mp ht
      obtain ⟨pid, -, rfl⟩ := Option.map_eq_some_iff.mp ht
      refine ⟨.inr (.inl rfl), ?_⟩
      rw [stage, stage, hpc]
      dsimp only
      rw [running_kill]
      omega
  | waitLoad o =>
      obtain ⟨hpc, ht⟩ := Option.ite_none_right_eq_some.mp ht
      obtain ⟨pid, hpid, ht⟩ := Option.bind_eq_some_iff.mp ht
      obtain ⟨cs, hcs, rfl⟩ := Option.map_eq_some_iff.mp ht
      refine ⟨stopping_stopNext _, ?_⟩
      have hplace := h.place
      rw [hpc] at hplace
      obtain ⟨hlt, -⟩ := List.getElem?_eq_some_iff.mp hpid
      have hle := stage_stopNext_le procs { s with i := s.i + 1, children := cs }
      have hrunning := running_waitpid_le hcs
      have hstage : stage procs s = 2 * (procs - s.i) + 1 := by rw [stage, hpc]
      have hchildren :
          (State.stopNext procs { s with i := s.i + 1, children := cs }).children = cs := rfl
      rw [hchildren, hstage]
      rw [hplace.1] at hlt
      dsimp only at hle
      omega
  | killBroker =>
      obtain ⟨hpc, ht⟩ := Option.ite_none_right_eq_some.mp ht
      rw [← Option.some.inj ht]
      refine ⟨.inr (.inr (.inr (.inl rfl))), ?_⟩
      rw [stage, stage, hpc]
      dsimp only
      rw [running_kill]
      omega
  | waitBroker o =>
      obtain ⟨hpc, ht⟩ := Option.ite_none_right_eq_some.mp ht
      obtain ⟨cs, hcs, rfl⟩ := Option.map_eq_some_iff.mp ht
      refine ⟨.inr (.inr (.inr (.inr rfl))), ?_⟩
      have hrunning := running_waitpid_le hcs
      rw [stage, stage, hpc]
      dsimp only
      omega
  | ends p =>
      obtain ⟨cs, hcs, rfl⟩ := Option.map_eq_some_iff.mp ht
      exact ⟨hs, Nat.add_lt_add_right (running_finish_lt hcs) _⟩

theorem stopping_goes_on (h : Holds procs count as s) (hs : s.pc.stopping) :
    s.pc = .returned ∨ ∃ a, (tick procs count a s).isSome := by
  have hplace := h.place
  rcases hs with hpc | hpc | hpc | hpc | hpc
  · right
    rw [hpc] at hplace
    have hi : s.i < s.loadPids.length := hplace.1 ▸ hplace.2
    exact ⟨.killLoad, by simp [tick, hpc, List.getElem?_eq_getElem hi]⟩
  · right
    rw [hpc] at hplace
    obtain ⟨-, pid, hpid, hawaited⟩ := hplace
    rcases wait_goes_on Kind.free hawaited with ⟨o, ho⟩ | ⟨p, hp⟩
    · exact ⟨.waitLoad o, by simpa [tick, hpc, hpid] using ho⟩
    · exact ⟨.ends p, by simpa [tick] using hp⟩
  · exact .inr ⟨.killBroker, by simp [tick, hpc]⟩
  · right
    rw [hpc] at hplace
    rcases wait_goes_on Kind.free hplace.2.2 with ⟨o, ho⟩ | ⟨p, hp⟩
    · exact ⟨.waitBroker o, by simpa [tick, hpc] using ho⟩
    · exact ⟨.ends p, by simpa [tick] using hp⟩
  · exact .inl hpc

theorem stage_le (procs : ℕ) (s : State) : stage procs s ≤ 2 * (procs - s.i) + 2 := by
  rw [stage]
  split <;> omega

/-- Once `stop_load` has begun, every continuation is bounded, and main returns or can go on. -/
theorem Holds.stops (h : Holds procs count as s) (hs : s.pc.stopping) {bs : List Action}
    (k : (main procs count).Run bs s t) :
    bs.length ≤ running s.children + 2 * (procs - s.i) + 2 ∧
      (t.pc = .returned ∨ ∃ a, (tick procs count a t).isSome) := by
  have hstep : ∀ a u v, True → ((∃ as, Holds procs count as u) ∧ u.pc.stopping) →
      (main procs count).tick a u = some v →
      ((∃ as, Holds procs count as v) ∧ v.pc.stopping) ∧
        running v.children + stage procs v < running u.children + stage procs u := by
    rintro a u v - ⟨⟨as, hu⟩, hstopping⟩ hv
    obtain ⟨hpc, hlt⟩ := stopping_tick hu hstopping hv
    exact ⟨⟨⟨_, holds_tick hu hv⟩, hpc⟩, hlt⟩
  have hbound := k.length_add_le (fun _ => True) (fun u => running u.children + stage procs u)
    (fun _ _ => trivial) ⟨⟨as, h⟩, hs⟩ hstep
  obtain ⟨⟨bs', hlast⟩, hstopping⟩ := k.invariant (fun _ => True) (fun _ _ => trivial)
    (I := fun u => (∃ as, Holds procs count as u) ∧ u.pc.stopping) ⟨⟨as, h⟩, hs⟩
    fun a u v hok hu hv => (hstep a u v hok hu hv).1
  refine ⟨?_, stopping_goes_on hlast hstopping⟩
  have hstage := stage_le procs s
  omega

/-- When main returns it has reaped all of its children, also where a fork has failed, and
from `stop_load` on it does return. A test that leaves the program leaves the workers
running. -/
theorem no_child_left (h : (main procs count).Run as (main procs count).init s) :
    (s.pc = .returned → s.children = []) ∧
    (s.pc.stopping → ∀ bs t, (main procs count).Run bs s t →
      bs.length ≤ running s.children + 2 * (procs - s.i) + 2 ∧
      (t.pc = .returned ∨ ∃ a, (tick procs count a t).isSome)) ∧
    (s.pc = .exited → (forked as = [] ∨ (forked as).length = procs) ∧
      ∀ p, some p ∈ forked as → { pid := p, kind := .worker } ∈ s.children) := by
  have hholds := holds_of_run h
  have hplace := hholds.place
  have hpids := hholds.pids
  refine ⟨fun hpc => ?_, fun hpc bs t k => hholds.stops hpc k, fun hpc => ?_⟩
  · rw [hpc] at hplace
    exact hplace
  · rw [hpc] at hplace
    obtain ⟨hstarted, -, hloaded⟩ := hplace
    rw [hpids, List.map_eq_nil_iff, List.length_map] at hstarted
    refine ⟨hstarted, fun p hp => hloaded.alive p ?_⟩
    rw [hpids]
    exact List.mem_map_of_mem (f := pidT) hp

/-- A test of one message. -/
def oneTest : List Action :=
  [.test (.new .success), .test (.connect .success), .test (.subscribe .success),
    .test (.loopStart .success), .test (.stamp 5), .test (.publish .success), .test (.invoke 0),
    .test (.store 9), .test .increment, .test .compare, .test .callbackLock,
    .test .callbackSignal, .test .callbackUnlock, .test .lock, .test .check, .test .unlock,
    .test .loopStop, .print]

/-- The second test has still to begin. -/
def toUnderLoad : List Action :=
  .startBroker (some 7) :: oneTest ++ [.startLoad (some 8), .startLoad none]

/-- The wait for the worker that has not been started reaps the broker. -/
def toReturn : List Action :=
  toUnderLoad ++ oneTest ++ [.killLoad, .ends 8, .waitLoad (some 8), .killLoad, .ends 7,
    .waitLoad (some 7), .killBroker, .waitBroker none]

theorem measured_under_load_once : ∃ s, (main loadProcs 1).Run toUnderLoad
    (main loadProcs 1).init s ∧ { pid := 8, kind := .worker } ∈ s.children := by
  have hrun : ∃ s, (main loadProcs 1).Run toUnderLoad (main loadProcs 1).init s ∧
      s.pc = .underLoad := ⟨_, rfl, rfl⟩
  obtain ⟨s, hrun, hpc⟩ := hrun
  exact ⟨s, hrun, ((measured_under_load hrun).2.1 hpc).2.1 8 (by decide)⟩

theorem no_child_left_once : ∃ s, (main loadProcs 1).Run toReturn (main loadProcs 1).init s ∧
    s.children = [] := by
  have hrun : ∃ s, (main loadProcs 1).Run toReturn (main loadProcs 1).init s ∧
      s.pc = .returned := ⟨_, rfl, rfl⟩
  obtain ⟨s, hrun, hpc⟩ := hrun
  exact ⟨s, hrun, (no_child_left hrun).1 hpc⟩

end Children

end MicrokernelBenchmark.CpuLoadRuns
