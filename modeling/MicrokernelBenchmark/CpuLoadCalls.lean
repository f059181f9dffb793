import MicrokernelBenchmark.CpuLoadProcesses
import MicrokernelBenchmark.CpuLoadRuns

/-!
# The calls of the runs of the CPU load test

A run of `CpuLoadRuns` that ends makes the calls of `CpuLoadProcesses.main` in an
environment with its forks. The child that a `waitpid` for any of them finds there is
read off the run.
-/
namespace MicrokernelBenchmark.CpuLoadCalls
open TransitionSystem TransitionSystem.System ChildTable CpuLoadRuns
open CpuLoadProcesses (Call Caller Environment stop stopLoad stopBroker)

def pids (cs : Table Kind) : List ℕ+ := cs.map Child.pid

/-- The calls of an action with the children not yet reaped. -/
def calls (s : State) : Action → List Call
  | .killLoad => s.loadPids[s.i]?.toList.map fun pid => ⟨.stopLoad, .kill, pid, pids s.children⟩
  | .waitLoad o =>
      s.loadPids[s.i]?.toList.map fun pid => ⟨.stopLoad, .waitpid o, pid, pids s.children⟩
  | .killBroker => [⟨.stopBroker, .kill, s.brokerPid, pids s.children⟩]
  | .waitBroker o => [⟨.stopBroker, .waitpid o, s.brokerPid, pids s.children⟩]
  | _ => []

def issued (procs count : ℕ) : List Action → State → List Call
  | [], _ => []
  | a :: as, s => calls s a ++ (tick procs count a s).elim [] (issued procs count as)

/-- The choices find the children which were reaped where none was named. -/
def Agrees (f : ℕ → ℕ) (l : List Call) : Prop :=
  ∀ k c p, l[k]? = some c → c.request = .waitpid (some p) → ¬ 0 < c.pid →
    c.children[f k % c.children.length]? = some p

def choice (l : List Call) (k : ℕ) : ℕ :=
  match l[k]? with
  | some ⟨_, .waitpid (some p), _, children⟩ => children.idxOf p
  | _ => 0

/-- What the forks leave. -/
def begun (b : Option ℕ+) (os : List (Option ℕ+)) : CpuLoadProcesses.State where
  brokerPid := pidT b
  loadPids := os.map pidT
  children := b.toList ++ os.reduceOption

/-- Where the same calls lead from what the forks have left. -/
def reached (f : ℕ → ℕ) (s₀ : CpuLoadProcesses.State) (s : State) : CpuLoadProcesses.State :=
  match s.pc with
  | .waitLoad => (stopLoad f (s.loadPids.take s.i) s₀).kill .stopLoad (s.loadPids[s.i]?.getD 0)
  | .killBroker => stopLoad f s.loadPids s₀
  | .waitBroker => (stopLoad f s.loadPids s₀).kill .stopBroker s.brokerPid
  | .returned => stopBroker f (stopLoad f s.loadPids s₀)
  | _ => stopLoad f (s.loadPids.take s.i) s₀

section Table
variable {cs ds : Table Kind} {p : ℕ+} {pid : ℤ} {o : Option ℕ+} {kind : Kind}

@[simp] theorem pids_kill : pids (kill pid cs) = pids cs := by
  simp [pids, kill, Function.comp_def]

theorem pids_finish (h : finish Kind.free p cs = some ds) : pids ds = pids cs := by
  obtain ⟨-, h⟩ := Option.ite_none_right_eq_some.mp h
  rw [← Option.some.inj h]
  simp [pids, Function.comp_def]

theorem pids_fork (h : fork kind o cs = some ds) :
    pids ds = pids cs ++ o.toList ∧ ∀ p, o = some p → p ∉ pids cs := by
  cases o with
  | none =>
      rw [← Option.some.inj h]
      simp
  | some p =>
      obtain ⟨hnew, h⟩ := Option.ite_none_right_eq_some.mp h
      rw [← Option.some.inj h]
      refine ⟨by simp [pids], ?_⟩
      rintro q hq hmem
      obtain ⟨c, hc, hpid⟩ := List.mem_map.mp hmem
      exact hnew c hc (hpid.trans (Option.some.inj hq).symm)

/-- A wait which returns is one of the other model. -/
theorem found_of_waitpid {f : ℕ → ℕ} {c : CpuLoadProcesses.State} (hpid : ∃ x, pid = pidT x)
    (hchildren : c.children = pids cs)
    (hf : ∀ p, o = some p → ¬ 0 < pid →
      (pids cs)[f c.issued.length % (pids cs).length]? = some p)
    (h : waitpid pid o cs = some ds) :
    c.found f pid = o ∧ pids ds = (pids cs).filter fun p => some p ≠ o := by
  obtain ⟨x, rfl⟩ := hpid
  cases o with
  | none =>
      obtain ⟨hnone, h⟩ := Option.ite_none_right_eq_some.mp h
      rw [← Option.some.inj h]
      refine ⟨?_, by simp⟩
      cases x with
      | none =>
          have hempty : cs = [] :=
            List.eq_nil_iff_forall_not_mem.mpr fun d hd => hnone d hd (.inr rfl)
          simp [CpuLoadProcesses.State.found, hchildren, hempty, pids, pidT]
      | some p =>
          have hpos : (0 : ℤ) < p := by exact_mod_cast p.pos
          rw [CpuLoadProcesses.State.found, pidT, if_pos hpos, List.find?_eq_none, hchildren]
          intro q hq hqp
          obtain ⟨d, hd, rfl⟩ := List.mem_map.mp hq
          exact hnone d hd (.inl (of_decide_eq_true hqp).symm)
  | some p =>
      obtain ⟨⟨d, hd, hdp, hnames, -⟩, h⟩ := Option.ite_none_right_eq_some.mp h
      have hmem : p ∈ c.children := by
        rw [hchildren]
        exact List.mem_map.mpr ⟨d, hd, hdp⟩
      constructor
      · cases x with
        | none =>
            have hneg : ¬ (0 : ℤ) < pidT none := by decide
            rw [CpuLoadProcesses.State.found, if_neg hneg, hchildren]
            exact hf p rfl hneg
        | some q =>
            have hpos : (0 : ℤ) < q := by exact_mod_cast q.pos
            have hqp : (q : ℤ) = p := by
              rcases hnames with heq | heq
              · exact heq.trans (by rw [hdp])
              · rw [pidT] at heq
                omega
            rw [pidT, hqp]
            exact CpuLoadProcesses.found_of_mem hmem
      · rw [← Option.some.inj h, pids, pids, List.filter_map]
        congr 1
        apply List.filter_congr
        intro e _
        simp

theorem mem_pids_of_waitpid (h : waitpid pid (some p) cs = some ds) : p ∈ pids cs := by
  obtain ⟨⟨d, hd, hdp, -⟩, -⟩ := Option.ite_none_right_eq_some.mp h
  exact List.mem_map.mpr ⟨d, hd, hdp⟩

/-- What such a wait does to the record. -/
theorem waitpid_eq {f : ℕ → ℕ} {by' : Caller} {c : CpuLoadProcesses.State}
    (hpid : ∃ x, pid = pidT x) (hchildren : c.children = pids cs)
    (hf : Agrees f (c.issued ++ [⟨by', .waitpid o, pid, pids cs⟩]))
    (h : waitpid pid o cs = some ds) :
    (c.waitpid f by' pid).children = pids ds ∧
      (c.waitpid f by' pid).issued = c.issued ++ [⟨by', .waitpid o, pid, pids cs⟩] := by
  obtain ⟨hfound, hleft⟩ := found_of_waitpid hpid hchildren
    (fun p ho hneg => hf _ _ p List.getElem?_concat_length (by rw [ho]) hneg) h
  constructor
  · simp only [CpuLoadProcesses.State.waitpid, hfound, hchildren, hleft]
  · simp only [CpuLoadProcesses.State.waitpid, hfound, hchildren]

end Table

section Runs
variable {procs count : ℕ} {as : List Action} {s t : State} {f : ℕ → ℕ} {l : List Call}
  {b : Option ℕ+} {s₀ : CpuLoadProcesses.State}

theorem Agrees.of_append {l' : List Call} (h : Agrees f (l ++ l')) : Agrees f l := by
  intro k c p hk
  obtain ⟨hlt, -⟩ := List.getElem?_eq_some_iff.mp hk
  exact h k c p ((List.getElem?_append_left hlt).trans hk)

theorem agrees_choice (h : ∀ c ∈ l, ∀ p, c.request = .waitpid (some p) → p ∈ c.children) :
    Agrees (choice l) l := by
  rintro k ⟨caller, request, pid, children⟩ p hk rfl -
  have hmem : p ∈ children := h _ (List.mem_of_getElem? hk) p rfl
  simp only [choice, hk, Nat.mod_eq_of_lt (List.idxOf_lt_length_of_mem hmem)]
  exact List.getElem?_idxOf hmem

theorem issued_snoc {a : Action} (h : (main procs count).Run as s t) :
    issued procs count (as ++ [a]) s = issued procs count as s ++ calls t a := by
  induction as generalizing s with
  | nil =>
      have hlast : (CpuLoadRuns.tick procs count a t).elim [] (issued procs count []) = [] := by
        cases CpuLoadRuns.tick procs count a t <;> rfl
      rw [run_nil.mp h]
      exact congrArg (calls t a ++ ·) hlast |>.trans (List.append_nil _)
  | cons b as ih =>
      obtain ⟨u, hu, h⟩ := run_cons.mp h
      have hu : tick procs count b s = some u := hu
      simp only [List.cons_append, issued, hu, Option.elim_some, ih h, List.append_assoc]

theorem stopLoad_append (pids pids' : List ℤ) :
    stopLoad f (pids ++ pids') s₀ = stopLoad f pids' (stopLoad f pids s₀) := by
  induction pids generalizing s₀ with
  | nil => rfl
  | cons pid pids ih => exact ih

theorem stopLoad_take {pids : List ℤ} {i : ℕ} {pid : ℤ} (h : pids[i]? = some pid) :
    stopLoad f (pids.take (i + 1)) s₀ = stop f .stopLoad pid (stopLoad f (pids.take i) s₀) := by
  rw [List.take_add_one, h, stopLoad_append]
  rfl

theorem reached_testing (h : s.pc.testing) :
    reached f s₀ s = stopLoad f (s.loadPids.take s.i) s₀ := by
  rcases h with hpc | hpc <;> rw [reached, hpc]

theorem reached_startNext :
    reached f s₀ (s.startNext procs) = stopLoad f (s.loadPids.take s.i) s₀ := by
  rw [State.startNext]
  split <;> rfl

theorem startNext_ne {pc : Pc} (hpc : pc ≠ .startLoad ∧ pc ≠ .underLoad) :
    (s.startNext procs).pc ≠ pc := by
  rw [State.startNext]
  dsimp only
  split
  · exact hpc.1.symm
  · exact hpc.2.symm

theorem stopNext_ne {pc : Pc} (hpc : pc ≠ .killLoad ∧ pc ≠ .killBroker ∧ pc ≠ .returned) :
    (s.stopNext procs).pc ≠ pc := by
  rw [State.stopNext]
  dsimp only
  split
  · exact hpc.1.symm
  · split
    · exact hpc.2.1.symm
    · exact hpc.2.2.symm

/-- Nothing leads back to the start. -/
theorem starting_of_tick {a : Action} (ht : CpuLoadRuns.tick procs count a s = some t)
    (hpc : t.pc = .startBroker) : s.pc = .startBroker ∧ calls s a = [] := by
  cases a with
  | startBroker o =>
      obtain ⟨hstart, -⟩ := Option.ite_none_right_eq_some.mp ht
      exact ⟨hstart, rfl⟩
  | startLoad o =>
      obtain ⟨-, ht⟩ := Option.ite_none_right_eq_some.mp ht
      obtain ⟨cs, -, rfl⟩ := Option.map_eq_some_iff.mp ht
      exact absurd hpc (startNext_ne (by decide))
  | test a =>
      obtain ⟨htesting, ht⟩ := Option.ite_none_right_eq_some.mp ht
      obtain ⟨u, -, rfl⟩ := Option.map_eq_some_iff.mp ht
      dsimp only at hpc
      split at hpc
      · cases hpc
      · exact ⟨hpc, rfl⟩
  | print =>
      obtain ⟨-, ht⟩ := Option.ite_none_right_eq_some.mp ht
      obtain ⟨u, -, rfl⟩ := Option.map_eq_some_iff.mp ht
      rw [State.testNext] at hpc
      split at hpc
      · exact absurd hpc (startNext_ne (by decide))
      · exact absurd hpc (stopNext_ne (by decide))
  | killLoad =>
      obtain ⟨-, ht⟩ := Option.ite_none_right_eq_some.mp ht
      obtain ⟨pid, -, rfl⟩ := Option.map_eq_some_iff.mp ht
      cases hpc
  | waitLoad o =>
      obtain ⟨-, ht⟩ := Option.ite_none_right_eq_some.mp ht
      obtain ⟨pid, -, ht⟩ := Option.bind_eq_some_iff.mp ht
      obtain ⟨cs, -, rfl⟩ := Option.map_eq_some_iff.mp ht
      exact absurd hpc (stopNext_ne (by decide))
  | killBroker =>
      obtain ⟨-, ht⟩ := Option.ite_none_right_eq_some.mp ht
      rw [← Option.some.inj ht] at hpc
      cases hpc
  | waitBroker o =>
      obtain ⟨-, ht⟩ := Option.ite_none_right_eq_some.mp ht
      obtain ⟨cs, -, rfl⟩ := Option.map_eq_some_iff.mp ht
      cases hpc
  | ends p =>
      obtain ⟨cs, -, rfl⟩ := Option.map_eq_some_iff.mp ht
      exact ⟨hpc, rfl⟩

/-- The head of the loop in `stop_load` belongs to the calls made before it. -/
theorem reached_stopNext (hlength : s.loadPids.length = procs) (hi : s.i ≤ procs)
    (hpid : s₀.brokerPid = s.brokerPid) :
    reached f s₀ (s.stopNext procs) = stopLoad f (s.loadPids.take s.i) s₀ := by
  by_cases hlt : s.i < procs
  · rw [State.stopNext, if_pos hlt]
    rfl
  · have hall : s.loadPids.take s.i = s.loadPids := List.take_of_length_le (by omega)
    rw [State.stopNext, if_neg hlt, hall]
    by_cases hpos : 0 < s.brokerPid
    · rw [if_pos hpos]
      rfl
    · rw [if_neg hpos, reached, stopBroker, CpuLoadProcesses.brokerPid_stopLoad, hpid,
        if_neg hpos]

/-- The calls so far come from the forks so far, by whatever choices agree with them. -/
structure Matches (b : Option ℕ+) (as : List Action) (s : State) (l : List Call) : Prop where
  pid : s.brokerPid = pidT b
  fresh : (b.toList ++ (forked as).reduceOption).Nodup
  reaped : ∀ c ∈ l, ∀ p, c.request = .waitpid (some p) → p ∈ c.children
  children : ∀ f, Agrees f l → (reached f (begun b (forked as)) s).children = pids s.children
  issued : ∀ f, Agrees f l → (reached f (begun b (forked as)) s).issued = l
  waiting : s.pc = .waitBroker → 0 < s.brokerPid

/-- A step without a call, after which the same is reached. -/
theorem Matches.quiet {a : Action} (h : Matches b as s l) (ha : forked [a] = [])
    (hpid : t.brokerPid = s.brokerPid) (hpids : pids t.children = pids s.children)
    (hreached : ∀ f, reached f (begun b (forked as)) t = reached f (begun b (forked as)) s)
    (hwaiting : t.pc = .waitBroker → s.pc = .waitBroker) : Matches b (as ++ [a]) t l := by
  have hforked : forked (as ++ [a]) = forked as := by rw [forked_append, ha, List.append_nil]
  constructor
  · rw [hpid, h.pid]
  · rw [hforked]
    exact h.fresh
  · exact h.reaped
  · intro f hf
    rw [hforked, hreached, hpids]
    exact h.children f hf
  · intro f hf
    rw [hforked, hreached]
    exact h.issued f hf
  · intro hpc
    rw [hpid]
    exact h.waiting (hwaiting hpc)

/-- A call which both models make. -/
theorem Matches.call {a : Action} {c : Call} (h : Matches b as s l) (ha : forked [a] = [])
    (hpid : t.brokerPid = s.brokerPid)
    (hreaped : ∀ p, c.request = .waitpid (some p) → p ∈ c.children)
    (hreached : ∀ f, Agrees f (l ++ [c]) →
      (reached f (begun b (forked as)) t).children = pids t.children ∧
        (reached f (begun b (forked as)) t).issued = l ++ [c])
    (hwaiting : t.pc = .waitBroker → 0 < s.brokerPid) : Matches b (as ++ [a]) t (l ++ [c]) := by
  have hforked : forked (as ++ [a]) = forked as := by rw [forked_append, ha, List.append_nil]
  constructor
  · rw [hpid, h.pid]
  · rw [hforked]
    exact h.fresh
  · rw [List.forall_mem_append, List.forall_mem_singleton]
    exact ⟨h.reaped, hreaped⟩
  · intro f hf
    rw [hforked]
    exact (hreached f hf).1
  · intro f hf
    rw [hforked]
    exact (hreached f hf).2
  · intro hpc
    rw [hpid]
    exact hwaiting hpc

theorem Matches.kill {a : Action} {by' : Caller} {pid : ℤ} (h : Matches b as s l)
    (ha : forked [a] = []) (hpid : t.brokerPid = s.brokerPid)
    (hpids : pids t.children = pids s.children)
    (hreached : ∀ f, reached f (begun b (forked as)) t =
      (reached f (begun b (forked as)) s).kill by' pid)
    (hwaiting : t.pc = .waitBroker → 0 < s.brokerPid) :
    Matches b (as ++ [a]) t (l ++ [⟨by', .kill, pid, pids s.children⟩]) := by
  refine h.call ha hpid nofun (fun f hf => ?_) hwaiting
  have hchildren := h.children f hf.of_append
  have hissued := h.issued f hf.of_append
  rw [hreached, hpids, CpuLoadProcesses.State.kill_children, CpuLoadProcesses.State.kill_issued,
    hchildren, hissued]
  exact ⟨rfl, rfl⟩

theorem Matches.wait {a : Action} {by' : Caller} {pid : ℤ} {o : Option ℕ+}
    (h : Matches b as s l) (ha : forked [a] = []) (hpid : t.brokerPid = s.brokerPid)
    (hnamed : ∃ x, pid = pidT x) (ht : waitpid pid o s.children = some t.children)
    (hreached : ∀ f, reached f (begun b (forked as)) t =
      (reached f (begun b (forked as)) s).waitpid f by' pid)
    (hwaiting : t.pc = .waitBroker → 0 < s.brokerPid) :
    Matches b (as ++ [a]) t (l ++ [⟨by', .waitpid o, pid, pids s.children⟩]) := by
  refine h.call ha hpid ?_ (fun f hf => ?_) hwaiting
  · intro p ho
    have ho : o = some p := CpuLoadProcesses.Request.waitpid.inj ho
    exact mem_pids_of_waitpid (ho ▸ ht)
  · have hissued := h.issued f hf.of_append
    have hcall := waitpid_eq hnamed (h.children f hf.of_append) (hissued.symm ▸ hf) ht
    rw [hreached]
    exact ⟨hcall.1, hcall.2.trans (congrArg (· ++ _) hissued)⟩

theorem matches_startBroker {o : Option ℕ+} {cs : Table Kind} (h : Holds procs count as s)
    (hpc : s.pc = .startBroker) (ht : fork .broker o s.children = some cs) :
    Matches o (as ++ [.startBroker o])
      { s with pc := .baseline, brokerPid := pidT o, children := cs } [] := by
  have hplace := h.place
  rw [hpc] at hplace
  obtain ⟨hchildren, hpids, hi⟩ := hplace
  have hforked : forked (as ++ [.startBroker o]) = [] := by
    have hnone := h.pids
    rw [hpids] at hnone
    rw [forked_append, List.map_eq_nil_iff.mp hnone.symm]
    rfl
  have hcs : pids cs = o.toList := by
    rw [(pids_fork ht).1, hchildren]
    rfl
  constructor
  · rfl
  · rw [hforked]
    cases o <;> simp
  · exact fun _ hc => absurd hc List.not_mem_nil
  · intro f _
    simp [reached, hforked, hi, hcs, begun, stopLoad]
  · intro f _
    simp [reached, hi, begun, stopLoad]
  · exact Pc.noConfusion

/-- The fork of the broker decides on the environment, before which nothing happens. -/
theorem matches_of_starting {a : Action} (h : Holds procs count as s) (hpc : s.pc = .startBroker)
    (ht : CpuLoadRuns.tick procs count a s = some t) (hleft : t.pc ≠ .startBroker) :
    ∃ b, Matches b (as ++ [a]) t ([] ++ calls s a) := by
  have htesting : ¬ s.pc.testing := by
    rw [hpc]
    decide
  have hother {pc : Pc} (hne : pc ≠ .startBroker) (hat : s.pc = pc) : False :=
    hne (hat.symm.trans hpc)
  cases a with
  | startBroker o =>
      obtain ⟨-, ht⟩ := Option.ite_none_right_eq_some.mp ht
      obtain ⟨cs, hcs, rfl⟩ := Option.map_eq_some_iff.mp ht
      exact ⟨o, matches_startBroker h hpc hcs⟩
  | test a | print => exact absurd (Option.ite_none_right_eq_some.mp ht).1 htesting
  | startLoad _ | killLoad | waitLoad _ | killBroker | waitBroker _ =>
      exact (hother (by decide) (Option.ite_none_right_eq_some.mp ht).1).elim
  | ends p =>
      obtain ⟨cs, -, rfl⟩ := Option.map_eq_some_iff.mp ht
      exact absurd hpc hleft

theorem Matches.startLoad {o : Option ℕ+} {cs : Table Kind} (h : Matches b as s l)
    (hi : s.i = 0) (hpc : s.pc = .startLoad) (ht : fork .worker o s.children = some cs) :
    Matches b (as ++ [.startLoad o])
      ({ s with loadPids := s.loadPids ++ [pidT o], children := cs }.startNext procs) l := by
  obtain ⟨hcs, hnew⟩ := pids_fork ht
  have hforked : forked (as ++ [.startLoad o]) = forked as ++ [o] := forked_append as _
  have hbefore : pids s.children = b.toList ++ (forked as).reduceOption := by
    have hchildren := h.children _ (agrees_choice h.reaped)
    rw [reached, hpc, hi] at hchildren
    exact hchildren.symm
  have hreached (f : ℕ → ℕ) (s₀ : CpuLoadProcesses.State) :
      reached f s₀ ({ s with loadPids := s.loadPids ++ [pidT o], children := cs }.startNext procs) =
        s₀ := by
    rw [reached_startNext, hi, List.take_zero]
    rfl
  have hkids : pids cs = b.toList ++ (forked as ++ [o]).reduceOption := by
    rw [hcs, hbefore, List.reduceOption_append, List.append_assoc, List.reduceOption_singleton]
  constructor
  · exact h.pid
  · rw [hforked, ← hkids, hcs]
    refine List.nodup_append.mpr ⟨hbefore ▸ h.fresh, by cases o <;> simp, ?_⟩
    rintro p hp q hq rfl
    exact hnew p (Option.mem_toList.mp hq) hp
  · exact h.reaped
  · intro f _
    rw [hreached, hforked]
    exact hkids.symm
  · intro f hf
    have hnone := h.issued f hf
    rw [reached, hpc, hi] at hnone
    rw [hreached]
    exact hnone
  · exact fun hwait => absurd hwait (startNext_ne (by decide))

theorem Matches.tick {a : Action} (h : Holds procs count as s) (hm : Matches b as s l)
    (hpc : s.pc ≠ .startBroker) (ht : CpuLoadRuns.tick procs count a s = some t) :
    Matches b (as ++ [a]) t (l ++ calls s a) := by
  have hplace := h.place
  have hpid : (begun b (forked as)).brokerPid = s.brokerPid := hm.pid.symm
  have hload (pid : ℤ) (hmem : s.loadPids[s.i]? = some pid) : ∃ x, pid = pidT x := by
    have hmem := List.mem_of_getElem? hmem
    rw [h.pids] at hmem
    obtain ⟨x, -, hx⟩ := List.mem_map.mp hmem
    exact ⟨x, hx.symm⟩
  have hquiet (hcalls : calls s a = []) (k : Matches b (as ++ [a]) t l) :
      Matches b (as ++ [a]) t (l ++ calls s a) := by
    rw [hcalls, List.append_nil]
    exact k
  cases a with
  | startBroker o => exact absurd (Option.ite_none_right_eq_some.mp ht).1 hpc
  | startLoad o =>
      obtain ⟨hstart, ht⟩ := Option.ite_none_right_eq_some.mp ht
      obtain ⟨cs, hcs, rfl⟩ := Option.map_eq_some_iff.mp ht
      rw [hstart] at hplace
      exact hquiet rfl (hm.startLoad hplace.2.1 hstart hcs)
  | test a =>
      obtain ⟨htesting, ht⟩ := Option.ite_none_right_eq_some.mp ht
      obtain ⟨u, -, rfl⟩ := Option.map_eq_some_iff.mp ht
      refine hquiet rfl (hm.quiet rfl rfl rfl (fun f => ?_) ?_)
      · rw [reached_testing htesting]
        split
        · rfl
        · exact reached_testing (s := { s with series := u }) htesting
      · dsimp only
        split
        · exact Pc.noConfusion
        · exact id
  | print =>
      obtain ⟨htesting, ht⟩ := Option.ite_none_right_eq_some.mp ht
      obtain ⟨u, -, rfl⟩ := Option.map_eq_some_iff.mp ht
      refine hquiet rfl ?_
      by_cases hbaseline : s.pc = .baseline
      · rw [State.testNext, if_pos hbaseline]
        refine hm.quiet rfl rfl rfl (fun f => ?_) fun hwait =>
          absurd hwait (startNext_ne (by decide))
        rw [reached_testing htesting, reached_startNext]
      · have hunder : s.pc = .underLoad := htesting.resolve_left hbaseline
        rw [hunder] at hplace
        rw [State.testNext, if_neg hbaseline]
        refine hm.quiet rfl rfl rfl (fun f => ?_) fun hwait =>
          absurd hwait (stopNext_ne (by decide))
        rw [reached_testing htesting]
        refine reached_stopNext hplace.1 ?_ hpid
        rw [hplace.2.1]
        exact Nat.zero_le procs
  | killLoad =>
      obtain ⟨hkill, ht⟩ := Option.ite_none_right_eq_some.mp ht
      obtain ⟨pid, hmem, rfl⟩ := Option.map_eq_some_iff.mp ht
      rw [calls, hmem]
      refine hm.kill rfl rfl pids_kill (fun f => ?_) Pc.noConfusion
      rw [reached, reached, hkill]
      simp only [hmem, Option.getD_some]
  | waitLoad o =>
      obtain ⟨hwait, ht⟩ := Option.ite_none_right_eq_some.mp ht
      obtain ⟨pid, hmem, ht⟩ := Option.bind_eq_some_iff.mp ht
      obtain ⟨cs, hcs, rfl⟩ := Option.map_eq_some_iff.mp ht
      rw [hwait] at hplace
      obtain ⟨hlt, -⟩ := List.getElem?_eq_some_iff.mp hmem
      rw [calls, hmem]
      refine hm.wait rfl rfl (hload pid hmem) hcs (fun f => ?_) fun hbroker =>
        absurd hbroker (stopNext_ne (by decide))
      rw [reached_stopNext (s := { s with i := s.i + 1, children := cs }) hplace.1
        (hplace.1 ▸ hlt) hpid, stopLoad_take hmem, reached, hwait]
      simp only [hmem, Option.getD_some]
      rfl
  | killBroker =>
      obtain ⟨hkill, ht⟩ := Option.ite_none_right_eq_some.mp ht
      rw [hkill] at hplace
      rw [← Option.some.inj ht]
      refine hm.kill rfl rfl pids_kill (fun f => ?_) fun _ => hplace.2.2
      rw [reached, reached, hkill]
  | waitBroker o =>
      obtain ⟨hwait, ht⟩ := Option.ite_none_right_eq_some.mp ht
      obtain ⟨cs, hcs, rfl⟩ := Option.map_eq_some_iff.mp ht
      refine hm.wait rfl rfl ⟨b, hm.pid⟩ hcs (fun f => ?_) Pc.noConfusion
      rw [reached, reached, hwait]
      dsimp only
      rw [stopBroker, CpuLoadProcesses.brokerPid_stopLoad, hpid, if_pos (hm.waiting hwait)]
      rfl
  | ends p =>
      obtain ⟨cs, hcs, rfl⟩ := Option.map_eq_some_iff.mp ht
      exact hquiet rfl (hm.quiet rfl rfl (pids_finish hcs) (fun _ => rfl) id)

/-- Both models go together once the broker has been forked. -/
def Together (procs count : ℕ) (as : List Action) (s : State) : Prop :=
  let l := issued procs count as (main procs count).init
  (s.pc = .startBroker → l = []) ∧ (s.pc ≠ .startBroker → ∃ b, Matches b as s l)

theorem together_of_run (h : (main procs count).Run as (main procs count).init s) :
    Together procs count as s := by
  have hall := h.history (P := fun as s => (main procs count).Run as (main procs count).init s ∧
      Together procs count as s)
    ⟨run_nil.mpr rfl, fun _ => rfl, fun hpc => absurd rfl hpc⟩ ?_
  · exact hall.2
  · rintro as a u v ⟨hrun, hstart, hm⟩ ht
    have hu := holds_of_run hrun
    refine ⟨run_snoc.mpr ⟨u, hrun, ht⟩, fun hpc => ?_, fun hpc => ?_⟩
    · obtain ⟨hback, hcalls⟩ := starting_of_tick ht hpc
      rw [issued_snoc hrun, hstart hback, hcalls]
      rfl
    · rw [issued_snoc hrun]
      by_cases hback : u.pc = .startBroker
      · rw [hstart hback]
        exact matches_of_starting hu hback ht hpc
      · obtain ⟨b, hb⟩ := hm hback
        exact ⟨b, hb.tick hu hback ht⟩

theorem main_underLoad (env : Environment) (hbaseline : env.baseline = .success) :
    CpuLoadProcesses.main env = match env.underLoad with
      | .failure => begun env.broker env.load
      | .success => stopBroker env.anyChild
          (stopLoad env.anyChild (env.load.map pidT) (begun env.broker env.load)) := by
  have hstarted := CpuLoadProcesses.started_eq env
  rw [CpuLoadProcesses.started] at hstarted
  simp only [CpuLoadProcesses.main, hbaseline, hstarted]
  rfl

/-- A run that ends has made the calls of the other model, in an environment with its forks. -/
theorem calls_of_run (h : (main procs count).Run as (main procs count).init s)
    (hpc : s.pc = .returned ∨ s.pc = .exited) :
    ∃ env : Environment, pidT env.broker = s.brokerPid ∧ env.load = forked as ∧
      (env.baseline = .success ∧ env.underLoad = .success ↔ s.pc = .returned) ∧
      (CpuLoadProcesses.main env).issued = issued procs count as (main procs count).init := by
  have hholds := holds_of_run h
  have hstarted : s.pc ≠ .startBroker := by rcases hpc with hpc | hpc <;> rw [hpc] <;> nofun
  obtain ⟨b, hm⟩ := (together_of_run h).2 hstarted
  obtain ⟨f, hf⟩ : ∃ f, Agrees f (issued procs count as (main procs count).init) :=
    ⟨_, agrees_choice hm.reaped⟩
  have hissued := hm.issued f hf
  have hfresh : (b :: forked as).reduceOption.Nodup := by
    rw [CpuLoadProcesses.reduceOption_cons_eq]
    exact hm.fresh
  rcases hpc with hpc | hpc
  · refine ⟨⟨b, forked as, hfresh, .success, .success, f⟩, hm.pid.symm, rfl, ?_, ?_⟩
    · exact iff_of_true ⟨rfl, rfl⟩ hpc
    · rw [reached, hpc, hholds.pids] at hissued
      rw [main_underLoad _ rfl]
      exact hissued
  · refine ⟨⟨b, forked as, hfresh, .success, .failure, f⟩, hm.pid.symm, rfl, ?_, ?_⟩
    · rw [hpc]
      exact iff_of_false (fun h => by cases h.2) nofun
    · have hplace := hholds.place
      rw [hpc] at hplace
      rw [reached, hpc, hplace.2.1] at hissued
      rw [main_underLoad _ rfl]
      exact hissued

end Runs

end MicrokernelBenchmark.CpuLoadCalls
