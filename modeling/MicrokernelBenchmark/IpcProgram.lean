import MicrokernelBenchmark.Components
import MicrokernelBenchmark.IpcLatency
import MicrokernelBenchmark.IpcShutdown

/-!
# The whole of the shared queue benchmark

`ipc_latency` from the creation of its load threads to its return: `main` and the
threads are those of `IpcShutdown`, the two processes between the fork and the kill
those of `IpcLatency`. The fork starts the exchange, `main` leaves its measuring loop
when the parent of the exchange has reported, and the kill is one call of both.

Whether `main` comes to the kill is decided by the exchange, whether it comes to its
return by the exchange and by the load threads which it joins in between.
-/
namespace MicrokernelBenchmark.IpcProgram
open TransitionSystem EchoLoop
open IpcShutdown (Pc)

structure State where
  shutdown : IpcShutdown.State := {}
  exchange : Option IpcLatency.State := none

inductive Action where
  | main (o : Outcome)
  | load (i : ℕ)
  | exchange (a : EchoLoop.Action)
deriving DecidableEq, Repr

/-- Behind the measuring loop the parent has reported; the kill is a call of the exchange. -/
def mayStep (s : State) : Bool :=
  match s.shutdown.pc with
  | .measure => s.exchange.any fun e => e.parent = .report
  | .kill => false
  | _ => true

def started (n : ℕ) (s : State) (o : Outcome) : Option IpcLatency.State :=
  if s.shutdown.pc = .fork ∧ o = .success then some (IpcLatency.main n).init else s.exchange

/-- The child goes on while `main` reports and kills. -/
def tick (m n : ℕ) (a : Action) (s : State) : Option State :=
  match a with
  | .main o =>
      if mayStep s then
        (IpcShutdown.tick m (.main o) s.shutdown).map fun p =>
          { shutdown := p, exchange := started n s o }
      else none
  | .load i =>
      (IpcShutdown.tick m (.load i) s.shutdown).map fun p => { s with shutdown := p }
  | .exchange a =>
      if ofChild a = true ∨ measures a = true ∧ s.shutdown.pc = .measure then
        (s.exchange.bind (IpcLatency.tick n a)).map fun e => { s with exchange := some e }
      else if a = .parentKill ∧ s.shutdown.pc = .kill then
        (IpcShutdown.tick m (.main .success) s.shutdown).bind fun p =>
          (s.exchange.bind (IpcLatency.tick n a)).map fun e =>
            { shutdown := p, exchange := some e }
      else none

/-- With `m` load threads and `n` rounds. -/
def main (m n : ℕ) : System Action State := ⟨{}, tick m n⟩

def toShutdown : Action → Option IpcShutdown.Action
  | .main o => some (.main o)
  | .load i => some (.load i)
  | .exchange .parentKill => some (.main .success)
  | .exchange _ => none

def toExchange : Action → Option EchoLoop.Action
  | .exchange a => some a
  | _ => none

def Action.parentSucceeds (a : Action) : Bool := (toExchange a).all EchoLoop.Action.parentSucceeds

def Action.succeeds (a : Action) : Bool := (toExchange a).all EchoLoop.Action.succeeds

/-- `main` can come to its report and make the kill behind it. -/
def CanKill (m n : ℕ) (s : State) : Prop :=
  ∃ as t e, (∀ a ∈ as, a.succeeds = true) ∧ (main m n).Run as s t ∧
    t.exchange = some e ∧ e.parent = .killed

/-- `main` can get past the joins, `mq_close` and `mq_unlink`. -/
def CanFinish (m n : ℕ) (s : State) : Prop :=
  ∃ as t, (∀ a ∈ as, a.succeeds = true) ∧ (main m n).Run as s t ∧
    t.shutdown.pc = .returned ∧ t.shutdown.mqOpen = false ∧ t.shutdown.linked = false

/-- Where `main` stands with respect to the exchange. -/
inductive Region where
  | setup
  | measuring
  | reported
  | closing
deriving DecidableEq

def region : Pc → Region
  | .create _ | .fork | .forkFailedClose | .forkFailedUnlink | .exitFailure => .setup
  | .measure => .measuring
  | .kill => .reported
  | .cancel _ | .join _ | .mqClose | .mqUnlink | .returned => .closing

/-- How far the exchange has come. -/
def Stage (e : Option IpcLatency.State) : Region → Prop
  | .setup => e = none
  | .measuring => ∃ x, e = some x ∧ x.parent ≠ .killed
  | .reported => ∃ x, e = some x ∧ x.parent = .report
  | .closing => ∃ x, e = some x ∧ x.parent = .killed

section Stages
variable {m n : ℕ} {s t : State} {e e' : IpcLatency.State} {a : EchoLoop.Action}

theorem region_shutdownFrom (i : ℕ) : region (IpcShutdown.shutdownFrom m i) = .closing := by
  unfold IpcShutdown.shutdownFrom
  split <;> rfl

/-- The four ways on for `main`. -/
theorem region_main {p q : IpcShutdown.State} {o : Outcome}
    (h : IpcShutdown.tick m (.main o) p = some q) :
    (region q.pc = region p.pc ∧ (region p.pc = .setup ∨ region p.pc = .closing) ∧
      ¬ (p.pc = .fork ∧ o = .success)) ∨
    (p.pc = .fork ∧ o = .success ∧ region q.pc = .measuring) ∨
    (p.pc = .measure ∧ region q.pc = .reported) ∨
    (p.pc = .kill ∧ region q.pc = .closing) := by
  rw [IpcShutdown.tick, IpcShutdown.mainStep.eq_def] at h
  cases o with
  | success =>
      cases hpc : p.pc with
      | create i =>
          simp only [hpc] at h
          split at h <;> rw [← Option.some.inj h] <;> simp [region]
      | kill =>
          simp only [hpc] at h
          rw [← Option.some.inj h]
          simp [region_shutdownFrom]
      | join i =>
          simp only [hpc] at h
          obtain ⟨-, h⟩ := Option.ite_none_right_eq_some.mp h
          rw [← Option.some.inj h]
          exact .inl ⟨region_shutdownFrom (i + 1), .inr rfl, by simp⟩
      | returned | exitFailure => simp [hpc] at h
      | _ =>
          simp only [hpc] at h
          rw [← Option.some.inj h]
          simp [region]
  | failure =>
      cases hpc : p.pc with
      | create i =>
          simp only [hpc] at h
          obtain ⟨-, h⟩ := Option.ite_none_right_eq_some.mp h
          rw [← Option.some.inj h]
          simp [region]
      | fork =>
          simp only [hpc] at h
          rw [← Option.some.inj h]
          simp [region]
      | _ => simp [hpc] at h

theorem stage_main {o : Outcome} (h : Stage s.exchange (region s.shutdown.pc))
    (ht : tick m n (.main o) s = some t) : Stage t.exchange (region t.shutdown.pc) := by
  obtain ⟨hmay, ht⟩ := Option.ite_none_right_eq_some.mp ht
  obtain ⟨p, hp, rfl⟩ := Option.map_eq_some_iff.mp ht
  rcases region_main hp with ⟨hsame, -, hfork⟩ | ⟨hpc, ho, hregion⟩ | ⟨hpc, hregion⟩ |
    ⟨hpc, -⟩
  · rw [hsame, started, if_neg hfork]
    exact h
  · rw [hregion, started, if_pos ⟨hpc, ho⟩]
    exact ⟨_, rfl, ParentPc.noConfusion⟩
  · rw [mayStep, hpc] at hmay
    obtain ⟨e, he, hreport⟩ := (Option.any_eq_true ..).mp hmay
    rw [hregion, started, if_neg (by simp [hpc])]
    exact ⟨e, he, of_decide_eq_true hreport⟩
  · rw [mayStep, hpc] at hmay
    cases hmay

theorem region_load {i : ℕ} {p q : IpcShutdown.State}
    (h : IpcShutdown.tick m (.load i) p = some q) : q.pc = p.pc := by
  obtain ⟨-, h⟩ := Option.ite_none_left_eq_some.mp h
  obtain ⟨threads, -, rfl⟩ := Option.map_eq_some_iff.mp h
  rfl

/-- A call of the exchange moves the exchange, and the kill moves `main` as well. -/
theorem tick_exchange (ht : tick m n (.exchange a) s = some t) :
    ∃ e e', s.exchange = some e ∧ IpcLatency.tick n a e = some e' ∧ t.exchange = some e' ∧
      ((ofChild a = true ∧ t.shutdown = s.shutdown) ∨
        (measures a = true ∧ s.shutdown.pc = .measure ∧ t.shutdown = s.shutdown) ∨
        (a = .parentKill ∧ s.shutdown.pc = .kill ∧
          IpcShutdown.tick m (.main .success) s.shutdown = some t.shutdown)) := by
  rw [tick] at ht
  split at ht
  case isTrue hwho =>
    obtain ⟨e', he', rfl⟩ := Option.map_eq_some_iff.mp ht
    obtain ⟨e, he, htick⟩ := Option.bind_eq_some_iff.mp he'
    refine ⟨e, e', he, htick, rfl, ?_⟩
    rcases hwho with hchild | ⟨hmeasures, hpc⟩
    · exact .inl ⟨hchild, rfl⟩
    · exact .inr (.inl ⟨hmeasures, hpc, rfl⟩)
  case isFalse =>
    obtain ⟨⟨ha, hpc⟩, ht⟩ := Option.ite_none_right_eq_some.mp ht
    obtain ⟨p, hp, ht⟩ := Option.bind_eq_some_iff.mp ht
    obtain ⟨e', he', rfl⟩ := Option.map_eq_some_iff.mp ht
    obtain ⟨e, he, htick⟩ := Option.bind_eq_some_iff.mp he'
    exact ⟨e, e', he, htick, rfl, .inr (.inr ⟨ha, hpc, hp⟩)⟩

theorem stage_exchange (h : Stage s.exchange (region s.shutdown.pc))
    (ht : tick m n (.exchange a) s = some t) : Stage t.exchange (region t.shutdown.pc) := by
  obtain ⟨e, e', he, htick, he', hchild | hmeasures | hkill⟩ := tick_exchange ht
  · obtain ⟨ha, hshutdown⟩ := hchild
    have hparent : e'.parent = e.parent :=
      (IpcLatency.tick_parent htick).trans (parentAfter_ofChild ha)
    rw [he] at h
    rw [he', hshutdown]
    cases hr : region s.shutdown.pc with
    | setup =>
        rw [hr] at h
        cases h
    | measuring | reported | closing =>
        rw [hr] at h
        obtain ⟨x, hx, hp⟩ := h
        obtain rfl := Option.some.inj hx
        exact ⟨e', rfl, hparent ▸ hp⟩
  · obtain ⟨ha, hpc, hshutdown⟩ := hmeasures
    rw [he', hshutdown, hpc]
    exact ⟨e', rfl, IpcLatency.tick_parent htick ▸ parentAfter_measures ha⟩
  · obtain ⟨rfl, hpc, hstep⟩ := hkill
    rcases region_main hstep with ⟨-, hregion, -⟩ | ⟨hfork, -⟩ | ⟨hmeasure, -⟩ | ⟨-, hregion⟩
    · simp [hpc, region] at hregion
    · simp [hpc] at hfork
    · simp [hpc] at hmeasure
    · rw [he', hregion]
      exact ⟨e', rfl, IpcLatency.tick_parent htick⟩

theorem stage_of_reachable (h : (main m n).Reachable s) :
    Stage s.exchange (region s.shutdown.pc) := by
  apply h.invariant (I := fun s => Stage s.exchange (region s.shutdown.pc))
  · exact rfl
  rintro a u v hu ht
  cases a with
  | main o => exact stage_main hu ht
  | load i =>
      obtain ⟨p, hp, rfl⟩ := Option.map_eq_some_iff.mp ht
      dsimp only
      rw [region_load hp]
      exact hu
  | exchange a => exact stage_exchange hu ht

end Stages

section Components
variable {m n : ℕ}

theorem shutdown_component (m n : ℕ) : System.Component (main m n) (IpcShutdown.main m) toShutdown
    (fun s => some s.shutdown) where
  init _ h := (Option.some.inj h).symm
  appears _ _ _ _ _ h := nomatch h
  moves a s t u _ ht hu := by
    obtain rfl := Option.some.inj hu
    refine ⟨t.shutdown, ?_, rfl⟩
    cases a with
    | main o =>
        obtain ⟨-, ht⟩ := Option.ite_none_right_eq_some.mp ht
        obtain ⟨p, hp, rfl⟩ := Option.map_eq_some_iff.mp ht
        exact hp
    | load i =>
        obtain ⟨p, hp, rfl⟩ := Option.map_eq_some_iff.mp ht
        exact hp
    | exchange a =>
        obtain ⟨e, e', -, -, -, ⟨ha, hsame⟩ | ⟨ha, -, hsame⟩ | ⟨rfl, -, hstep⟩⟩ := tick_exchange ht
        · rw [hsame]
          cases a <;> first | rfl | cases ha
        · rw [hsame]
          cases a <;> first | rfl | cases ha
        · exact hstep

theorem exchange_component (m n : ℕ) : System.Component (main m n) (IpcLatency.main n) toExchange
    State.exchange where
  init _ h := nomatch h
  appears a s t _ ht hnone := by
    cases a with
    | main o =>
        obtain ⟨-, ht⟩ := Option.ite_none_right_eq_some.mp ht
        obtain ⟨p, -, rfl⟩ := Option.map_eq_some_iff.mp ht
        refine ⟨rfl, fun u hu => ?_⟩
        dsimp only at hu
        unfold started at hu
        split at hu
        · exact (Option.some.inj hu).symm
        · rw [hnone] at hu
          cases hu
    | load i =>
        obtain ⟨p, -, rfl⟩ := Option.map_eq_some_iff.mp ht
        exact ⟨rfl, fun u hu => nomatch hnone.symm.trans hu⟩
    | exchange a =>
        obtain ⟨e, e', he, -⟩ := tick_exchange ht
        rw [hnone] at he
        cases he
  moves a s t e hs ht he := by
    cases a with
    | main o =>
        have hstage := stage_of_reachable hs
        obtain ⟨-, ht⟩ := Option.ite_none_right_eq_some.mp ht
        obtain ⟨p, -, rfl⟩ := Option.map_eq_some_iff.mp ht
        refine ⟨e, rfl, ?_⟩
        have hfork : s.shutdown.pc ≠ .fork := by
          intro hpc
          rw [hpc, he] at hstage
          cases hstage
        exact (if_neg fun h => hfork h.1).trans he
    | load i =>
        obtain ⟨p, -, rfl⟩ := Option.map_eq_some_iff.mp ht
        exact ⟨e, rfl, he⟩
    | exchange a =>
        obtain ⟨x, e', hx, htick, he', -⟩ := tick_exchange ht
        obtain rfl := Option.some.inj (hx.symm.trans he)
        exact ⟨e', htick, he'⟩

end Components

section Ends
variable {m n : ℕ} {as : List Action} {s t : State} {e : IpcLatency.State}

theorem shutdown_reachable (h : (main m n).Reachable s) :
    (IpcShutdown.main m).Reachable s.shutdown := by
  obtain ⟨as, has⟩ := h
  exact ⟨_, ((shutdown_component m n).run has).2 s.shutdown rfl⟩

theorem mem_toExchange {a : EchoLoop.Action} : a ∈ as.filterMap toExchange ↔ .exchange a ∈ as := by
  rw [List.mem_filterMap]
  constructor
  · rintro ⟨b, hb, hba⟩
    cases b with
    | main | load => cases hba
    | exchange b => exact Option.some.inj hba ▸ hb
  · exact fun h => ⟨_, h, rfl⟩

theorem toExchange_succeeds (hok : ∀ a ∈ as, a.succeeds = true) :
    ∀ a ∈ as.filterMap toExchange, a.succeeds = true :=
  fun _ ha => hok _ (mem_toExchange.mp ha)

theorem succeeds_exchange {cs : List EchoLoop.Action} (hok : ∀ c ∈ cs, c.succeeds = true) :
    ∀ a ∈ cs.map Action.exchange, a.succeeds = true := by
  simpa [Action.succeeds, toExchange] using hok

/-- The exchange is exactly what it would be without `main` and the load threads around it. -/
theorem canReport_of_canKill (h : (main m n).Run as (main m n).init s)
    (he : s.exchange = some e) (hcan : CanKill m n s) : IpcLatency.CanReport n e := by
  obtain ⟨bs, t, x, hok, hrun, hx, hkilled⟩ := hcan
  refine ⟨bs.filterMap toExchange, x, toExchange_succeeds hok,
    (exchange_component m n).run_from h hrun he hx, ?_⟩
  rw [ParentPc.reported, hkilled]
  rfl

theorem step_kill (hpc : s.shutdown.pc = .kill) (he : s.exchange = some e)
    (hreport : e.parent = .report) : ∃ t x, tick m n (.exchange .parentKill) s = some t ∧
      t.exchange = some x ∧ x.parent = .killed := by
  simp [tick, ofChild, measures, hpc, he, IpcShutdown.tick, IpcShutdown.mainStep, IpcLatency.tick,
    hreport]

theorem step_report (hpc : s.shutdown.pc = .measure) (he : s.exchange = some e)
    (hreport : e.parent = .report) : ∃ t, tick m n (.main .success) s = some t ∧
      t.shutdown.pc = .kill ∧ t.exchange = some e := by
  simp [tick, mayStep, started, hpc, he, IpcShutdown.tick, IpcShutdown.mainStep, hreport]

/-- A parent that can report is followed by `main`. -/
theorem run_to_report (h : (main m n).Reachable s) (hpc : s.shutdown.pc = .measure)
    (he : s.exchange = some e) (hcan : IpcLatency.CanReport n e) :
    ∃ cs t x, (∀ c ∈ cs, c.succeeds = true) ∧ (main m n).Run cs s t ∧
      t.shutdown.pc = .measure ∧ t.exchange = some x ∧ x.parent = .report := by
  obtain ⟨bs, v, hok, hrun, hv⟩ := hcan
  have hfollow := System.exists_run_of_component (M := main m n)
    (I := fun s => s.shutdown.pc = .measure) State.exchange (fun u => u.parent.reported = true)
    Action.exchange (EchoLoop.Action.succeeds · = true) ?_ hrun hok hpc he hv
  · obtain ⟨cs, t, x, hcs, hrun, hpc, hx, hreported⟩ := hfollow
    refine ⟨cs.map Action.exchange, t, x, succeeds_exchange hcs, hrun, hpc, hx, ?_⟩
    obtain ⟨as, has⟩ := h
    have hstage := stage_of_reachable ⟨_, has.append hrun⟩
    rw [hpc, hx] at hstage
    obtain ⟨y, hy, hkilled⟩ := hstage
    obtain rfl := Option.some.inj hy
    simpa [ParentPc.reported, hkilled] using hreported
  · intro b s u v _ hpc hu hgoal hb
    have hne : b ≠ .parentKill := by
      rintro rfl
      obtain ⟨hreport, -⟩ := Option.ite_none_right_eq_some.mp hb
      simp [ParentPc.reported, hreport] at hgoal
    have hwho : ofChild b = true ∨ measures b = true ∧ s.shutdown.pc = .measure :=
      (ofChild_or_measures hne).imp_right fun hmeasures => ⟨hmeasures, hpc⟩
    refine ⟨{ s with exchange := some v }, ?_, hpc, rfl⟩
    have hv : (s.exchange.bind (IpcLatency.tick n b)) = some v := by
      rw [hu]
      exact hb
    exact (if_pos hwho).trans (by rw [hv]; rfl)

/-- Every way from the report to the kill is short. -/
theorem canKill_of_canReport (h : (main m n).Reachable s) (he : s.exchange = some e)
    (hcan : IpcLatency.CanReport n e) : CanKill m n s := by
  have hstage := stage_of_reachable h
  rw [he] at hstage
  cases hpc : s.shutdown.pc with
  | create | fork | forkFailedClose | forkFailedUnlink | exitFailure =>
      rw [hpc] at hstage
      cases hstage
  | measure =>
      obtain ⟨cs, t, x, hcs, hrun, hpc, hx, hreport⟩ := run_to_report h hpc he hcan
      obtain ⟨u, hu, hpc, hux⟩ := step_report hpc hx hreport
      obtain ⟨v, y, hv, hy, hkilled⟩ := step_kill hpc hux hreport
      refine ⟨cs ++ [.main .success, .exchange .parentKill], v, y, ?_, ?_, hy, hkilled⟩
      · exact List.forall_mem_append.mpr ⟨hcs, by simp [Action.succeeds, toExchange]; decide⟩
      · exact hrun.append (System.run_cons.mpr ⟨u, hu, System.run_single.mpr hv⟩)
  | kill =>
      rw [hpc] at hstage
      obtain ⟨x, hx, hreport⟩ := hstage
      obtain ⟨v, y, hv, hy, hkilled⟩ := step_kill hpc (he.trans hx) hreport
      exact ⟨[.exchange .parentKill], v, y, by decide, System.run_single.mpr hv, hy, hkilled⟩
  | cancel | join | mqClose | mqUnlink | returned =>
      rw [hpc] at hstage
      obtain ⟨x, hx, hkilled⟩ := hstage
      exact ⟨[], s, x, by simp, System.run_nil.mpr rfl, he.trans hx, hkilled⟩

theorem canKill_iff (h : (main m n).Run as (main m n).init s) (he : s.exchange = some e)
    (hok : ∀ a ∈ as, a.parentSucceeds = true) :
    ¬ IpcLatency.Stranded e ∧ CanKill m n s ↔ .exchange (.childSend .failure) ∉ as := by
  have hrun := (exchange_component m n).run h |>.2 e he
  have hparent : ∀ a ∈ as.filterMap toExchange, a.parentSucceeds = true :=
    fun _ ha => hok _ (mem_toExchange.mp ha)
  have hiff := IpcLatency.canReport_iff hrun hparent
  rw [mem_toExchange] at hiff
  rw [← hiff]
  exact and_congr_right fun _ =>
    ⟨canReport_of_canKill h he, canKill_of_canReport ⟨as, h⟩ he⟩

/-- Without load threads `main` is stopped by nothing behind the kill. -/
theorem canFinish_of_killed (h : (main 0 n).Reachable s) (he : s.exchange = some e)
    (hkilled : e.parent = .killed) : ∃ as t, (∀ a ∈ as, a.succeeds = true) ∧
      (main 0 n).Run as s t ∧ t.shutdown.pc = .returned := by
  have hclosing : s.shutdown.pc.AfterLoop ∧ s.shutdown.pc ≠ .kill := by
    have hstage := stage_of_reachable h
    rw [he] at hstage
    cases hpc : s.shutdown.pc with
    | create | fork | forkFailedClose | forkFailedUnlink | exitFailure =>
        rw [hpc] at hstage
        cases hstage
    | measure =>
        rw [hpc] at hstage
        obtain ⟨x, hx, hnot⟩ := hstage
        exact absurd (Option.some.inj hx ▸ hkilled) hnot
    | kill =>
        rw [hpc] at hstage
        obtain ⟨x, hx, hreport⟩ := hstage
        obtain rfl := Option.some.inj hx
        rw [hkilled] at hreport
        cases hreport
    | cancel | join | mqClose | mqUnlink | returned => exact ⟨trivial, Pc.noConfusion⟩
  refine System.exists_run_to (M := main 0 n)
    (I := fun s => IpcShutdown.Invariant 0 s.shutdown ∧
      s.shutdown.pc.AfterLoop ∧ s.shutdown.pc ≠ .kill)
    (Action.succeeds · = true) (fun s => s.shutdown.pc.left) ?_ s
    ⟨IpcShutdown.invariant_of_reachable (shutdown_reachable h), hclosing⟩
  rintro s ⟨hinv, hafter, hkill⟩ hpc
  obtain ⟨p, hp, hafter', hleft⟩ := IpcShutdown.exists_shutdown_step hinv hafter hpc
  have hmay : mayStep s = true := by
    rw [mayStep.eq_def]
    split
    · simp_all [IpcShutdown.Pc.AfterLoop]
    · contradiction
    · rfl
  refine ⟨.main .success, { shutdown := p, exchange := started n s .success }, rfl, ?_,
    ⟨hinv.tick hp, hafter', fun hk => ?_⟩, hleft⟩
  · exact (if_pos hmay).trans (by rw [hp]; rfl)
  · rw [hk] at hleft
    cases hpc : s.shutdown.pc <;> simp_all [IpcShutdown.Pc.left]

theorem canFinish_iff (h : (main m n).Run as (main m n).init s) (he : s.exchange = some e)
    (hok : ∀ a ∈ as, a.parentSucceeds = true) :
    ¬ IpcLatency.Stranded e ∧ CanFinish m n s ↔
      m = 0 ∧ .exchange (.childSend .failure) ∉ as := by
  rw [← canKill_iff h he hok]
  constructor
  · rintro ⟨hstranded, bs, t, hbs, hrun, hpc, -⟩
    have hreach : (main m n).Reachable t := ⟨_, h.append hrun⟩
    have hinv := IpcShutdown.invariant_of_reachable (shutdown_reachable hreach)
    have hstage := stage_of_reachable hreach
    rw [hpc] at hstage
    obtain ⟨x, hx, hkilled⟩ := hstage
    exact ⟨hinv.past (.inr (.inr hpc)), hstranded, bs, t, x, hbs, hrun, hx, hkilled⟩
  · rintro ⟨rfl, hstranded, bs, t, x, hbs, hrun, hx, hkilled⟩
    obtain ⟨cs, u, hcs, hrun', hpc⟩ := canFinish_of_killed ⟨_, h.append hrun⟩ hx hkilled
    have hinv := IpcShutdown.invariant_of_reachable
      (shutdown_reachable ⟨_, (h.append hrun).append hrun'⟩)
    exact ⟨hstranded, bs ++ cs, u, List.forall_mem_append.mpr ⟨hbs, hcs⟩, hrun.append hrun', hpc,
      hinv.closed (.inr hpc), hinv.unlinked hpc⟩

end Ends

end MicrokernelBenchmark.IpcProgram
