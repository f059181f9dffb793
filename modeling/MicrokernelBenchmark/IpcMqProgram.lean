import MicrokernelBenchmark.Components
import MicrokernelBenchmark.IpcMqLatency
import MicrokernelBenchmark.NamedQueues

/-!
# The whole of the two-queue benchmark

`main` of `ipc_mq_latency` from its argument to its return, around the exchange of
`IpcMqLatency`. The directory of queues is arbitrary at the start: an earlier run may
have left both names with messages in their queues. A refused argument leaves them
there. Otherwise the exchange starts from empty queues all the same, as long as
`mq_unlink` fails for no other reason than that there is nothing to unlink, and what
is left at the end is known for each way out.

From there on the exchange alone decides whether `main` comes to its cleanup, since
nothing in the cleanup waits for anything but the killed child.
-/
namespace MicrokernelBenchmark.IpcMqProgram
open TransitionSystem EchoLoop NamedQueues
open IpcMqLatency (Queue pattern)

def ptocName : String := "/mq_ptoc"

def ctopName : String := "/mq_ctop"

abbrev Names := Directory String Queue

inductive SchedPolicy where
  | fifo
  | rr
  | sporadic
deriving DecidableEq, Repr

/-- `none` is the exit with a message. -/
def parseSchedPolicy (qnx : Bool) (arg : String) : Option SchedPolicy :=
  if arg = "fifo" then some .fifo
  else if arg = "rr" then some .rr
  else if qnx ∧ arg = "sporadic" then some .sporadic
  else none

/-- Without an argument the policy is the initial value of `sched_policy`. -/
def schedPolicy (qnx : Bool) : Option String → Option SchedPolicy
  | none => some .fifo
  | some arg => parseSchedPolicy qnx arg

inductive Pc where
  | parsePolicy
  | unlinkPtoc
  | unlinkCtop
  | openPtoc
  | openCtop
  | fork
  | exchange
  | closePtoc
  | closeCtop
  | removePtoc
  | removeCtop
  | kill
  | wait
  | returned
  | exitPolicy
  | exitPtoc
  | exitCtop
  | exitFork
deriving DecidableEq, Repr

/-- While the exchange is on, it has the contents of the two queues. -/
structure State where
  pc : Pc := .parsePolicy
  names : Names
  mqPtoc : ℕ := 0
  mqCtop : ℕ := 0
  exchange : Option IpcMqLatency.State := none

inductive Action where
  | main (o : Outcome)
  | exchange (a : EchoLoop.Action)
deriving DecidableEq, Repr

def removed (names : Names) (name : String) : Outcome → Names
  | .success => names.unlink name
  | .failure => names

/-- The kill is a call of the exchange. -/
def mainStep (qnx : Bool) (arg : Option String) (s : State) (o : Outcome) : Option State :=
  match s.pc with
  | .parsePolicy =>
      some { s with pc := if (schedPolicy qnx arg).isSome then .unlinkPtoc else .exitPolicy }
  | .unlinkPtoc => some { s with pc := .unlinkCtop, names := removed s.names ptocName o }
  | .unlinkCtop => some { s with pc := .openPtoc, names := removed s.names ctopName o }
  | .openPtoc =>
      match o with
      | .success =>
          let (q, names) := s.names.openQueue .empty ptocName
          some { s with pc := .openCtop, names := names, mqPtoc := q }
      | .failure => some { s with pc := .exitPtoc }
  | .openCtop =>
      match o with
      | .success =>
          let (q, names) := s.names.openQueue .empty ctopName
          some { s with pc := .fork, names := names, mqCtop := q }
      | .failure => some { s with pc := .exitCtop }
  | .fork =>
      match o with
      | .success => some { s with
          pc := .exchange
          exchange := some {
            mqPtoc := s.names.queues s.mqPtoc
            mqCtop := s.names.queues s.mqCtop
            parentBuf := pattern } }
      | .failure => some { s with pc := .exitFork }
  | .exchange =>
      match s.exchange with
      | some e => if e.parent = .report then some { s with pc := .closePtoc } else none
      | none => none
  | .closePtoc => some { s with pc := .closeCtop }
  | .closeCtop => some { s with pc := .removePtoc }
  | .removePtoc => some { s with pc := .removeCtop, names := removed s.names ptocName o }
  | .removeCtop => some { s with pc := .kill, names := removed s.names ctopName o }
  | .wait =>
      match s.exchange with
      | some e => if dead e.child then some { s with pc := .returned } else none
      | none => none
  | .kill | .returned | .exitPolicy | .exitPtoc | .exitCtop | .exitFork => none

/-- The child goes on while the parent closes and unlinks. -/
def tick (n : ℕ) (qnx : Bool) (arg : Option String) : Action → State → Option State
  | .main o, s => mainStep qnx arg s o
  | .exchange a, s =>
      if ofChild a = true ∨ measures a = true ∧ s.pc = .exchange then
        (s.exchange.bind (IpcMqLatency.tick n a)).map fun e => { s with exchange := some e }
      else if a = .parentKill ∧ s.pc = .kill then
        (s.exchange.bind (IpcMqLatency.tick n a)).map fun e =>
          { s with pc := .wait, exchange := some e }
      else none

def main (n : ℕ) (qnx : Bool) (arg : Option String) (names : Names) : System Action State :=
  ⟨{ names := names }, tick n qnx arg⟩

def Pc.unlinks : Pc → Option String
  | .unlinkPtoc | .removePtoc => some ptocName
  | .unlinkCtop | .removeCtop => some ctopName
  | _ => none

/-- A `mq_unlink` which fails has found no such name. -/
def permitted : Action → State → Bool
  | .main .failure, s =>
      match s.pc.unlinks with
      | some name => s.names.linked name = none
      | none => true
  | _, _ => true

/-- The runs in which whatever is linked to the two names can be unlinked. -/
def unlinking (n : ℕ) (qnx : Bool) (arg : Option String) (names : Names) : System Action State :=
  (main n qnx arg names).restrict fun a s => permitted a s = true

/-- The names of the benchmark. -/
def Own (name : String) : Prop := name = ptocName ∨ name = ctopName

section Places
variable {n : ℕ} {qnx : Bool} {arg : Option String} {base : Names} {s t : State}

/-- A name is linked to a queue of this run, whose content is still the first one. -/
structure Opened (base names : Names) (name : String) (q : ℕ) : Prop where
  linked : names.linked name = some q
  fresh : base.next ≤ q
  empty : names.queues q = .empty

/-- Which of the two names are linked, place by place. -/
def Links (base : Names) (s : State) : Pc → Prop
  | .parsePolicy | .unlinkPtoc | .exitPolicy => s.names = base
  | .unlinkCtop => s.names.linked ptocName = none
  | .openPtoc | .exitPtoc =>
      s.names.linked ptocName = none ∧ s.names.linked ctopName = none
  | .openCtop | .exitCtop =>
      Opened base s.names ptocName s.mqPtoc ∧ s.names.linked ctopName = none
  | .fork | .exitFork | .exchange | .closePtoc | .closeCtop | .removePtoc =>
      Opened base s.names ptocName s.mqPtoc ∧ Opened base s.names ctopName s.mqCtop ∧
        s.mqPtoc ≠ s.mqCtop
  | .removeCtop => s.names.linked ptocName = none ∧ Opened base s.names ctopName s.mqCtop
  | .kill | .wait | .returned =>
      s.names.linked ptocName = none ∧ s.names.linked ctopName = none

/-- How far the exchange has come, place by place. -/
def Stage (e : Option IpcMqLatency.State) : Pc → Prop
  | .parsePolicy | .unlinkPtoc | .unlinkCtop | .openPtoc | .openCtop | .fork
  | .exitPolicy | .exitPtoc | .exitCtop | .exitFork => e = none
  | .exchange => ∃ x, e = some x ∧ x.parent ≠ .killed
  | .closePtoc | .closeCtop | .removePtoc | .removeCtop | .kill =>
      ∃ x, e = some x ∧ x.parent = .report
  | .wait | .returned => ∃ x, e = some x ∧ x.parent = .killed ∧ dead x.child = true

structure Holds (base : Names) (pc : Pc) (s : State) : Prop where
  frame : Directory.Frame Own base s.names
  links : Links base s pc
  stage : Stage s.exchange pc

theorem holds_init (base : Names) : Holds base .parsePolicy { names := base } where
  frame := .refl Own base
  links := rfl
  stage := rfl

theorem ptocName_ne_ctopName : ptocName ≠ ctopName := by decide

/-- After a permitted `mq_unlink` the name is not linked and nothing else has changed. -/
theorem removed_spec {name : String} {o : Outcome} (hname : Own name)
    (hframe : Directory.Frame Own base s.names)
    (hok : o = .failure → s.names.linked name = none) :
    Directory.Frame Own base (removed s.names name o) ∧
    (removed s.names name o).linked name = none ∧
    (∀ other, other ≠ name → (removed s.names name o).linked other = s.names.linked other) ∧
    (removed s.names name o).queues = s.names.queues := by
  cases o with
  | success =>
      exact ⟨hframe.unlink hname, Directory.unlink_linked_self,
        fun other h => Directory.unlink_linked_of_ne h, rfl⟩
  | failure => exact ⟨hframe, hok rfl, fun _ _ => rfl, rfl⟩

section Names
variable {names names' : Names} {name : String} {q : ℕ}

theorem Opened.congr (h : Opened base names name q)
    (hlinked : names'.linked name = names.linked name)
    (hqueue : names'.queues q = names.queues q) : Opened base names' name q :=
  ⟨hlinked.trans h.linked, h.fresh, hqueue.trans h.empty⟩

theorem Opened.lt (h : Opened base names name q) : q < names.next :=
  names.created name q h.linked

/-- A name that is not linked is opened. -/
theorem opened_of_none (hname : Own name) (hframe : Directory.Frame Own base names)
    (hnone : names.linked name = none) :
    Directory.Frame Own base (names.openQueue .empty name).2 ∧
    Opened base (names.openQueue .empty name).2 name (names.openQueue .empty name).1 := by
  obtain ⟨hq, hlinked, hempty, -⟩ := @Directory.openQueue_of_none _ _ _ names name .empty hnone
  rw [hq]
  exact ⟨hframe.openQueue hname, hlinked, hframe.next, hempty⟩

end Names

theorem tick_parentKill {e e' : IpcMqLatency.State}
    (h : IpcMqLatency.tick n .parentKill e = some e') :
    e'.parent = .killed ∧ dead e'.child = true := by
  obtain ⟨-, h⟩ := Option.ite_none_right_eq_some.mp h
  obtain rfl := Option.some.inj h
  exact ⟨rfl, dead_kill _⟩

theorem permitted_unlink {o : Outcome} {name : String} (hok : permitted (.main o) s = true)
    (hname : s.pc.unlinks = some name) : o = .failure → s.names.linked name = none := by
  rintro rfl
  rw [permitted, hname] at hok
  exact of_decide_eq_true hok

/-- The calls before the fork. -/
theorem Holds.setup {o : Outcome} (h : Holds base s.pc s)
    (hok : permitted (.main o) s = true) (ht : mainStep qnx arg s o = some t)
    (hpc : s.pc = .unlinkPtoc ∨ s.pc = .unlinkCtop ∨ s.pc = .openPtoc ∨ s.pc = .openCtop) :
    Holds base t.pc t := by
  have hlinks := h.links
  have hstage := h.stage
  rw [mainStep.eq_def] at ht
  rcases hpc with hpc | hpc | hpc | hpc
  · rw [hpc] at ht hstage
    obtain rfl := Option.some.inj ht
    obtain ⟨hframe, hnone, -, -⟩ := removed_spec (.inl rfl) h.frame
      (permitted_unlink hok (by rw [hpc]; rfl))
    exact ⟨hframe, hnone, hstage⟩
  · rw [hpc] at ht hlinks hstage
    obtain rfl := Option.some.inj ht
    obtain ⟨hframe, hnone, hother, -⟩ := removed_spec (.inr rfl) h.frame
      (permitted_unlink hok (by rw [hpc]; rfl))
    exact ⟨hframe, ⟨(hother _ ptocName_ne_ctopName).trans hlinks, hnone⟩, hstage⟩
  · rw [hpc] at ht hlinks hstage
    obtain ⟨hptoc, hctop⟩ := hlinks
    cases o with
    | failure =>
        obtain rfl := Option.some.inj ht
        exact ⟨h.frame, ⟨hptoc, hctop⟩, hstage⟩
    | success =>
        obtain rfl := Option.some.inj ht
        obtain ⟨hframe, hopened⟩ := opened_of_none (.inl rfl) h.frame hptoc
        refine ⟨hframe, ⟨hopened, ?_⟩, hstage⟩
        exact (Directory.openQueue_linked_of_ne ptocName_ne_ctopName.symm).trans hctop
  · rw [hpc] at ht hlinks hstage
    obtain ⟨hptoc, hctop⟩ := hlinks
    cases o with
    | failure =>
        obtain rfl := Option.some.inj ht
        exact ⟨h.frame, ⟨hptoc, hctop⟩, hstage⟩
    | success =>
        obtain rfl := Option.some.inj ht
        obtain ⟨hframe, hopened⟩ := opened_of_none (.inr rfl) h.frame hctop
        have hne : s.mqPtoc ≠ (s.names.openQueue .empty ctopName).1 := by
          rw [(Directory.openQueue_of_none hctop).1]
          exact hptoc.lt.ne
        refine ⟨hframe, ⟨?_, hopened, hne⟩, hstage⟩
        exact hptoc.congr (Directory.openQueue_linked_of_ne ptocName_ne_ctopName)
          (Directory.openQueue_queues_of_lt hptoc.lt)

/-- The calls behind the report. -/
theorem Holds.teardown {o : Outcome} (h : Holds base s.pc s)
    (hok : permitted (.main o) s = true) (ht : mainStep qnx arg s o = some t)
    (hpc : s.pc = .removePtoc ∨ s.pc = .removeCtop ∨ s.pc = .wait) :
    Holds base t.pc t := by
  have hlinks := h.links
  have hstage := h.stage
  rw [mainStep.eq_def] at ht
  rcases hpc with hpc | hpc | hpc
  · rw [hpc] at ht hlinks hstage
    obtain rfl := Option.some.inj ht
    obtain ⟨hframe, hnone, hother, hqueues⟩ := removed_spec (.inl rfl) h.frame
      (permitted_unlink hok (by rw [hpc]; rfl))
    refine ⟨hframe, ⟨hnone, ?_⟩, hstage⟩
    exact hlinks.2.1.congr (hother _ ptocName_ne_ctopName.symm) (congrFun hqueues _)
  · rw [hpc] at ht hlinks hstage
    obtain rfl := Option.some.inj ht
    obtain ⟨hframe, hnone, hother, -⟩ := removed_spec (.inr rfl) h.frame
      (permitted_unlink hok (by rw [hpc]; rfl))
    exact ⟨hframe, ⟨(hother _ ptocName_ne_ctopName).trans hlinks.1, hnone⟩, hstage⟩
  · rw [hpc] at ht hlinks hstage
    obtain ⟨e, he, hparent, hdead⟩ := hstage
    simp only [he, hdead] at ht
    obtain rfl := Option.some.inj ht
    exact ⟨h.frame, hlinks, ⟨e, rfl, hparent, hdead⟩⟩

theorem Holds.step_main {o : Outcome} (h : Holds base s.pc s)
    (hok : permitted (.main o) s = true) (ht : mainStep qnx arg s o = some t) :
    Holds base t.pc t := by
  have hlinks := h.links
  have hstage := h.stage
  cases hpc : s.pc with
  | parsePolicy =>
      rw [mainStep.eq_def, hpc] at ht
      rw [hpc] at hlinks hstage
      obtain rfl := Option.some.inj ht
      refine ⟨h.frame, ?_, ?_⟩
      · dsimp only
        split <;> exact hlinks
      · dsimp only
        split <;> exact hstage
  | unlinkPtoc => exact h.setup hok ht (.inl hpc)
  | unlinkCtop => exact h.setup hok ht (.inr (.inl hpc))
  | openPtoc => exact h.setup hok ht (.inr (.inr (.inl hpc)))
  | openCtop => exact h.setup hok ht (.inr (.inr (.inr hpc)))
  | fork =>
      rw [mainStep.eq_def, hpc] at ht
      rw [hpc] at hlinks hstage
      cases o with
      | failure =>
          obtain rfl := Option.some.inj ht
          exact ⟨h.frame, hlinks, hstage⟩
      | success =>
          obtain rfl := Option.some.inj ht
          exact ⟨h.frame, hlinks, _, rfl, ParentPc.noConfusion⟩
  | exchange =>
      rw [mainStep.eq_def, hpc] at ht
      rw [hpc] at hlinks hstage
      obtain ⟨e, he, -⟩ := hstage
      simp only [he] at ht
      obtain ⟨hparent, ht⟩ := Option.ite_none_right_eq_some.mp ht
      obtain rfl := Option.some.inj ht
      exact ⟨h.frame, hlinks, e, rfl, hparent⟩
  | closePtoc | closeCtop =>
      rw [mainStep.eq_def, hpc] at ht
      rw [hpc] at hlinks hstage
      obtain rfl := Option.some.inj ht
      exact ⟨h.frame, hlinks, hstage⟩
  | removePtoc => exact h.teardown hok ht (.inl hpc)
  | removeCtop => exact h.teardown hok ht (.inr (.inl hpc))
  | wait => exact h.teardown hok ht (.inr (.inr hpc))
  | kill | returned | exitPolicy | exitPtoc | exitCtop | exitFork =>
      rw [mainStep.eq_def, hpc] at ht
      cases ht

/-- A call of the child is made by a running child. -/
theorem tick_ofChild {e e' : IpcMqLatency.State} {a : EchoLoop.Action} (ha : ofChild a = true)
    (h : IpcMqLatency.tick n a e = some e') : dead e.child = false := by
  cases a with
  | parentSend | parentReceive | parentReport | parentKill => cases ha
  | childReceive o =>
      cases o <;> rw [(Option.ite_none_right_eq_some.mp h).1.1] <;> rfl
  | childSend o =>
      cases o <;> rw [(Option.ite_none_right_eq_some.mp h).1] <;> rfl
  | childClose =>
      rw [(Option.ite_none_right_eq_some.mp h).1.1]
      rfl

/-- A call of the exchange moves the exchange, and the kill moves `main` as well. -/
theorem tick_exchange {a : EchoLoop.Action} (ht : tick n qnx arg (.exchange a) s = some t) :
    ∃ e e', s.exchange = some e ∧ IpcMqLatency.tick n a e = some e' ∧
      ((ofChild a = true ∧ t = { s with exchange := some e' }) ∨
        (measures a = true ∧ s.pc = .exchange ∧ t = { s with exchange := some e' }) ∨
        (a = .parentKill ∧ s.pc = .kill ∧
          t = { s with pc := .wait, exchange := some e' })) := by
  rw [tick] at ht
  split at ht
  case isTrue hwho =>
    obtain ⟨e', he', rfl⟩ := Option.map_eq_some_iff.mp ht
    obtain ⟨e, he, htick⟩ := Option.bind_eq_some_iff.mp he'
    refine ⟨e, e', he, htick, ?_⟩
    rcases hwho with hchild | ⟨hmeasures, hpc⟩
    · exact .inl ⟨hchild, rfl⟩
    · exact .inr (.inl ⟨hmeasures, hpc, rfl⟩)
  case isFalse =>
    obtain ⟨⟨ha, hpc⟩, ht⟩ := Option.ite_none_right_eq_some.mp ht
    obtain ⟨e', he', rfl⟩ := Option.map_eq_some_iff.mp ht
    obtain ⟨e, he, htick⟩ := Option.bind_eq_some_iff.mp he'
    exact ⟨e, e', he, htick, .inr (.inr ⟨ha, hpc, rfl⟩)⟩

theorem Holds.step_exchange {a : EchoLoop.Action} (h : Holds base s.pc s)
    (ht : tick n qnx arg (.exchange a) s = some t) : Holds base t.pc t := by
  have hstage := h.stage
  obtain ⟨e, e', he, htick, ⟨ha, rfl⟩ | ⟨ha, hpc, rfl⟩ | ⟨rfl, hpc, rfl⟩⟩ := tick_exchange ht
  · refine ⟨h.frame, h.links, ?_⟩
    have hparent : e'.parent = e.parent :=
      (IpcMqLatency.tick_parent htick).trans (parentAfter_ofChild ha)
    dsimp only
    rw [he] at hstage
    cases hpc : s.pc with
    | exchange | closePtoc | closeCtop | removePtoc | removeCtop | kill =>
        rw [hpc] at hstage
        obtain ⟨x, hx, hreport⟩ := hstage
        obtain rfl := Option.some.inj hx
        exact ⟨e', rfl, hparent ▸ hreport⟩
    | wait | returned =>
        rw [hpc] at hstage
        obtain ⟨x, hx, -, hdead'⟩ := hstage
        obtain rfl := Option.some.inj hx
        rw [tick_ofChild ha htick] at hdead'
        cases hdead'
    | parsePolicy | unlinkPtoc | unlinkCtop | openPtoc | openCtop | fork | exitPolicy
    | exitPtoc | exitCtop | exitFork =>
        rw [hpc] at hstage
        cases hstage
  · refine ⟨h.frame, h.links, ?_⟩
    dsimp only
    rw [hpc]
    exact ⟨e', rfl, IpcMqLatency.tick_parent htick ▸ parentAfter_measures ha⟩
  · have hlinks := h.links
    rw [hpc] at hlinks
    obtain ⟨hparent, hdead⟩ := tick_parentKill htick
    exact ⟨h.frame, hlinks, e', rfl, hparent, hdead⟩

theorem unlinking_tick {a : Action} : (unlinking n qnx arg base).tick a s = some t ↔
    permitted a s = true ∧ tick n qnx arg a s = some t := System.restrict_tick

theorem holds_of_reachable (h : (unlinking n qnx arg base).Reachable s) : Holds base s.pc s := by
  refine h.invariant (I := fun s => Holds base s.pc s) (holds_init base) ?_
  rintro a u v hu htick
  obtain ⟨hok, htick⟩ := unlinking_tick.mp htick
  cases a with
  | main o => exact hu.step_main hok htick
  | exchange a => exact hu.step_exchange htick

theorem mainStep_accepted {o : Outcome} (ht : mainStep qnx arg s o = some t)
    (hpc : s.pc ≠ .parsePolicy) : t.pc ≠ .parsePolicy ∧ t.pc ≠ .exitPolicy := by
  rw [mainStep.eq_def] at ht
  cases hp : s.pc with
  | parsePolicy => exact absurd hp hpc
  | openPtoc | openCtop | fork =>
      cases o <;> simp only [hp] at ht <;> rw [← Option.some.inj ht] <;> exact ⟨nofun, nofun⟩
  | exchange | wait =>
      cases he : s.exchange with
      | none => simp [hp, he] at ht
      | some e =>
          simp only [hp, he] at ht
          obtain ⟨-, ht⟩ := Option.ite_none_right_eq_some.mp ht
          rw [← Option.some.inj ht]
          exact ⟨nofun, nofun⟩
  | kill | returned | exitPolicy | exitPtoc | exitCtop | exitFork => simp [hp] at ht
  | _ =>
      simp only [hp] at ht
      rw [← Option.some.inj ht]
      exact ⟨nofun, nofun⟩

/-- A refused argument leads to the first exit and nowhere else, and nothing else leads there. -/
theorem exitPolicy_iff (h : (unlinking n qnx arg base).Reachable s) :
    s.pc = .parsePolicy ∨ (s.pc = .exitPolicy ↔ schedPolicy qnx arg = none) := by
  apply h.invariant
    (I := fun s => s.pc = .parsePolicy ∨ (s.pc = .exitPolicy ↔ schedPolicy qnx arg = none))
  · exact .inl rfl
  rintro a u v hu ht
  obtain ⟨-, ht⟩ := unlinking_tick.mp ht
  cases a with
  | main o =>
      by_cases hpc : u.pc = .parsePolicy
      · rw [tick, mainStep.eq_def, hpc] at ht
        rw [← Option.some.inj ht]
        refine .inr ?_
        cases schedPolicy qnx arg <;> simp
      · obtain ⟨hparse, hexit⟩ := mainStep_accepted ht hpc
        have hiff := hu.resolve_left hpc
        have hnot : u.pc ≠ .exitPolicy := by
          intro hp
          rw [tick, mainStep.eq_def, hp] at ht
          cases ht
        exact .inr ⟨fun h => absurd h hexit, fun h => absurd (hiff.mpr h) hnot⟩
  | exchange a =>
      obtain ⟨e, e', -, -, ⟨-, rfl⟩ | ⟨-, -, rfl⟩ | ⟨-, hpc, rfl⟩⟩ := tick_exchange ht
      · exact hu
      · exact hu
      · simpa [hpc] using hu

/-- Only the fork brings the exchange about. -/
theorem mainStep_exchange {o : Outcome} (ht : mainStep qnx arg s o = some t) :
    t.exchange = s.exchange ∨ s.pc = .fork ∧ t.exchange = some {
      mqPtoc := s.names.queues s.mqPtoc
      mqCtop := s.names.queues s.mqCtop
      parentBuf := pattern } := by
  rw [mainStep.eq_def] at ht
  cases hpc : s.pc with
  | openPtoc | openCtop =>
      cases o <;> simp only [hpc] at ht <;> rw [← Option.some.inj ht] <;> exact .inl rfl
  | fork =>
      cases o with
      | success =>
          simp only [hpc] at ht
          rw [← Option.some.inj ht]
          exact .inr ⟨rfl, rfl⟩
      | failure =>
          simp only [hpc] at ht
          rw [← Option.some.inj ht]
          exact .inl rfl
  | exchange | wait =>
      cases he : s.exchange with
      | none => simp [hpc, he] at ht
      | some e =>
          simp only [hpc, he] at ht
          obtain ⟨-, ht⟩ := Option.ite_none_right_eq_some.mp ht
          rw [← Option.some.inj ht]
          exact .inl rfl
  | kill | returned | exitPolicy | exitPtoc | exitCtop | exitFork => simp [hpc] at ht
  | _ =>
      simp only [hpc] at ht
      rw [← Option.some.inj ht]
      exact .inl rfl

def toExchange : Action → Option EchoLoop.Action
  | .exchange a => some a
  | .main _ => none

/-- The exchange starts as `IpcMqLatency` has it. -/
theorem exchange_component (n : ℕ) (qnx : Bool) (arg : Option String) (base : Names) :
    System.Component (unlinking n qnx arg base) (IpcMqLatency.main n) toExchange
      State.exchange where
  init _ h := nomatch h
  appears a s t hs ht hnone := by
    obtain ⟨-, ht⟩ := unlinking_tick.mp ht
    cases a with
    | main o =>
        refine ⟨rfl, fun u hu => ?_⟩
        rcases mainStep_exchange ht with hsame | ⟨hpc, hstart⟩
        · rw [hsame, hnone] at hu
          cases hu
        · have hlinks := (holds_of_reachable hs).links
          rw [hpc] at hlinks
          rw [hstart, hlinks.1.empty, hlinks.2.1.empty] at hu
          exact (Option.some.inj hu).symm
    | exchange a =>
        obtain ⟨e, e', he, -⟩ := tick_exchange ht
        rw [hnone] at he
        cases he
  moves a s t e hs ht he := by
    obtain ⟨-, ht⟩ := unlinking_tick.mp ht
    cases a with
    | main o =>
        refine ⟨e, rfl, ?_⟩
        rcases mainStep_exchange ht with hsame | ⟨hpc, -⟩
        · exact hsame.trans he
        · have hstage := (holds_of_reachable hs).stage
          rw [hpc, he] at hstage
          cases hstage
    | exchange a =>
        obtain ⟨x, e', hx, htick, ⟨-, rfl⟩ | ⟨-, -, rfl⟩ | ⟨-, -, rfl⟩⟩ := tick_exchange ht
        all_goals
          obtain rfl := Option.some.inj (hx.symm.trans he)
          exact ⟨e', htick, rfl⟩

/-- A refused argument leaves everything as it was. Otherwise the exchange is the one of
`IpcMqLatency` whatever was linked to the names before, it uses two queues of this run, and
nothing is changed beside the two names. They are both unlinked when `main` has returned,
with the child waited for, and after a failing call exactly those are linked which have been
opened. -/
theorem independent_of_leftovers {as : List Action}
    (h : (unlinking n qnx arg base).Run as (unlinking n qnx arg base).init s) :
    (s.pc ≠ .parsePolicy → (s.pc = .exitPolicy ↔ schedPolicy qnx arg = none)) ∧
    (s.pc = .exitPolicy → s.names = base ∧ s.exchange = none) ∧
    (∀ e, s.exchange = some e → (IpcMqLatency.main n).Reachable e) ∧
    (∀ e, s.exchange = some e → s.pc = .exchange →
      s.mqPtoc ≠ s.mqCtop ∧ base.next ≤ s.mqPtoc ∧ base.next ≤ s.mqCtop) ∧
    (∀ name, name ≠ ptocName → name ≠ ctopName →
      s.names.linked name = base.linked name) ∧
    (∀ q < base.next, s.names.queues q = base.queues q) ∧
    (s.pc = .returned → s.names.linked ptocName = none ∧ s.names.linked ctopName = none ∧
      ∃ e, s.exchange = some e ∧ dead e.child = true) ∧
    (s.pc = .exitPtoc → s.names.linked ptocName = none ∧ s.names.linked ctopName = none) ∧
    (s.pc = .exitCtop → s.names.linked ptocName = some s.mqPtoc ∧
      s.names.linked ctopName = none) ∧
    (s.pc = .exitFork → s.names.linked ptocName = some s.mqPtoc ∧
      s.names.linked ctopName = some s.mqCtop) := by
  have hholds := holds_of_reachable ⟨as, h⟩
  have hlinks := hholds.links
  have hstage := hholds.stage
  refine ⟨(exitPolicy_iff ⟨as, h⟩).resolve_left, fun hpc => ?_, fun e he => ?_, fun e _ hpc => ?_,
    fun name hptoc hctop => ?_, hholds.frame.queues, fun hpc => ?_, fun hpc => ?_,
    fun hpc => ?_, fun hpc => ?_⟩
  · rw [hpc] at hlinks hstage
    exact ⟨hlinks, hstage⟩
  · exact ⟨_, ((exchange_component n qnx arg base).run h).2 e he⟩
  · rw [hpc] at hlinks
    exact ⟨hlinks.2.2, hlinks.1.fresh, hlinks.2.1.fresh⟩
  · exact hholds.frame.linked name (not_or.mpr ⟨hptoc, hctop⟩)
  · rw [hpc] at hlinks hstage
    obtain ⟨e, he, -, hdead⟩ := hstage
    exact ⟨hlinks.1, hlinks.2, e, he, hdead⟩
  · rw [hpc] at hlinks
    exact hlinks
  · rw [hpc] at hlinks
    exact ⟨hlinks.1.linked, hlinks.2⟩
  · rw [hpc] at hlinks
    exact ⟨hlinks.1.linked, hlinks.2.1.linked⟩

/-- An earlier run has left both names and a message in the first queue. -/
def leftovers : Names where
  linked name := if name = ptocName then some 0 else if name = ctopName then some 1 else none
  queues q := if q = 0 then ⟨[pattern], by decide⟩ else .empty
  next := 2
  created name q h := by
    split at h
    · exact Option.some.inj h ▸ Nat.zero_lt_two
    · split at h
      · exact Option.some.inj h ▸ Nat.one_lt_two
      · cases h

def schedule : List Action :=
  List.replicate 6 (.main .success) ++
  [.exchange (.parentSend ⟨0, 5⟩ .success), .exchange (.childReceive .success),
    .exchange (.childSend .success), .exchange (.parentReceive ⟨0, 9⟩ .success),
    .exchange .parentReport] ++ List.replicate 5 (.main .success) ++
  [.exchange .parentKill, .main .success]

theorem independent_of_leftovers_once :
    ∃ s, (unlinking 1 false (some "rr") leftovers).Run schedule
      (unlinking 1 false (some "rr") leftovers).init s ∧ s.names.linked ptocName = none ∧
    ∃ e, s.exchange = some e ∧ (IpcMqLatency.main 1).Reachable e := by
  have hrun : ∃ s, (unlinking 1 false (some "rr") leftovers).Run schedule
      (unlinking 1 false (some "rr") leftovers).init s ∧ s.pc = .returned := ⟨_, rfl, rfl⟩
  obtain ⟨s, hrun, hpc⟩ := hrun
  obtain ⟨-, -, hreachable, -, -, -, hreturned, -⟩ := independent_of_leftovers hrun
  obtain ⟨hptoc, -, e, he, -⟩ := hreturned hpc
  exact ⟨s, hrun, hptoc, e, he, hreachable e he⟩

end Places

section Ends
variable {n : ℕ} {qnx : Bool} {arg : Option String} {base : Names} {as : List Action}
  {s t : State} {e : IpcMqLatency.State}

def Action.parentSucceeds (a : Action) : Bool := (toExchange a).all EchoLoop.Action.parentSucceeds

def Action.succeeds (a : Action) : Bool := (toExchange a).all EchoLoop.Action.succeeds

/-- A call of the child fails. -/
def Action.childFails (a : Action) : Bool := (toExchange a).any EchoLoop.Action.childFails

/-- `main` can come to its report, close and unlink both queues, kill and return. -/
def CanFinish (n : ℕ) (qnx : Bool) (arg : Option String) (base : Names) (s : State) : Prop :=
  ∃ as t e, (∀ a ∈ as, a.succeeds = true) ∧ (unlinking n qnx arg base).Run as s t ∧
    t.pc = .returned ∧ t.names.linked ptocName = none ∧ t.names.linked ctopName = none ∧
    t.exchange = some e ∧ e.parent = .killed

theorem mem_toExchange {a : EchoLoop.Action} : a ∈ as.filterMap toExchange ↔ .exchange a ∈ as := by
  rw [List.mem_filterMap]
  constructor
  · rintro ⟨b, hb, hba⟩
    cases b with
    | main => cases hba
    | exchange b => exact Option.some.inj hba ▸ hb
  · exact fun h => ⟨_, h, rfl⟩

theorem canReport_of_canFinish
    (h : (unlinking n qnx arg base).Run as (unlinking n qnx arg base).init s)
    (he : s.exchange = some e) (hcan : CanFinish n qnx arg base s) :
    IpcMqLatency.CanReport n e := by
  obtain ⟨bs, t, x, hok, hrun, -, -, -, hx, hkilled⟩ := hcan
  refine ⟨bs.filterMap toExchange, x, fun a ha => hok _ (mem_toExchange.mp ha),
    (exchange_component n qnx arg base).run_from h hrun he hx, ?_⟩
  rw [ParentPc.reported, hkilled]
  rfl

/-- A parent that can report is followed by `main`. -/
theorem run_to_report (h : (unlinking n qnx arg base).Reachable s) (hpc : s.pc = .exchange)
    (he : s.exchange = some e) (hcan : IpcMqLatency.CanReport n e) :
    ∃ cs t x, (∀ c ∈ cs, c.succeeds = true) ∧ (unlinking n qnx arg base).Run cs s t ∧
      t.pc = .exchange ∧ t.exchange = some x ∧ x.parent = .report := by
  obtain ⟨bs, v, hok, hrun, hv⟩ := hcan
  have hfollow := System.exists_run_of_component (M := unlinking n qnx arg base)
    (I := fun s => s.pc = .exchange) State.exchange (fun u => u.parent.reported = true)
    Action.exchange (EchoLoop.Action.succeeds · = true) ?_ hrun hok hpc he hv
  · obtain ⟨cs, t, x, hcs, hrun, hpc, hx, hreported⟩ := hfollow
    refine ⟨cs.map Action.exchange, t, x, ?_, hrun, hpc, hx, ?_⟩
    · simpa [Action.succeeds, toExchange] using hcs
    obtain ⟨as, has⟩ := h
    have hstage := (holds_of_reachable ⟨_, has.append hrun⟩).stage
    rw [hpc, hx] at hstage
    obtain ⟨y, hy, hkilled⟩ := hstage
    obtain rfl := Option.some.inj hy
    simpa [ParentPc.reported, hkilled] using hreported
  · intro b s u v _ hpc hu hgoal hb
    have hne : b ≠ .parentKill := by
      rintro rfl
      obtain ⟨hreport, -⟩ := Option.ite_none_right_eq_some.mp hb
      simp [ParentPc.reported, hreport] at hgoal
    have hwho : ofChild b = true ∨ measures b = true ∧ s.pc = .exchange :=
      (ofChild_or_measures hne).imp_right fun hmeasures => ⟨hmeasures, hpc⟩
    refine ⟨{ s with exchange := some v }, unlinking_tick.mpr ⟨rfl, ?_⟩, hpc, rfl⟩
    have hv : s.exchange.bind (IpcMqLatency.tick n b) = some v := by
      rw [hu]
      exact hb
    exact (if_pos hwho).trans (by rw [hv]; rfl)

/-- The calls that are left behind the report. -/
def Pc.left : Pc → ℕ
  | .exchange => 7
  | .closePtoc => 6
  | .closeCtop => 5
  | .removePtoc => 4
  | .removeCtop => 3
  | .kill => 2
  | .wait => 1
  | _ => 0

/-- Behind the report every call of `main` can be made. -/
theorem teardown_step (h : Holds base s.pc s) (he : s.exchange = some e)
    (hreported : e.parent = .report ∨ e.parent = .killed) (hpc : s.pc ≠ .returned) :
    ∃ a t x, a.succeeds = true ∧ (unlinking n qnx arg base).tick a s = some t ∧
      t.exchange = some x ∧ (x.parent = .report ∨ x.parent = .killed) ∧
      t.pc.left < s.pc.left := by
  have hstage := h.stage
  rw [he] at hstage
  cases hp : s.pc with
  | returned => exact absurd hp hpc
  | parsePolicy | unlinkPtoc | unlinkCtop | openPtoc | openCtop | fork | exitPolicy
  | exitPtoc | exitCtop | exitFork =>
      rw [hp] at hstage
      cases hstage
  | exchange =>
      rw [hp] at hstage
      obtain ⟨x, hx, hnot⟩ := hstage
      obtain rfl := Option.some.inj hx
      have hreport := hreported.resolve_right hnot
      refine ⟨.main .success, { s with pc := .closePtoc }, e, rfl, unlinking_tick.mpr ⟨rfl, ?_⟩,
        he, hreported, by simp [Pc.left]⟩
      simp [tick, mainStep, hp, he, hreport]
  | closePtoc =>
      exact ⟨.main .success, { s with pc := .closeCtop }, e, rfl,
        unlinking_tick.mpr ⟨rfl, by simp [tick, mainStep, hp]⟩, he, hreported, by simp [Pc.left]⟩
  | closeCtop =>
      exact ⟨.main .success, { s with pc := .removePtoc }, e, rfl,
        unlinking_tick.mpr ⟨rfl, by simp [tick, mainStep, hp]⟩, he, hreported, by simp [Pc.left]⟩
  | removePtoc =>
      exact ⟨.main .success, { s with pc := .removeCtop, names := s.names.unlink ptocName }, e, rfl,
        unlinking_tick.mpr ⟨rfl, by simp [tick, mainStep, hp, removed]⟩, he, hreported,
        by simp [Pc.left]⟩
  | removeCtop =>
      exact ⟨.main .success, { s with pc := .kill, names := s.names.unlink ctopName }, e, rfl,
        unlinking_tick.mpr ⟨rfl, by simp [tick, mainStep, hp, removed]⟩, he, hreported,
        by simp [Pc.left]⟩
  | kill =>
      rw [hp] at hstage
      obtain ⟨x, hx, hreport⟩ := hstage
      obtain rfl := Option.some.inj hx
      refine ⟨.exchange .parentKill, { s with
        pc := .wait
        exchange := some { e with parent := .killed, child := e.child.kill } }, _, rfl,
        unlinking_tick.mpr ⟨rfl, ?_⟩, rfl, .inr rfl, by simp [Pc.left]⟩
      simp [tick, ofChild, measures, hp, he, IpcMqLatency.tick, hreport]
  | wait =>
      rw [hp] at hstage
      obtain ⟨x, hx, -, hdead⟩ := hstage
      obtain rfl := Option.some.inj hx
      exact ⟨.main .success, { s with pc := .returned }, e, rfl,
        unlinking_tick.mpr ⟨rfl, by simp [tick, mainStep, hp, he, hdead]⟩, he, hreported,
        by simp [Pc.left]⟩

theorem canFinish_of_reported (h : (unlinking n qnx arg base).Reachable s)
    (he : s.exchange = some e) (hreported : e.parent = .report ∨ e.parent = .killed) :
    CanFinish n qnx arg base s := by
  have hgoal : ∃ as t, (∀ a ∈ as, Action.succeeds a = true) ∧
      (unlinking n qnx arg base).Run as s t ∧ t.pc = .returned := System.exists_run_to
    (I := fun s => (unlinking n qnx arg base).Reachable s ∧
      ∃ e, s.exchange = some e ∧ (e.parent = .report ∨ e.parent = .killed))
    (Action.succeeds · = true) (fun s => s.pc.left) ?_ s ⟨h, e, he, hreported⟩
  · obtain ⟨as, t, hok, hrun, hpc⟩ := hgoal
    obtain ⟨bs, hbs⟩ := h
    have hholds := holds_of_reachable ⟨_, hbs.append hrun⟩
    have hlinks := hholds.links
    have hstage := hholds.stage
    rw [hpc] at hlinks hstage
    obtain ⟨x, hx, hkilled, -⟩ := hstage
    exact ⟨as, t, x, hok, hrun, hpc, hlinks.1, hlinks.2, hx, hkilled⟩
  · rintro s ⟨⟨as, has⟩, e, he, hreported⟩ hpc
    obtain ⟨a, t, x, ha, ht, hx, hxreported, hleft⟩ :=
      teardown_step (holds_of_reachable ⟨as, has⟩) he hreported hpc
    exact ⟨a, t, ha, ht, ⟨⟨as ++ [a], System.run_snoc.mpr ⟨s, has, ht⟩⟩, x, hx, hxreported⟩, hleft⟩

theorem canFinish_of_canReport (h : (unlinking n qnx arg base).Reachable s)
    (he : s.exchange = some e) (hcan : IpcMqLatency.CanReport n e) :
    CanFinish n qnx arg base s := by
  have hstage := (holds_of_reachable h).stage
  rw [he] at hstage
  by_cases hpc : s.pc = .exchange
  · obtain ⟨as, has⟩ := h
    obtain ⟨cs, t, x, hcs, hrun, -, hx, hreport⟩ := run_to_report ⟨as, has⟩ hpc he hcan
    obtain ⟨bs, u, y, hbs, hrest, hgoal⟩ :=
      canFinish_of_reported ⟨_, has.append hrun⟩ hx (.inl hreport)
    exact ⟨cs ++ bs, u, y, List.forall_mem_append.mpr ⟨hcs, hbs⟩, hrun.append hrest, hgoal⟩
  · refine canFinish_of_reported h he ?_
    cases hp : s.pc with
    | exchange => exact absurd hp hpc
    | parsePolicy | unlinkPtoc | unlinkCtop | openPtoc | openCtop | fork | exitPolicy
    | exitPtoc | exitCtop | exitFork =>
        rw [hp] at hstage
        cases hstage
    | closePtoc | closeCtop | removePtoc | removeCtop | kill =>
        rw [hp] at hstage
        obtain ⟨x, hx, hreport⟩ := hstage
        exact .inl (Option.some.inj hx ▸ hreport)
    | wait | returned =>
        rw [hp] at hstage
        obtain ⟨x, hx, hkilled, -⟩ := hstage
        exact .inr (Option.some.inj hx ▸ hkilled)

theorem canFinish_iff (h : (unlinking n qnx arg base).Run as (unlinking n qnx arg base).init s)
    (he : s.exchange = some e) (hok : ∀ a ∈ as, a.parentSucceeds = true) :
    ¬ IpcMqLatency.Stranded e ∧ CanFinish n qnx arg base s ↔
      ∀ a ∈ as, a.childFails = false := by
  have hrun := (exchange_component n qnx arg base).run h |>.2 e he
  have hparent : ∀ a ∈ as.filterMap toExchange, a.parentSucceeds = true :=
    fun _ ha => hok _ (mem_toExchange.mp ha)
  have hchild : (∀ a ∈ as.filterMap toExchange, a.childFails = false) ↔
      ∀ a ∈ as, a.childFails = false := by
    constructor
    · intro hall a ha
      cases a with
      | main => rfl
      | exchange a => exact hall a (mem_toExchange.mpr ha)
    · exact fun hall a ha => hall _ (mem_toExchange.mp ha)
  rw [← hchild, ← IpcMqLatency.canReport_iff hrun hparent]
  exact and_congr_right fun _ =>
    ⟨canReport_of_canFinish h he, canFinish_of_canReport ⟨as, h⟩ he⟩

end Ends

end MicrokernelBenchmark.IpcMqProgram
