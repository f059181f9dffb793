import MicrokernelBenchmark.RoundTrip
import MicrokernelBenchmark.Pipe
import Mathlib.Data.PNat.Basic

/-!
# Context switches between two processes over two pipes

`process_ctx_switch` after the fork: both processes still hold all four pipe
ends, close the two they do not use and then exchange one byte per iteration. A
failing call, an end of file and a broken pipe each end the process at once, and
its descriptors are closed with it. The four histories are read by no step.

Every schedule with every choice of failing calls refines the one-token
exchange, with exited processes stopping it wherever it is. Each step shortens
what is left to do, so runs are finite; a run that cannot go on has ended both
processes.
-/
namespace MicrokernelBenchmark.ProcessCtxSwitch
open TransitionSystem

inductive Party where
  | parent
  | child
deriving DecidableEq, Repr

inductive Exit where
  | code (n : ℕ)
  | sigpipe
deriving DecidableEq, Repr

inductive ParentPc where
  | closeP2cRead
  | closeC2pWrite
  | clockStart
  | loop
  | read
  | wait
  | exited (e : Exit)
deriving DecidableEq, Repr

inductive ChildPc where
  | closeP2cWrite
  | closeC2pRead
  | loop
  | write
  | exited (e : Exit)
deriving DecidableEq, Repr

structure Action where
  party : Party
  outcome : Outcome
deriving DecidableEq, Repr

abbrev Channel (capacity : ℕ+) := Pipe UInt8 Party capacity

structure State (capacity : ℕ+) where
  p2c : Channel capacity := { readers := {.parent, .child}, writers := {.parent, .child} }
  c2p : Channel capacity := { readers := {.parent, .child}, writers := {.parent, .child} }
  parent : ParentPc := .closeP2cRead
  parentI : ℕ := 0
  parentBuf : UInt8 := 0
  child : ChildPc := .closeP2cWrite
  childI : ℕ := 0
  childBuf : UInt8
  parentWritten : List UInt8 := []
  childRead : List UInt8 := []
  childWritten : List UInt8 := []
  parentRead : List UInt8 := []

variable {capacity : ℕ+}

def State.exitParent (s : State capacity) (e : Exit) : State capacity :=
  { s with p2c := s.p2c.exit .parent, c2p := s.c2p.exit .parent, parent := .exited e }

def State.exitChild (s : State capacity) (e : Exit) : State capacity :=
  { s with p2c := s.p2c.exit .child, c2p := s.c2p.exit .child, child := .exited e }

/-- A failing `clock_gettime`, `write` or `read` of the parent returns 1 from
`main` without a `wait`. -/
def parentStep (iterations : ℤ) (s : State capacity) : Outcome → Option (State capacity)
  | .success =>
      match s.parent with
      | .closeP2cRead =>
          some { s with p2c := s.p2c.closeRead .parent, parent := .closeC2pWrite }
      | .closeC2pWrite =>
          some { s with c2p := s.c2p.closeWrite .parent, parent := .clockStart }
      | .clockStart => some { s with parent := .loop }
      | .loop =>
          if (s.parentI : ℤ) < iterations then
            match s.p2c.write s.parentBuf with
            | .blocked => none
            | .closed => some (s.exitParent .sigpipe)
            | .done p => some { s with
                p2c := p, parent := .read, parentWritten := s.parentWritten ++ [s.parentBuf] }
          else some { s with parent := .wait }
      | .read =>
          match s.c2p.read with
          | .blocked => none
          | .closed => some (s.exitParent (.code 1))
          | .done (b, p) => some { s with
              c2p := p, parent := .loop, parentI := s.parentI + 1, parentBuf := b,
              parentRead := s.parentRead ++ [b] }
      | .wait =>
          match s.child with
          | .exited _ => some (s.exitParent (.code 0))
          | _ => none
      | .exited _ => none
  | .failure =>
      match s.parent with
      | .clockStart | .loop | .read => some (s.exitParent (.code 1))
      | _ => none

def childStep (iterations : ℤ) (s : State capacity) : Outcome → Option (State capacity)
  | .success =>
      match s.child with
      | .closeP2cWrite => some { s with p2c := s.p2c.closeWrite .child, child := .closeC2pRead }
      | .closeC2pRead => some { s with c2p := s.c2p.closeRead .child, child := .loop }
      | .loop =>
          if (s.childI : ℤ) < iterations then
            match s.p2c.read with
            | .blocked => none
            | .closed => some (s.exitChild (.code 1))
            | .done (b, p) => some { s with
                p2c := p, child := .write, childBuf := b, childRead := s.childRead ++ [b] }
          else some (s.exitChild (.code 0))
      | .write =>
          match s.c2p.write s.childBuf with
          | .blocked => none
          | .closed => some (s.exitChild .sigpipe)
          | .done p => some { s with
              c2p := p, child := .loop, childI := s.childI + 1,
              childWritten := s.childWritten ++ [s.childBuf] }
      | .exited _ => none
  | .failure =>
      match s.child with
      | .loop => if (s.childI : ℤ) < iterations then some (s.exitChild (.code 1)) else none
      | .write => some (s.exitChild (.code 1))
      | _ => none

def tick (iterations : ℤ) (a : Action) (s : State capacity) : Option (State capacity) :=
  match a.party with
  | .parent => parentStep iterations s a.outcome
  | .child => childStep iterations s a.outcome

/-- `junk` is the content of the child's buffer before its first read. -/
def main (capacity : ℕ+) (iterations : ℤ) (junk : UInt8) : System Action (State capacity) :=
  ⟨{ childBuf := junk }, tick iterations⟩

/-- Every way in which the parent moves, with all that is known of it. -/
inductive ParentMove (iterations : ℤ) (s : State capacity) : Outcome → State capacity → Prop
  | closeRead : s.parent = .closeP2cRead → ParentMove iterations s .success
      { s with p2c := s.p2c.closeRead .parent, parent := .closeC2pWrite }
  | closeWrite : s.parent = .closeC2pWrite → ParentMove iterations s .success
      { s with c2p := s.c2p.closeWrite .parent, parent := .clockStart }
  | start : s.parent = .clockStart → ParentMove iterations s .success { s with parent := .loop }
  | write (p : Channel capacity) : s.parent = .loop → (s.parentI : ℤ) < iterations →
      s.p2c.write s.parentBuf = .done p → ParentMove iterations s .success { s with
        p2c := p, parent := .read, parentWritten := s.parentWritten ++ [s.parentBuf] }
  | leave : s.parent = .loop → ¬ (s.parentI : ℤ) < iterations →
      ParentMove iterations s .success { s with parent := .wait }
  | read (b : UInt8) (p : Channel capacity) : s.parent = .read → s.c2p.read = .done (b, p) →
      ParentMove iterations s .success { s with
        c2p := p, parent := .loop, parentI := s.parentI + 1, parentBuf := b,
        parentRead := s.parentRead ++ [b] }
  | broken : s.parent = .loop → (s.parentI : ℤ) < iterations → s.p2c.readers = ∅ →
      ParentMove iterations s .success (s.exitParent .sigpipe)
  | eof : s.parent = .read → s.c2p.buffer.items = [] → s.c2p.writers = ∅ →
      ParentMove iterations s .success (s.exitParent (.code 1))
  | reap (e : Exit) : s.parent = .wait → s.child = .exited e →
      ParentMove iterations s .success (s.exitParent (.code 0))
  | fail : s.parent = .clockStart ∨ s.parent = .loop ∨ s.parent = .read →
      ParentMove iterations s .failure (s.exitParent (.code 1))

inductive ChildMove (iterations : ℤ) (s : State capacity) : Outcome → State capacity → Prop
  | closeWrite : s.child = .closeP2cWrite → ChildMove iterations s .success
      { s with p2c := s.p2c.closeWrite .child, child := .closeC2pRead }
  | closeRead : s.child = .closeC2pRead → ChildMove iterations s .success
      { s with c2p := s.c2p.closeRead .child, child := .loop }
  | read (b : UInt8) (p : Channel capacity) : s.child = .loop → (s.childI : ℤ) < iterations →
      s.p2c.read = .done (b, p) → ChildMove iterations s .success { s with
        p2c := p, child := .write, childBuf := b, childRead := s.childRead ++ [b] }
  | write (p : Channel capacity) : s.child = .write → s.c2p.write s.childBuf = .done p →
      ChildMove iterations s .success { s with
        c2p := p, child := .loop, childI := s.childI + 1,
        childWritten := s.childWritten ++ [s.childBuf] }
  | finish : s.child = .loop → ¬ (s.childI : ℤ) < iterations →
      ChildMove iterations s .success (s.exitChild (.code 0))
  | eof : s.child = .loop → (s.childI : ℤ) < iterations → s.p2c.buffer.items = [] →
      s.p2c.writers = ∅ → ChildMove iterations s .success (s.exitChild (.code 1))
  | broken : s.child = .write → s.c2p.readers = ∅ →
      ChildMove iterations s .success (s.exitChild .sigpipe)
  | fail : s.child = .loop ∧ (s.childI : ℤ) < iterations ∨ s.child = .write →
      ChildMove iterations s .failure (s.exitChild (.code 1))

theorem parentStep_move {iterations : ℤ} {s t : State capacity} {o : Outcome}
    (h : parentStep iterations s o = some t) : ParentMove iterations s o t := by
  cases o with
  | success =>
      unfold parentStep at h
      dsimp only at h
      split at h
      case h_1 hp => exact Option.some.inj h ▸ .closeRead hp
      case h_2 hp => exact Option.some.inj h ▸ .closeWrite hp
      case h_3 hp => exact Option.some.inj h ▸ .start hp
      case h_4 hp =>
        split_ifs at h with hi
        · split at h
          · cases h
          · next hw => exact Option.some.inj h ▸ .broken hp hi (Pipe.write_eq_closed.mp hw)
          · next p hw => exact Option.some.inj h ▸ .write p hp hi hw
        · exact Option.some.inj h ▸ .leave hp hi
      case h_5 hp =>
        split at h
        · cases h
        · next hr =>
            obtain ⟨hb, hw⟩ := Pipe.read_eq_closed.mp hr
            exact Option.some.inj h ▸ .eof hp hb hw
        · next b p hr => exact Option.some.inj h ▸ .read b p hp hr
      case h_6 hp =>
        split at h
        · next e hc => exact Option.some.inj h ▸ .reap e hp hc
        · cases h
      case h_7 => cases h
  | failure =>
      unfold parentStep at h
      dsimp only at h
      split at h
      case h_1 hp => exact Option.some.inj h ▸ .fail (.inl hp)
      case h_2 hp => exact Option.some.inj h ▸ .fail (.inr (.inl hp))
      case h_3 hp => exact Option.some.inj h ▸ .fail (.inr (.inr hp))
      case h_4 => cases h

theorem childStep_move {iterations : ℤ} {s t : State capacity} {o : Outcome}
    (h : childStep iterations s o = some t) : ChildMove iterations s o t := by
  cases o with
  | success =>
      unfold childStep at h
      dsimp only at h
      split at h
      case h_1 hc => exact Option.some.inj h ▸ .closeWrite hc
      case h_2 hc => exact Option.some.inj h ▸ .closeRead hc
      case h_3 hc =>
        split_ifs at h with hi
        · split at h
          · cases h
          · next hr =>
              obtain ⟨hb, hw⟩ := Pipe.read_eq_closed.mp hr
              exact Option.some.inj h ▸ .eof hc hi hb hw
          · next b p hr => exact Option.some.inj h ▸ .read b p hc hi hr
        · exact Option.some.inj h ▸ .finish hc hi
      case h_4 hc =>
        split at h
        · cases h
        · next hw => exact Option.some.inj h ▸ .broken hc (Pipe.write_eq_closed.mp hw)
        · next p hw => exact Option.some.inj h ▸ .write p hc hw
      case h_5 => cases h
  | failure =>
      unfold childStep at h
      dsimp only at h
      split at h
      case h_1 hc =>
        split_ifs at h with hi
        exact Option.some.inj h ▸ .fail (.inl ⟨hc, hi⟩)
      case h_2 hc => exact Option.some.inj h ▸ .fail (.inr hc)
      case h_3 => cases h

def ParentPc.alive : ParentPc → Bool
  | .exited _ => false
  | _ => true

def ChildPc.alive : ChildPc → Bool
  | .exited _ => false
  | _ => true

/-- Who holds which pipe end is decided by the two program counters. -/
structure Ends (s : State capacity) : Prop where
  p2cReaders : ∀ q, q ∈ s.p2c.readers ↔
    q = .parent ∧ s.parent = .closeP2cRead ∨ q = .child ∧ s.child.alive = true
  p2cWriters : ∀ q, q ∈ s.p2c.writers ↔
    q = .parent ∧ s.parent.alive = true ∨ q = .child ∧ s.child = .closeP2cWrite
  c2pReaders : ∀ q, q ∈ s.c2p.readers ↔ q = .parent ∧ s.parent.alive = true ∨
    q = .child ∧ (s.child = .closeP2cWrite ∨ s.child = .closeC2pRead)
  c2pWriters : ∀ q, q ∈ s.c2p.writers ↔ q = .child ∧ s.child.alive = true ∨
    q = .parent ∧ (s.parent = .closeP2cRead ∨ s.parent = .closeC2pWrite)

theorem Ends.exitParent {s : State capacity} (h : Ends s) (e : Exit) : Ends (s.exitParent e) := by
  constructor <;> intro q <;> cases q <;>
    simp [State.exitParent, ParentPc.alive, h.p2cReaders, h.p2cWriters, h.c2pReaders, h.c2pWriters]

theorem Ends.exitChild {s : State capacity} (h : Ends s) (e : Exit) : Ends (s.exitChild e) := by
  constructor <;> intro q <;> cases q <;>
    simp [State.exitChild, ChildPc.alive, h.p2cReaders, h.p2cWriters, h.c2pReaders, h.c2pWriters]

theorem Ends.parentMove {iterations : ℤ} {s t : State capacity} {o : Outcome} (h : Ends s)
    (hm : ParentMove iterations s o t) : Ends t := by
  have hrp := h.p2cReaders
  have hwp := h.p2cWriters
  have hrc := h.c2pReaders
  have hwc := h.c2pWriters
  cases hm with
  | closeRead hp | closeWrite hp | start hp | leave hp =>
      simp only [hp, ParentPc.alive] at hrp hwp hrc hwc
      constructor <;> intro q <;> cases q <;> simp [ParentPc.alive, hrp, hwp, hrc, hwc]
  | write p hp hi hw =>
      obtain ⟨-, -, -, hr, hw⟩ := Pipe.write_eq_done.mp hw
      simp only [hp, ParentPc.alive] at hrp hwp hrc hwc
      constructor <;> intro q <;> cases q <;> simp [ParentPc.alive, hr, hw, hrp, hwp, hrc, hwc]
  | read b p hp hr =>
      obtain ⟨-, hr, hw⟩ := Pipe.read_eq_done.mp hr
      simp only [hp, ParentPc.alive] at hrp hwp hrc hwc
      constructor <;> intro q <;> cases q <;> simp [ParentPc.alive, hr, hw, hrp, hwp, hrc, hwc]
  | broken | eof | reap | fail => exact h.exitParent _

theorem Ends.childMove {iterations : ℤ} {s t : State capacity} {o : Outcome} (h : Ends s)
    (hm : ChildMove iterations s o t) : Ends t := by
  have hrp := h.p2cReaders
  have hwp := h.p2cWriters
  have hrc := h.c2pReaders
  have hwc := h.c2pWriters
  cases hm with
  | closeWrite hc | closeRead hc =>
      simp only [hc, ChildPc.alive] at hrp hwp hrc hwc
      constructor <;> intro q <;> cases q <;> simp [ChildPc.alive, hrp, hwp, hrc, hwc]
  | read b p hc hi hr =>
      obtain ⟨-, hr, hw⟩ := Pipe.read_eq_done.mp hr
      simp only [hc, ChildPc.alive] at hrp hwp hrc hwc
      constructor <;> intro q <;> cases q <;> simp [ChildPc.alive, hr, hw, hrp, hwp, hrc, hwc]
  | write p hc hw =>
      obtain ⟨-, -, -, hr, hw⟩ := Pipe.write_eq_done.mp hw
      simp only [hc, ChildPc.alive] at hrp hwp hrc hwc
      constructor <;> intro q <;> cases q <;> simp [ChildPc.alive, hr, hw, hrp, hwp, hrc, hwc]
  | finish | eof | broken | fail => exact h.exitChild _

theorem Ends.p2cWriters_eq_empty {s : State capacity} (h : Ends s) :
    s.p2c.writers = ∅ ↔ s.parent.alive = false ∧ s.child ≠ .closeP2cWrite := by
  rw [Finset.eq_empty_iff_forall_notMem]
  simp [h.p2cWriters, forall_and, not_or]

theorem Ends.c2pWriters_eq_empty {s : State capacity} (h : Ends s) :
    s.c2p.writers = ∅ ↔ s.child.alive = false ∧
      s.parent ≠ .closeP2cRead ∧ s.parent ≠ .closeC2pWrite := by
  rw [Finset.eq_empty_iff_forall_notMem]
  simp [h.c2pWriters, forall_and, not_or]

/-- Where the one byte of the exchange is. An exited process stays where it
was; the byte a dead child held is gone. -/
def Located (s : State capacity) : RoundTrip.Phase UInt8 → Prop
  | .idle => s.parent ≠ .read ∧ s.p2c.buffer.items = [] ∧ s.c2p.buffer.items = [] ∧
      s.child ≠ .write
  | .request b => (s.parent = .read ∨ s.parent.alive = false) ∧ s.p2c.buffer.items = [b] ∧
      s.c2p.buffer.items = [] ∧ s.child ≠ .write
  | .held b => (s.parent = .read ∨ s.parent.alive = false) ∧ s.p2c.buffer.items = [] ∧
      s.c2p.buffer.items = [] ∧ (s.child = .write ∧ s.childBuf = b ∨ s.child.alive = false)
  | .reply b => (s.parent = .read ∨ s.parent.alive = false) ∧ s.p2c.buffer.items = [] ∧
      s.c2p.buffer.items = [b] ∧ s.child ≠ .write

structure Refines (iterations : ℤ) (s : State capacity) (u : RoundTrip.State UInt8) : Prop where
  matched : u.Matched
  written : s.parentWritten = u.asked
  childRead : s.childRead = u.taken
  childWritten : s.childWritten = u.given
  read : s.parentRead = u.collected
  ends : Ends s
  located : Located s u.phase
  parentI : s.parentI = u.collected.length
  childI : s.childI = u.given.length
  bounded : s.parentI ≤ iterations.toNat
  running : s.parent = .read → s.parentI < iterations.toNat
  left : s.parent = .wait → s.parentI = iterations.toNat
  childBounded : s.childI ≤ iterations.toNat
  writing : s.child = .write → s.childI < iterations.toNat

theorem refines_init (iterations : ℤ) (junk : UInt8) : Refines iterations
    (main capacity iterations junk).init (RoundTrip.exchange UInt8).init where
  matched := ⟨rfl, rfl, rfl⟩
  written := rfl
  childRead := rfl
  childWritten := rfl
  read := rfl
  ends := by constructor <;> intro q <;> cases q <;> simp [main, ParentPc.alive, ChildPc.alive]
  located := by simp [Located, main, RoundTrip.exchange]
  parentI := rfl
  childI := rfl
  bounded := Nat.zero_le _
  running := by simp [main]
  left := by simp [main]
  childBounded := Nat.zero_le _
  writing := by simp [main]

section Steps
variable {iterations : ℤ} {s t : State capacity} {u : RoundTrip.State UInt8} {o : Outcome}

theorem Located.exitParent {φ : RoundTrip.Phase UInt8} (h : Located s φ) (e : Exit) :
    Located (s.exitParent e) φ := by
  cases φ with
  | idle => exact ⟨by simp [State.exitParent], h.2⟩
  | request b | held b | reply b => exact ⟨.inr rfl, h.2⟩

theorem Located.exitChild {φ : RoundTrip.Phase UInt8} (h : Located s φ) (e : Exit) :
    Located (s.exitChild e) φ := by
  cases φ with
  | idle => exact ⟨h.1, h.2.1, h.2.2.1, by simp [State.exitChild]⟩
  | request b => exact ⟨h.1, h.2.1, h.2.2.1, by simp [State.exitChild]⟩
  | held b => exact ⟨h.1, h.2.1, h.2.2.1, .inr rfl⟩
  | reply b => exact ⟨h.1, h.2.1, h.2.2.1, by simp [State.exitChild]⟩

/-- A parent which is not in its read has no exchange under way. -/
theorem Located.eq_idle {φ : RoundTrip.Phase UInt8} (h : Located s φ) (hread : s.parent ≠ .read)
    (halive : s.parent.alive = true) : φ = .idle := by
  cases φ with
  | idle => rfl
  | request b | held b | reply b =>
      rcases h.1 with hp | hdead
      · exact absurd hp hread
      · rw [halive] at hdead
        cases hdead

theorem Refines.exitParent (h : Refines iterations s u) (e : Exit) :
    Refines iterations (s.exitParent e) u :=
  { h with
    ends := h.ends.exitParent e
    located := h.located.exitParent e
    running := by simp [State.exitParent]
    left := by simp [State.exitParent] }

theorem Refines.exitChild (h : Refines iterations s u) (e : Exit) :
    Refines iterations (s.exitChild e) u :=
  { h with
    ends := h.ends.exitChild e
    located := h.located.exitChild e
    writing := by simp [State.exitChild] }

/-- Every move of the parent is at most one operation of the exchange. -/
theorem Refines.parentMove (h : Refines iterations s u) (hm : ParentMove iterations s o t) :
    ∃ ops v, (RoundTrip.exchange UInt8).Run ops u v ∧ Refines iterations t v := by
  have hends := h.ends.parentMove hm
  have hl := h.located
  obtain ⟨phase, asked, taken, given, collected⟩ := u
  cases hm with
  | closeRead hp | closeWrite hp | start hp =>
      apply System.stutter
      have hidle : phase = .idle := hl.eq_idle (by simp [hp]) (by rw [hp]; rfl)
      subst hidle
      exact { h with
        ends := hends
        located := ⟨by simp, hl.2⟩
        running := by simp
        left := by simp }
  | leave hp hi =>
      apply System.stutter
      have hn := h.bounded
      have hidle : phase = .idle := hl.eq_idle (by simp [hp]) (by rw [hp]; rfl)
      subst hidle
      exact { h with
        ends := hends
        located := ⟨by simp, hl.2⟩
        running := by simp
        left := fun _ => by simp only; omega }
  | write p hp hi hw =>
      obtain ⟨-, -, hitems, -, -⟩ := Pipe.write_eq_done.mp hw
      have hidle : phase = .idle := hl.eq_idle (by simp [hp]) (by rw [hp]; rfl)
      subst hidle
      obtain ⟨-, hp2c, hc2p, hc⟩ := hl
      have hv : RoundTrip.tick (.ask s.parentBuf) ⟨.idle, asked, taken, given, collected⟩ =
        some ⟨.request s.parentBuf, asked ++ [s.parentBuf], taken, given, collected⟩ := rfl
      exact ⟨[.ask s.parentBuf], _, System.run_single.mpr hv, { h with
        matched := RoundTrip.tick_matched h.matched hv
        written := congrArg (· ++ [s.parentBuf]) h.written
        ends := hends
        located := ⟨.inl rfl, by simpa [hp2c] using hitems, hc2p, hc⟩
        running := fun _ => by simp only; omega
        left := by simp }⟩
  | read b p hp hr =>
      obtain ⟨hitems, -, -⟩ := Pipe.read_eq_done.mp hr
      cases phase <;> simp only [Located, hp, hitems, ne_eq, not_true_eq_false, reduceCtorEq,
        false_and, and_false] at hl
      rename_i k
      obtain ⟨-, hp2c, hc2p, hc⟩ := hl
      obtain ⟨rfl, hrest⟩ := List.cons.inj hc2p
      have hv : RoundTrip.tick .collect ⟨.reply b, asked, taken, given, collected⟩ =
        some ⟨.idle, asked, taken, given, collected ++ [b]⟩ := rfl
      exact ⟨[.collect], _, System.run_single.mpr hv, { h with
        matched := RoundTrip.tick_matched h.matched hv
        read := congrArg (· ++ [b]) h.read
        ends := hends
        located := ⟨by simp, hp2c, hrest, hc⟩
        parentI := by simpa using h.parentI
        bounded := h.running hp
        running := by simp
        left := by simp }⟩
  | broken | eof | reap | fail => exact System.stutter (h.exitParent _)

theorem Refines.childMove (h : Refines iterations s u) (hm : ChildMove iterations s o t) :
    ∃ ops v, (RoundTrip.exchange UInt8).Run ops u v ∧ Refines iterations t v := by
  have hends := h.ends.childMove hm
  have hl := h.located
  obtain ⟨phase, asked, taken, given, collected⟩ := u
  cases hm with
  | closeWrite hc | closeRead hc =>
      apply System.stutter
      exact { h with
        ends := hends
        located := by
          cases phase <;> simp only [Located, hc, reduceCtorEq, false_and, and_false, or_self,
            ChildPc.alive] at hl
          · exact ⟨hl.1, hl.2.1, hl.2.2.1, by simp⟩
          · exact ⟨hl.1, hl.2.1, hl.2.2.1, by simp⟩
          · exact ⟨hl.1, hl.2.1, hl.2.2.1, by simp⟩
        writing := by simp }
  | read b p hc hi hr =>
      obtain ⟨hitems, -, -⟩ := Pipe.read_eq_done.mp hr
      cases phase <;> simp only [Located, hc, hitems, ne_eq, reduceCtorEq, false_and,
        and_false] at hl
      obtain ⟨hp, hp2c, hc2p, -⟩ := hl
      obtain ⟨rfl, hrest⟩ := List.cons.inj hp2c
      have hv : RoundTrip.tick .take ⟨.request b, asked, taken, given, collected⟩ =
        some ⟨.held b, asked, taken ++ [b], given, collected⟩ := rfl
      exact ⟨[.take], _, System.run_single.mpr hv, { h with
        matched := RoundTrip.tick_matched h.matched hv
        childRead := congrArg (· ++ [b]) h.childRead
        ends := hends
        located := ⟨hp, hrest, hc2p, .inl ⟨rfl, rfl⟩⟩
        writing := fun _ => by simp only; omega }⟩
  | write p hc hw =>
      obtain ⟨-, -, hitems, -, -⟩ := Pipe.write_eq_done.mp hw
      cases phase <;> simp only [Located, hc, ne_eq, not_true_eq_false, and_false, true_and,
        ChildPc.alive, Bool.true_eq_false, or_false] at hl
      obtain ⟨hp, hp2c, hc2p, rfl⟩ := hl
      have hv : RoundTrip.tick .give ⟨.held s.childBuf, asked, taken, given, collected⟩ =
        some ⟨.reply s.childBuf, asked, taken, given ++ [s.childBuf], collected⟩ := rfl
      exact ⟨[.give], _, System.run_single.mpr hv, { h with
        matched := RoundTrip.tick_matched h.matched hv
        childWritten := congrArg (· ++ [s.childBuf]) h.childWritten
        ends := hends
        located := ⟨hp, hp2c, by simpa [hc2p] using hitems, by simp⟩
        childI := by simpa using h.childI
        childBounded := h.writing hc
        writing := by simp }⟩
  | finish | eof | broken | fail => exact System.stutter (h.exitChild _)

theorem Refines.tick {a : Action} (h : Refines iterations s u)
    (ht : tick iterations a s = some t) :
    ∃ ops v, (RoundTrip.exchange UInt8).Run ops u v ∧ Refines iterations t v := by
  obtain ⟨party, outcome⟩ := a
  cases party with
  | parent => exact h.parentMove (parentStep_move ht)
  | child => exact h.childMove (childStep_move ht)

end Steps

def refinement (capacity : ℕ+) (iterations : ℤ) (junk : UInt8) :
    System.Simulation (main capacity iterations junk) (RoundTrip.exchange UInt8)
      (fun _ => True) where
  Rel := Refines iterations
  init := refines_init iterations junk
  step _ _ _ _ _ h ht := h.tick ht

section Progress
variable {iterations : ℤ} {s t : State capacity} {u : RoundTrip.State UInt8}

theorem Refines.childI_eq (h : Refines iterations s u) :
    s.childI = s.parentI + u.phase.answered := by
  rw [h.childI, h.parentI, h.matched.given_length]

/-- A blocked child waits for a byte of a parent which is still there. -/
theorem Refines.child_blocked (h : Refines iterations s u) (hc : s.child.alive = true)
    (hb : childStep iterations s .success = none) :
    s.child = .loop ∧ s.childI < iterations.toNat ∧ s.p2c.buffer.items = [] ∧
      s.parent.alive = true := by
  unfold childStep at hb
  cases hp : s.child with
  | closeP2cWrite | closeC2pRead => simp [hp] at hb
  | exited e => simp [hp, ChildPc.alive] at hc
  | loop =>
      simp only [hp] at hb
      split_ifs at hb with hi
      split at hb
      · next hr =>
          have hr := Pipe.read_eq_blocked.mp hr
          refine ⟨rfl, by omega, hr.1, ?_⟩
          have hw := hr.2
          rw [ne_eq, h.ends.p2cWriters_eq_empty] at hw
          simpa [hp] using hw
      · cases hb
      · cases hb
  | write =>
      have hl := h.located
      have hempty : s.c2p.buffer.items = [] := by
        cases hu : u.phase <;> simp only [hu, Located, hp, ne_eq, not_true_eq_false,
          and_false] at hl
        exact hl.2.2.1
      have hroom := Pipe.write_ne_blocked (p := s.c2p) (m := s.childBuf)
        (by simp [hempty, capacity.pos])
      simp only [hp] at hb
      split at hb
      · next hw => exact absurd hw hroom
      · cases hb
      · cases hb

/-- A blocked parent waits for a child which is still there. -/
theorem Refines.parent_blocked (h : Refines iterations s u) (hp : s.parent.alive = true)
    (hb : parentStep iterations s .success = none) : s.child.alive = true ∧
      (s.parent = .wait ∨ s.parent = .read ∧ s.c2p.buffer.items = []) := by
  unfold parentStep at hb
  cases hpc : s.parent with
  | closeP2cRead | closeC2pWrite | clockStart => simp [hpc] at hb
  | exited e => simp [hpc, ParentPc.alive] at hp
  | loop =>
      have hl := h.located
      have hempty : s.p2c.buffer.items = [] := by
        cases hu : u.phase <;> simp only [hu, Located, hpc, ParentPc.alive, reduceCtorEq,
          Bool.true_eq_false, or_self, false_and] at hl
        exact hl.2.1
      have hroom := Pipe.write_ne_blocked (p := s.p2c) (m := s.parentBuf)
        (by simp [hempty, capacity.pos])
      simp only [hpc] at hb
      split_ifs at hb
      split at hb
      · next hw => exact absurd hw hroom
      · cases hb
      · cases hb
  | read =>
      simp only [hpc] at hb
      split at hb
      · next hr =>
          have hr := Pipe.read_eq_blocked.mp hr
          have hw := hr.2
          rw [ne_eq, h.ends.c2pWriters_eq_empty] at hw
          exact ⟨by simpa [hpc] using hw, .inr ⟨rfl, hr.1⟩⟩
      · cases hb
      · cases hb
  | wait =>
      simp only [hpc] at hb
      split at hb
      · cases hb
      · next hc =>
          refine ⟨?_, .inl rfl⟩
          cases hcs : s.child <;> simp_all [ChildPc.alive]

/-- While a process is left, some call can be made or returns. -/
theorem Refines.progress (h : Refines iterations s u)
    (halive : s.parent.alive = true ∨ s.child.alive = true) :
    (parentStep iterations s .success).isSome ∨ (childStep iterations s .success).isSome := by
  by_contra hnot
  simp only [not_or, Option.not_isSome_iff_eq_none] at hnot
  have hchild := h.child_blocked
  cases hp : s.parent.alive with
  | false =>
      have hc := hchild (by simpa [hp] using halive) hnot.2
      simp [hp] at hc
  | true =>
      have hparent := h.parent_blocked hp hnot.1
      have hc := hchild hparent.1 hnot.2
      have hl := h.located
      have hi := h.childI_eq
      rcases hparent.2 with hw | hr
      · cases hu : u.phase <;> simp only [hu, Located, hw, ParentPc.alive, reduceCtorEq,
          Bool.true_eq_false, or_self, false_and] at hl
        simp only [hu, RoundTrip.Phase.answered, Nat.add_zero, h.left hw] at hi
        omega
      · cases hu : u.phase <;> simp [hu, Located, hr, hc, ChildPc.alive] at hl

/-- What is left of the parent's loop and of its other calls. -/
def State.parentLeft (iterations : ℤ) (s : State capacity) : ℕ :=
  match s.parent with
  | .closeP2cRead => 2 * iterations.toNat + 5
  | .closeC2pWrite => 2 * iterations.toNat + 4
  | .clockStart => 2 * iterations.toNat + 3
  | .loop => 2 * (iterations.toNat - s.parentI) + 2
  | .read => 2 * (iterations.toNat - s.parentI) + 1
  | .wait => 1
  | .exited _ => 0

def State.childLeft (iterations : ℤ) (s : State capacity) : ℕ :=
  match s.child with
  | .closeP2cWrite => 2 * iterations.toNat + 3
  | .closeC2pRead => 2 * iterations.toNat + 2
  | .loop => 2 * (iterations.toNat - s.childI) + 1
  | .write => 2 * (iterations.toNat - s.childI)
  | .exited _ => 0

def State.callsLeft (iterations : ℤ) (s : State capacity) : ℕ :=
  s.parentLeft iterations + s.childLeft iterations

theorem Refines.callsLeft_lt {a : Action} (h : Refines iterations s u)
    (ht : ProcessCtxSwitch.tick iterations a s = some t) :
    t.callsLeft iterations < s.callsLeft iterations := by
  have hrun := h.running
  have hwrite := h.writing
  obtain ⟨party, outcome⟩ := a
  cases party with
  | parent =>
      cases parentStep_move ht with
      | read b p hp =>
          have hlt := hrun hp
          simp only [State.callsLeft, State.parentLeft, State.childLeft, hp]
          omega
      | fail hp =>
          rcases hp with hp | hp | hp <;>
            simp [State.callsLeft, State.parentLeft, State.childLeft, State.exitParent, hp]
      | closeRead hp | closeWrite hp | start hp | write _ hp | leave hp | broken hp | eof hp
      | reap _ hp =>
          simp only [State.callsLeft, State.parentLeft, State.childLeft, State.exitParent, hp]
          omega
  | child =>
      cases childStep_move ht with
      | write p hc =>
          have hlt := hwrite hc
          simp only [State.callsLeft, State.parentLeft, State.childLeft, hc]
          omega
      | broken hc =>
          have hlt := hwrite hc
          simp only [State.callsLeft, State.parentLeft, State.childLeft, State.exitChild, hc]
          omega
      | fail hc =>
          rcases hc with hc | hc
          · simp [State.callsLeft, State.parentLeft, State.childLeft, State.exitChild, hc.1]
          · have hlt := hwrite hc
            simp only [State.callsLeft, State.parentLeft, State.childLeft, State.exitChild, hc]
            omega
      | closeWrite hc | closeRead hc | read _ _ hc | finish hc | eof hc =>
          simp only [State.callsLeft, State.parentLeft, State.childLeft, State.exitChild, hc]
          omega

end Progress

section Runs
variable {iterations : ℤ} {junk : UInt8} {s t : State capacity} {u : RoundTrip.State UInt8}
variable {as : List Action}

/-- How the processes exit when no call has failed. -/
structure Clean (iterations : ℤ) (s : State capacity) : Prop where
  parentExit : ∀ e, s.parent = .exited e →
    e = .code 0 ∧ s.parentI = iterations.toNat ∧ s.child.alive = false
  childExit : ∀ e, s.child = .exited e → e = .code 0 ∧ s.childI = iterations.toNat

theorem Clean.child_done (h : Clean iterations s) (hc : s.child.alive = false) :
    s.childI = iterations.toNat := by
  cases hcs : s.child with
  | exited e => exact (h.childExit e hcs).2
  | _ => simp [hcs, ChildPc.alive] at hc

theorem Clean.child_alive (h : Clean iterations s) (hr : Refines iterations s u)
    (hi : s.parentI < iterations.toNat) (hu : u.phase.answered = 0) : s.child.alive = true := by
  by_contra hc
  have hdone := h.child_done (by simpa using hc)
  have heq := hr.childI_eq
  omega

theorem Clean.parentMove (h : Clean iterations s) (hr : Refines iterations s u)
    (hm : ParentMove iterations s .success t) : Clean iterations t := by
  have hl := hr.located
  cases hm with
  | closeRead | closeWrite | start | write | leave | read =>
      exact ⟨by simp, h.childExit⟩
  | broken hp hi hreaders =>
      have hphase : u.phase.answered = 0 := by
        cases hu : u.phase <;> simp_all [Located, ParentPc.alive, RoundTrip.Phase.answered]
      have halive := h.child_alive hr (by omega) hphase
      have hmem := (hr.ends.p2cReaders .child).mpr (.inr ⟨rfl, halive⟩)
      simp [hreaders] at hmem
  | eof hp hitems hwriters =>
      have hphase : u.phase.answered = 0 := by
        cases hu : u.phase <;> simp_all [Located, RoundTrip.Phase.answered]
      have halive := h.child_alive hr (hr.running hp) hphase
      have hmem := (hr.ends.c2pWriters .child).mpr (.inl ⟨rfl, halive⟩)
      simp [hwriters] at hmem
  | reap e hp hc =>
      refine ⟨fun e' he => ?_, h.childExit⟩
      simp only [State.exitParent, ParentPc.exited.injEq] at he
      exact ⟨he.symm, hr.left hp, by simp [State.exitParent, hc, ChildPc.alive]⟩

theorem Clean.parent_alive (h : Clean iterations s) (hc : s.child.alive = true) :
    s.parent.alive = true := by
  cases hp : s.parent with
  | exited e => simp [(h.parentExit e hp).2.2] at hc
  | _ => rfl

theorem Clean.childMove (h : Clean iterations s) (hr : Refines iterations s u)
    (hm : ChildMove iterations s .success t) : Clean iterations t := by
  have stay (hc : s.child.alive = true) : ∀ e, s.parent ≠ .exited e := by
    intro e hp
    simpa [hp, ParentPc.alive] using h.parent_alive hc
  cases hm with
  | closeWrite hc | closeRead hc | read _ _ hc | write _ hc =>
      have hp := stay (by simp [hc, ChildPc.alive])
      exact ⟨fun e he => absurd he (hp e), by simp⟩
  | finish hc hi =>
      have hp := stay (by simp [hc, ChildPc.alive])
      have hle := hr.childBounded
      refine ⟨fun e he => absurd he (hp e), fun e he => ?_⟩
      simp only [State.exitChild, ChildPc.exited.injEq] at he
      exact ⟨he.symm, by simp only [State.exitChild]; omega⟩
  | eof hc _ _ hwriters =>
      have halive := h.parent_alive (by simp [hc, ChildPc.alive])
      have hmem := (hr.ends.p2cWriters .parent).mpr (.inl ⟨rfl, halive⟩)
      simp [hwriters] at hmem
  | broken hc hreaders =>
      have halive := h.parent_alive (by simp [hc, ChildPc.alive])
      have hmem := (hr.ends.c2pReaders .parent).mpr (.inl ⟨rfl, halive⟩)
      simp [hreaders] at hmem

theorem exists_refines (h : (main capacity iterations junk).Run as
    (main capacity iterations junk).init s) : ∃ u, Refines iterations s u := by
  obtain ⟨u, -, hu⟩ := (refinement capacity iterations junk).run h fun _ _ => trivial
  exact ⟨u, hu⟩

theorem clean_of_run (h : (main capacity iterations junk).Run as
      (main capacity iterations junk).init s) (hok : ∀ a ∈ as, a.outcome = .success) :
    Clean iterations s := by
  have hinv : (∃ u, Refines iterations s u) ∧ Clean iterations s := by
    apply h.invariant (I := fun s => (∃ u, Refines iterations s u) ∧ Clean iterations s)
      (fun a => a.outcome = .success) hok
    · exact ⟨⟨_, refines_init iterations junk⟩, ⟨by simp [main], by simp [main]⟩⟩
    · rintro ⟨party, outcome⟩ v w rfl ⟨⟨u, hu⟩, hclean⟩ ht
      obtain ⟨-, x, -, hx⟩ := hu.tick ht
      refine ⟨⟨x, hx⟩, ?_⟩
      cases party with
      | parent => exact hclean.parentMove hu (parentStep_move ht)
      | child => exact hclean.childMove hu (childStep_move ht)
  exact hinv.2

/-- Whatever fails and in whatever order the processes run, some call can be
made or returns until both have exited, and after boundedly many calls they
have. Without a failing call every byte comes back and both loops complete. -/
theorem no_deadlock (h : (main capacity iterations junk).Run as
      (main capacity iterations junk).init s) :
    (s.parent.alive = true ∨ s.child.alive = true →
      ∃ p, (main capacity iterations junk).Enabled ⟨p, .success⟩ s) ∧
    as.length ≤ 4 * iterations.toNat + 8 ∧
    ((∀ a ∈ as, a.outcome = .success) →
      (∀ (i : ℕ) b, s.parentRead[i]? = some b → s.parentWritten[i]? = some b ∧
        s.childRead[i]? = some b ∧ s.childWritten[i]? = some b) ∧
      s.parentRead.length = s.parentI ∧
      (s.parentI : ℤ) ≤ max iterations 0 ∧ (s.childI : ℤ) ≤ max iterations 0 ∧
      ∀ e f, s.parent = .exited e → s.child = .exited f →
        e = .code 0 ∧ f = .code 0 ∧
        (s.parentI : ℤ) = max iterations 0 ∧ (s.childI : ℤ) = max iterations 0) := by
  obtain ⟨u, hu⟩ := exists_refines h
  refine ⟨fun halive => ?_, ?_, ?_⟩
  · rcases hu.progress halive with hp | hc
    · exact ⟨.parent, hp⟩
    · exact ⟨.child, hc⟩
  · have hlen := h.length_add_le (I := fun s => ∃ u, Refines iterations s u) (fun _ => True)
      (State.callsLeft iterations) (fun _ _ => trivial) ⟨_, refines_init iterations junk⟩ ?_
    · simp only [main, State.callsLeft, State.parentLeft, State.childLeft] at hlen
      omega
    · rintro a v w - ⟨x, hx⟩ ht
      obtain ⟨-, y, -, hy⟩ := hx.tick ht
      exact ⟨⟨y, hy⟩, hx.callsLeft_lt ht⟩
  · intro hok
    have hclean := clean_of_run h hok
    have hp := hu.bounded
    have hc := hu.childBounded
    refine ⟨?_, by rw [hu.read, hu.parentI], by omega, by omega, ?_⟩
    · intro i b hb
      rw [hu.read] at hb
      rw [hu.written, hu.childRead, hu.childWritten]
      exact hu.matched.getElem? hb
    · intro e f he hf
      have hpe := hclean.parentExit e he
      have hce := hclean.childExit f hf
      exact ⟨hpe.1, hce.1, by omega, by omega⟩

/-- One iteration, in which the child starts after the parent has written. -/
def schedule : List Action :=
  [⟨.parent, .success⟩, ⟨.parent, .success⟩, ⟨.parent, .success⟩, ⟨.parent, .success⟩,
    ⟨.child, .success⟩, ⟨.child, .success⟩, ⟨.child, .success⟩, ⟨.child, .success⟩,
    ⟨.child, .success⟩, ⟨.parent, .success⟩, ⟨.parent, .success⟩, ⟨.parent, .success⟩]

theorem no_deadlock_once : ∃ s, (main 1 1 7).Run schedule (main 1 1 7).init s ∧
    s.child = .exited (.code 0) ∧ s.childWritten[0]? = some 0 ∧ s.parentI = 1 := by
  have h : ∃ s, (main 1 1 7).Run schedule (main 1 1 7).init s ∧
      s.parent = .exited (.code 0) ∧ s.child = .exited (.code 0) ∧
      s.parentRead[0]? = some 0 := ⟨_, rfl, by decide, by decide, by decide⟩
  obtain ⟨s, hrun, hp, hc, hb⟩ := h
  have hclean := (no_deadlock hrun).2.2 (by decide)
  have hdone := hclean.2.2.2.2 _ _ hp hc
  have hi : (s.parentI : ℤ) = 1 := hdone.2.2.1
  exact ⟨s, hrun, hc, (hclean.1 0 0 hb).2.2, by omega⟩

end Runs

end MicrokernelBenchmark.ProcessCtxSwitch
