import MicrokernelBenchmark.TransitionSystem
import MicrokernelBenchmark.Pipe
import MicrokernelBenchmark.Timespec
import MicrokernelBenchmark.DecimalText
import Mathlib.Data.List.TakeWhile
import Mathlib.Logic.Function.Basic

/-!
# Collecting the results of the sleeping processes

`sleep_wake_process` from its fork loops on, for any numbers of sleep and load
processes. A child gets a copy of every pipe end its parent has open at the fork,
so later children hold the ends of earlier pipes until they exit. The parent waits
for all children before it reads, and the children write before they exit.

The clock readings are given by the labels, and `expired` is the comparison of the
double `total_elapsed` with `TEST_DURATION`. A step is undefined where the call of
its process waits, and where C leaves the result of the step undefined.
-/
namespace MicrokernelBenchmark.SleepWakeProcess
open TransitionSystem FixedWidth DecimalText

inductive Process where
  | parent
  | sleep (i : ℕ)
  | load (j : ℕ)
deriving DecidableEq, Repr

inductive Exit where
  | success
  | failure
  | sigpipe
deriving DecidableEq, Repr

structure SleepProcData where
  procId : ℤ
  totalJitterNs : ℤ
  iterations : ℤ
deriving DecidableEq, Repr

inductive SleepPc where
  | closeRead
  | testStart
  | before (testStart : Timespec)
  | after (testStart before : Timespec)
  | now (testStart : Timespec)
  | write
  | close
  | exit
  | exited (e : Exit)
  | reaped
deriving DecidableEq, Repr

/-- The last field is what the process has written, if anything. -/
structure SleepProc where
  pc : SleepPc := .closeRead
  data : SleepProcData
  wrote : Option SleepProcData := none
deriving DecidableEq, Repr

inductive LoadPc where
  | start
  | loop (start : Timespec) (counter : UInt64)
  | now (start : Timespec) (counter : UInt64)
  | exited (e : Exit)
  | reaped
deriving DecidableEq, Repr

inductive ParentPc where
  | pipe (i : ℕ)
  | forkSleep (i : ℕ)
  | forkLoad (j : ℕ)
  | closeWrite (i : ℕ)
  | wait
  | read (i : ℕ)
  | closeRead (i : ℕ)
  | exited (e : Exit)
deriving DecidableEq, Repr

inductive Report where
  | result (d : SleepProcData)
  | unparsed (i : ℕ) (buf : List UInt8)
  | noData (i : ℕ)
deriving DecidableEq, Repr

/-- A `reap` is a `wait` which returns that child, a `clock` is a `clock_gettime` with
its reading, and a `call` is any other step. -/
inductive Action where
  | call (q : Process) (o : Outcome)
  | clock (q : Process) (reading : Option Timespec)
  | reap (q : Process)
deriving DecidableEq, Repr

def Action.process : Action → Process
  | .call q _ => q
  | .clock q _ => q
  | .reap _ => .parent

def Action.succeeds : Action → Bool
  | .call _ o => o = .success
  | .clock _ reading => reading.isSome
  | .reap _ => true

section Text

def sleepIntervalNs : ℤ := 10000000

def SleepProcData.sample (d : SleepProcData) (before after : Timespec) : SleepProcData :=
  let elapsedNs := timespecDiffNs after before
  let jitter := long (elapsedNs - sleepIntervalNs)
  let jitter := if jitter < 0 then 0 else jitter
  { d with
    totalJitterNs := long (d.totalJitterNs + jitter)
    iterations := long (d.iterations + 1) }

def bufferSize : ℕ := 128

def text (d : SleepProcData) : List UInt8 :=
  printInt d.procId ++ 32 :: (printInt d.totalJitterNs ++ 32 :: printInt d.iterations)

/-- What `write` sends. A text that `snprintf` had to cut would make it run past the buffer. -/
def message (d : SleepProcData) : Option (List UInt8) :=
  if (text d).length < bufferSize then some (text d) else none

/-- The inner option is empty with less than three conversions, the outer one when the
number of a conversion does not fit its type. -/
def sscanf (buf : List UInt8) : Option (Option SleepProcData) :=
  match scanAs FitsInt buf with
  | none => none
  | some none => some none
  | some (some (procId, buf)) =>
      match scanAs Fits buf with
      | none => none
      | some none => some none
      | some (some (totalJitterNs, buf)) =>
          match scanAs Fits buf with
          | none => none
          | some none => some none
          | some (some (iterations, _)) => some (some ⟨procId, totalJitterNs, iterations⟩)

def report (i : ℕ) (buf : List UInt8) : Option Report :=
  match sscanf (buf.takeWhile (· ≠ 0)) with
  | none => none
  | some none => some (.unparsed i buf)
  | some (some d) => some (.result d)

end Text

abbrev Channel (capacity : ℕ) := Pipe UInt8 Process capacity

structure State (capacity : ℕ) where
  pipes : ℕ → Option (Channel capacity) := fun _ => none
  sleeps : ℕ → Option SleepProc := fun _ => none
  loads : ℕ → Option LoadPc := fun _ => none
  parent : ParentPc := .pipe 0
  reports : List Report := []

variable {capacity : ℕ}

namespace State
variable (s : State capacity)

def setPipe (i : ℕ) (p : Channel capacity) : State capacity :=
  { s with pipes := Function.update s.pipes i (some p) }

def setSleep (i : ℕ) (c : SleepProc) : State capacity :=
  { s with sleeps := Function.update s.sleeps i (some c) }

def setLoad (j : ℕ) (l : LoadPc) : State capacity :=
  { s with loads := Function.update s.loads j (some l) }

def mapPipes (f : ℕ → Channel capacity → Channel capacity) : State capacity :=
  { s with pipes := fun k => (s.pipes k).map (f k) }

def mapPipe (i : ℕ) (f : Channel capacity → Channel capacity) : State capacity :=
  s.mapPipes fun k => if k = i then f else id

def inherit (q : Process) : State capacity := s.mapPipes fun _ p => p.inherit .parent q

def exit (q : Process) : State capacity := s.mapPipes fun _ p => p.exit q

def exitSleep (i : ℕ) (c : SleepProc) (e : Exit) : State capacity :=
  (s.exit (.sleep i)).setSleep i { c with pc := .exited e }

def exitLoad (j : ℕ) (e : Exit) : State capacity :=
  (s.exit (.load j)).setLoad j (.exited e)

def exitParent (e : Exit) : State capacity := { s.exit .parent with parent := .exited e }

/-- No child is left, and `wait` fails. -/
def NoChild (n m : ℕ) : Prop :=
  (∀ i < n, ∀ c ∈ s.sleeps i, c.pc = .reaped) ∧ ∀ j < m, ∀ l ∈ s.loads j, l = .reaped

instance (n m : ℕ) : Decidable (s.NoChild n m) := inferInstanceAs (Decidable (_ ∧ _))

end State

section Step
variable (expired : Timespec → Timespec → Bool) (n m : ℕ) (s : State capacity)

def parentStep : Outcome → Option (State capacity)
  | .success =>
      match s.parent with
      | .pipe i =>
          if i < n then
            some { s.setPipe i { readers := {.parent}, writers := {.parent} } with
              parent := .forkSleep i }
          else some { s with parent := .forkLoad 0 }
      | .forkSleep i =>
          some { (s.inherit (.sleep i)).setSleep i { data := ⟨i, 0, 0⟩ } with
            parent := .pipe (i + 1) }
      | .forkLoad j =>
          if j < m then
            some { (s.inherit (.load j)).setLoad j .start with parent := .forkLoad (j + 1) }
          else some { s with parent := .closeWrite 0 }
      | .closeWrite i =>
          if i < n then
            some { s.mapPipe i (·.closeWrite .parent) with parent := .closeWrite (i + 1) }
          else some { s with parent := .wait }
      | .wait => if s.NoChild n m then some { s with parent := .read 0 } else none
      | .read i =>
          if i < n then
            (s.pipes i).bind fun p =>
              match p.readUpTo (bufferSize - 1) with
              | .blocked => none
              | .closed => some { s with
                  reports := s.reports ++ [.noData i], parent := .closeRead i }
              | .done (buf, p) => (report i buf).map fun r => { s.setPipe i p with
                  reports := s.reports ++ [r], parent := .closeRead i }
          else some (s.exitParent .success)
      | .closeRead i => some { s.mapPipe i (·.closeRead .parent) with parent := .read (i + 1) }
      | .exited _ => none
  | .failure =>
      match s.parent with
      | .pipe i => if i < n then some (s.exitParent .failure) else none
      | .forkSleep _ => some (s.exitParent .failure)
      | .forkLoad j => if j < m then some (s.exitParent .failure) else none
      | _ => none

def reap : Process → Option (State capacity)
  | .parent => none
  | .sleep i => (s.sleeps i).bind fun c =>
      match c.pc with
      | .exited _ => some (s.setSleep i { c with pc := .reaped })
      | _ => none
  | .load j => (s.loads j).bind fun l =>
      match l with
      | .exited _ => some (s.setLoad j .reaped)
      | _ => none

def sleepCall (i : ℕ) (c : SleepProc) : Outcome → Option (State capacity)
  | .success =>
      match c.pc with
      | .closeRead => some ((s.mapPipe i (·.closeRead (.sleep i))).setSleep i
          { c with pc := .testStart })
      | .write => (message c.data).bind fun buffer => (s.pipes i).bind fun p =>
          match p.writeAll buffer with
          | .blocked => none
          | .closed => some (s.exitSleep i c .sigpipe)
          | .done p => some ((s.setPipe i p).setSleep i
              { c with pc := .close, wrote := some c.data })
      | .close => some ((s.mapPipe i (·.closeWrite (.sleep i))).setSleep i { c with pc := .exit })
      | .exit => some (s.exitSleep i c .success)
      | _ => none
  | .failure =>
      match c.pc with
      | .write => some (s.setSleep i { c with pc := .close })
      | _ => none

def sleepClock (i : ℕ) (c : SleepProc) : Option Timespec → Option (State capacity)
  | some t =>
      match c.pc with
      | .testStart => some (s.setSleep i { c with pc := .before t })
      | .before testStart => some (s.setSleep i { c with pc := .after testStart t })
      | .after testStart before =>
          some (s.setSleep i { c with pc := .now testStart, data := c.data.sample before t })
      | .now testStart =>
          some (s.setSleep i
            { c with pc := if expired testStart t then .write else .before testStart })
      | _ => none
  | none =>
      match c.pc with
      | .testStart | .before _ | .after _ _ | .now _ => some (s.exitSleep i c .failure)
      | _ => none

def loadCall (j : ℕ) (l : LoadPc) : Outcome → Option (State capacity)
  | .success =>
      match l with
      | .loop start counter =>
          let counter := counter + 1
          if counter % 1000000 = 0 then some (s.setLoad j (.now start counter))
          else some (s.setLoad j (.loop start counter))
      | _ => none
  | .failure => none

def loadClock (j : ℕ) (l : LoadPc) : Option Timespec → Option (State capacity)
  | some t =>
      match l with
      | .start => some (s.setLoad j (.loop t 0))
      | .now start counter =>
          if expired start t then some (s.exitLoad j .success)
          else some (s.setLoad j (.loop start counter))
      | _ => none
  | none =>
      match l with
      | .start | .now _ _ => some (s.exitLoad j .failure)
      | _ => none

def tick : Action → Option (State capacity)
  | .call .parent o => parentStep n m s o
  | .call (.sleep i) o => (s.sleeps i).bind fun c => sleepCall s i c o
  | .call (.load j) o => (s.loads j).bind fun l => loadCall s j l o
  | .clock .parent _ => none
  | .clock (.sleep i) reading => (s.sleeps i).bind fun c => sleepClock expired s i c reading
  | .clock (.load j) reading => (s.loads j).bind fun l => loadClock expired s j l reading
  | .reap q => if s.parent = .wait then reap s q else none

end Step

def main (capacity : ℕ) (expired : Timespec → Timespec → Bool) (n m : ℕ) :
    System Action (State capacity) :=
  ⟨{}, fun a s => tick expired n m s a⟩

/-- What process `i` reports is its own number and two words. -/
structure SleepProcData.Valid (i : ℕ) (d : SleepProcData) : Prop where
  procId : d.procId = i
  totalJitterNs : Fits d.totalJitterNs
  iterations : Fits d.iterations

/-- The three fields are values of their types. -/
structure SleepProcData.Representable (d : SleepProcData) : Prop where
  procId : FitsInt d.procId
  totalJitterNs : Fits d.totalJitterNs
  iterations : Fits d.iterations

section Text
variable {i : ℕ} {d : SleepProcData}

theorem SleepProcData.Valid.representable (h : d.Valid i) (hi : i ≤ 2147483647) :
    d.Representable where
  procId := by
    rw [h.procId, FitsInt]
    omega
  totalJitterNs := h.totalJitterNs
  iterations := h.iterations

theorem SleepProcData.Valid.sample (h : d.Valid i) (before after : Timespec) :
    (d.sample before after).Valid i where
  procId := h.procId
  totalJitterNs := fits_long _
  iterations := fits_long _

theorem length_printInt_of_fits {x : ℤ} (h : Fits x) : (printInt x).length ≤ 20 := by
  apply length_printInt_le (by decide)
  rw [Fits] at h
  omega

/-- Eleven bytes for an `int`, twenty for a `long`, and two blanks. -/
theorem length_text_le (h : d.Representable) : (text d).length ≤ 53 := by
  have hid : (printInt d.procId).length ≤ 11 := by
    have hprocId := h.procId
    rw [FitsInt] at hprocId
    apply length_printInt_le (by decide)
    omega
  have htotal := length_printInt_of_fits h.totalJitterNs
  have hiterations := length_printInt_of_fits h.iterations
  rw [text]
  simp only [List.length_append, List.length_cons]
  omega

theorem length_text_lt (hi : i ≤ 2147483647) (h : d.Valid i) :
    (text d).length < bufferSize :=
  Nat.lt_of_le_of_lt (length_text_le (h.representable hi)) (by decide)

theorem text_ne_nil (d : SleepProcData) : text d ≠ [] := by
  simp [text]

theorem message_eq {buffer : List UInt8} :
    message d = some buffer ↔ (text d).length < bufferSize ∧ text d = buffer := by
  simp [message]

theorem sscanf_text (h : d.Representable) : sscanf (text d) = some (some d) := by
  have hblank : ∀ rest : List UInt8, ∀ b ∈ (32 :: rest).head?, isDigit b = false := by
    intro rest b hb
    rw [List.head?_cons, Option.mem_some_iff] at hb
    rw [← hb]
    rfl
  have hscan₁ := scan_printInt d.procId
    (hblank (printInt d.totalJitterNs ++ 32 :: printInt d.iterations))
  have hscan₂ := scan_printInt d.totalJitterNs (hblank (printInt d.iterations))
  have hscan₃ : scan (printInt d.iterations ++ []) = some (d.iterations, []) :=
    scan_printInt d.iterations (by simp)
  rw [List.append_nil] at hscan₃
  rw [← scan_blank] at hscan₂ hscan₃
  rw [sscanf, text, scanAs_eq hscan₁ h.procId]
  dsimp only
  rw [scanAs_eq hscan₂ h.totalJitterNs]
  dsimp only
  rw [scanAs_eq hscan₃ h.iterations]

theorem takeWhile_text (d : SleepProcData) : (text d).takeWhile (· ≠ 0) = text d := by
  rw [List.takeWhile_eq_self_iff]
  intro b hb
  rw [text, List.mem_append, List.mem_cons, List.mem_append, List.mem_cons] at hb
  rw [decide_eq_true_eq]
  rcases hb with hb | rfl | hb | rfl | hb
  · exact ne_zero_of_mem_printInt hb
  · decide
  · exact ne_zero_of_mem_printInt hb
  · decide
  · exact ne_zero_of_mem_printInt hb

theorem report_representable (h : d.Representable) (k : ℕ) :
    report k (text d) = some (.result d) := by
  rw [report, takeWhile_text, sscanf_text h]

/-- The parent reports the triple that was written. -/
theorem report_text (hi : i ≤ 2147483647) (h : d.Valid i) (k : ℕ) :
    report k (text d) = some (.result d) := report_representable (h.representable hi) k

/-- The text of any three values gets whole into the buffer of the child and, from a pipe
which holds it, into the buffer of the parent, and is scanned as the three values. -/
theorem text_roundtrip (h : d.Representable) :
    message d = some (text d) ∧
    (∀ {capacity : ℕ} (p : Pipe UInt8 Process capacity), p.buffer.items = text d →
      ∃ p', p.readUpTo (bufferSize - 1) = .done (text d, p')) ∧
    sscanf ((text d).takeWhile (· ≠ 0)) = some (some d) ∧
    ∀ k, report k (text d) = some (.result d) := by
  have hlength := length_text_le h
  refine ⟨?_, ?_, ?_, report_representable h⟩
  · exact message_eq.mpr ⟨Nat.lt_of_le_of_lt hlength (by decide), rfl⟩
  · intro capacity p hp
    have hne : p.buffer.items ≠ [] := by
      rw [hp]
      exact text_ne_nil d
    have hle : p.buffer.items.length ≤ bufferSize - 1 := by
      rw [hp]
      exact Nat.le_trans hlength (by decide)
    have hread := Pipe.readUpTo_all hne hle
    rw [hp] at hread
    exact ⟨_, hread⟩
  · rw [takeWhile_text]
    exact sscanf_text h

/-- The least `int` beside the least and the greatest `long`. -/
theorem text_roundtrip_extremes :
    sscanf ((text ⟨-2147483648, -2 ^ 63, 2 ^ 63 - 1⟩).takeWhile (· ≠ 0)) =
      some (some ⟨-2147483648, -2 ^ 63, 2 ^ 63 - 1⟩) :=
  (text_roundtrip ⟨by decide, by decide, by decide⟩).2.2.1

end Text

section Moves

def SleepPc.alive : SleepPc → Bool
  | .exited _ | .reaped => false
  | _ => true

/-- The places from which the process still gets to its `write`. -/
def SleepPc.writing : SleepPc → Bool
  | .close | .exit | .exited _ | .reaped => false
  | _ => true

def LoadPc.alive : LoadPc → Bool
  | .exited _ | .reaped => false
  | _ => true

/-- Every way in which a sleep process moves. It exits from any place. -/
inductive SleepMove (s : State capacity) (i : ℕ) (c : SleepProc) : State capacity → Prop
  | silent (c' : SleepProc) : c.pc.alive → c'.pc.alive → (c'.pc.writing → c.pc.writing) →
      c'.wrote = c.wrote → (c'.data = c.data ∨ ∃ x y, c'.data = c.data.sample x y) →
      SleepMove s i c (s.setSleep i c')
  | closeRead : c.pc = .closeRead → SleepMove s i c
      ((s.mapPipe i (·.closeRead (.sleep i))).setSleep i { c with pc := .testStart })
  | write (p p' : Channel capacity) : c.pc = .write → s.pipes i = some p →
      p.writeAll (text c.data) = .done p' → SleepMove s i c
      ((s.setPipe i p').setSleep i { c with pc := .close, wrote := some c.data })
  | close : c.pc = .close → SleepMove s i c
      ((s.mapPipe i (·.closeWrite (.sleep i))).setSleep i { c with pc := .exit })
  | exit (e : Exit) : c.pc.alive → SleepMove s i c (s.exitSleep i c e)

inductive LoadMove (s : State capacity) (j : ℕ) (l : LoadPc) : State capacity → Prop
  | silent (l' : LoadPc) : l.alive → l'.alive → LoadMove s j l (s.setLoad j l')
  | exit (e : Exit) : l.alive → LoadMove s j l (s.exitLoad j e)

inductive ParentMove (n m : ℕ) (s : State capacity) : State capacity → Prop
  | pipe (i : ℕ) : s.parent = .pipe i → i < n → ParentMove n m s
      { s.setPipe i { readers := {.parent}, writers := {.parent} } with parent := .forkSleep i }
  | piped (i : ℕ) : s.parent = .pipe i → ¬ i < n → ParentMove n m s
      { s with parent := .forkLoad 0 }
  | forkSleep (i : ℕ) : s.parent = .forkSleep i → ParentMove n m s
      { (s.inherit (.sleep i)).setSleep i { data := ⟨i, 0, 0⟩ } with parent := .pipe (i + 1) }
  | forkLoad (j : ℕ) : s.parent = .forkLoad j → j < m → ParentMove n m s
      { (s.inherit (.load j)).setLoad j .start with parent := .forkLoad (j + 1) }
  | forked (j : ℕ) : s.parent = .forkLoad j → ¬ j < m → ParentMove n m s
      { s with parent := .closeWrite 0 }
  | closeWrite (i : ℕ) : s.parent = .closeWrite i → i < n → ParentMove n m s
      { s.mapPipe i (·.closeWrite .parent) with parent := .closeWrite (i + 1) }
  | closed (i : ℕ) : s.parent = .closeWrite i → ¬ i < n → ParentMove n m s
      { s with parent := .wait }
  | waited : s.parent = .wait → s.NoChild n m → ParentMove n m s { s with parent := .read 0 }
  | readNone (i : ℕ) (p : Channel capacity) : s.parent = .read i → i < n → s.pipes i = some p →
      p.readUpTo (bufferSize - 1) = .closed → ParentMove n m s
      { s with reports := s.reports ++ [.noData i], parent := .closeRead i }
  | read (i : ℕ) (p p' : Channel capacity) (buf : List UInt8) (r : Report) :
      s.parent = .read i → i < n → s.pipes i = some p →
      p.readUpTo (bufferSize - 1) = .done (buf, p') → report i buf = some r → ParentMove n m s
      { s.setPipe i p' with reports := s.reports ++ [r], parent := .closeRead i }
  | collected (i : ℕ) : s.parent = .read i → ¬ i < n → ParentMove n m s (s.exitParent .success)
  | closeRead (i : ℕ) : s.parent = .closeRead i → ParentMove n m s
      { s.mapPipe i (·.closeRead .parent) with parent := .read (i + 1) }

inductive Move (n m : ℕ) (s t : State capacity) : Prop
  | parent : ParentMove n m s t → Move n m s t
  | sleep (i : ℕ) (c : SleepProc) : s.sleeps i = some c → SleepMove s i c t → Move n m s t
  | load (j : ℕ) (l : LoadPc) : s.loads j = some l → LoadMove s j l t → Move n m s t
  | reapSleep (i : ℕ) (c : SleepProc) (e : Exit) : s.sleeps i = some c → c.pc = .exited e →
      t = s.setSleep i { c with pc := .reaped } → Move n m s t
  | reapLoad (j : ℕ) (e : Exit) : s.loads j = some (.exited e) → t = s.setLoad j .reaped →
      Move n m s t

section Inversion
variable {expired : Timespec → Timespec → Bool} {n m i j : ℕ} {s t : State capacity}
  {c : SleepProc} {l : LoadPc} {o : Outcome} {reading : Option Timespec}

theorem sleepCall_move (h : sleepCall s i c o = some t) : SleepMove s i c t := by
  cases o with
  | success =>
      unfold sleepCall at h
      dsimp only at h
      split at h
      case h_1 hc => exact Option.some.inj h ▸ .closeRead hc
      case h_2 hc =>
        obtain ⟨buffer, hbuffer, h⟩ := Option.bind_eq_some_iff.mp h
        obtain ⟨p, hp, h⟩ := Option.bind_eq_some_iff.mp h
        obtain ⟨-, rfl⟩ := message_eq.mp hbuffer
        split at h
        · cases h
        · exact Option.some.inj h ▸ .exit .sigpipe (by rw [hc]; rfl)
        · next p' hwrite => exact Option.some.inj h ▸ .write p p' hc hp hwrite
      case h_3 hc => exact Option.some.inj h ▸ .close hc
      case h_4 hc => exact Option.some.inj h ▸ .exit .success (by rw [hc]; rfl)
      case h_5 => cases h
  | failure =>
      unfold sleepCall at h
      dsimp only at h
      split at h
      case h_1 hc =>
        exact Option.some.inj h ▸
          .silent _ (by rw [hc]; rfl) rfl (fun _ => by rw [hc]; rfl) rfl (.inl rfl)
      case h_2 => cases h

theorem sleepClock_move (h : sleepClock expired s i c reading = some t) : SleepMove s i c t := by
  cases reading with
  | some x =>
      unfold sleepClock at h
      dsimp only at h
      split at h
      case h_1 hc =>
        exact Option.some.inj h ▸
          .silent _ (by rw [hc]; rfl) rfl (fun _ => by rw [hc]; rfl) rfl (.inl rfl)
      case h_2 hc =>
        exact Option.some.inj h ▸
          .silent _ (by rw [hc]; rfl) rfl (fun _ => by rw [hc]; rfl) rfl (.inl rfl)
      case h_3 before hc =>
        exact Option.some.inj h ▸
          .silent _ (by rw [hc]; rfl) rfl (fun _ => by rw [hc]; rfl) rfl (.inr ⟨before, x, rfl⟩)
      case h_4 start hc =>
        have halive : (if expired start x then SleepPc.write else .before start).alive = true := by
          split <;> rfl
        exact Option.some.inj h ▸
          .silent _ (by rw [hc]; rfl) halive (fun _ => by rw [hc]; rfl) rfl (.inl rfl)
      case h_5 => cases h
  | none =>
      unfold sleepClock at h
      dsimp only at h
      split at h
      case h_5 => cases h
      all_goals
        next hc => exact Option.some.inj h ▸ .exit .failure (by rw [hc]; rfl)

theorem loadCall_move (h : loadCall s j l o = some t) : LoadMove s j l t := by
  unfold loadCall at h
  split at h
  case h_1 =>
    split at h
    case h_1 =>
      dsimp only at h
      split at h
      · exact Option.some.inj h ▸ .silent _ rfl rfl
      · exact Option.some.inj h ▸ .silent _ rfl rfl
    case h_2 => cases h
  case h_2 => cases h

theorem loadClock_move (h : loadClock expired s j l reading = some t) : LoadMove s j l t := by
  unfold loadClock at h
  split at h
  case h_1 =>
    split at h
    case h_1 => exact Option.some.inj h ▸ .silent _ rfl rfl
    case h_2 =>
      split at h
      · exact Option.some.inj h ▸ .exit .success rfl
      · exact Option.some.inj h ▸ .silent _ rfl rfl
    case h_3 => cases h
  case h_2 =>
    split at h
    case h_1 => exact Option.some.inj h ▸ .exit .failure rfl
    case h_2 => exact Option.some.inj h ▸ .exit .failure rfl
    case h_3 => cases h

theorem parentStep_move (h : parentStep n m s .success = some t) : ParentMove n m s t := by
  unfold parentStep at h
  dsimp only at h
  split at h
  case h_1 i hp =>
    split at h
    case isTrue hi => exact Option.some.inj h ▸ .pipe i hp hi
    case isFalse hi => exact Option.some.inj h ▸ .piped i hp hi
  case h_2 i hp => exact Option.some.inj h ▸ .forkSleep i hp
  case h_3 j hp =>
    split at h
    case isTrue hj => exact Option.some.inj h ▸ .forkLoad j hp hj
    case isFalse hj => exact Option.some.inj h ▸ .forked j hp hj
  case h_4 i hp =>
    split at h
    case isTrue hi => exact Option.some.inj h ▸ .closeWrite i hp hi
    case isFalse hi => exact Option.some.inj h ▸ .closed i hp hi
  case h_5 hp =>
    split at h
    case isTrue hnone => exact Option.some.inj h ▸ .waited hp hnone
    case isFalse => cases h
  case h_6 i hp =>
    split at h
    case isTrue hi =>
      obtain ⟨p, hpipe, h⟩ := Option.bind_eq_some_iff.mp h
      split at h
      · cases h
      · next hread => exact Option.some.inj h ▸ .readNone i p hp hi hpipe hread
      · next buf p' hread =>
          obtain ⟨r, hr, rfl⟩ := Option.map_eq_some_iff.mp h
          exact .read i p p' buf r hp hi hpipe hread hr
    case isFalse hi => exact Option.some.inj h ▸ .collected i hp hi
  case h_7 i hp => exact Option.some.inj h ▸ .closeRead i hp
  case h_8 => cases h

theorem tick_move {a : Action} (ha : a ≠ .call .parent .failure)
    (h : tick expired n m s a = some t) : Move n m s t := by
  cases a with
  | call q o =>
      cases q with
      | parent =>
          cases o with
          | success => exact .parent (parentStep_move h)
          | failure => exact absurd rfl ha
      | sleep i =>
          obtain ⟨c, hc, h⟩ := Option.bind_eq_some_iff.mp h
          exact .sleep i c hc (sleepCall_move h)
      | load j =>
          obtain ⟨l, hl, h⟩ := Option.bind_eq_some_iff.mp h
          exact .load j l hl (loadCall_move h)
  | clock q reading =>
      cases q with
      | parent => cases h
      | sleep i =>
          obtain ⟨c, hc, h⟩ := Option.bind_eq_some_iff.mp h
          exact .sleep i c hc (sleepClock_move h)
      | load j =>
          obtain ⟨l, hl, h⟩ := Option.bind_eq_some_iff.mp h
          exact .load j l hl (loadClock_move h)
  | reap q =>
      simp only [tick, Option.ite_none_right_eq_some] at h
      obtain ⟨-, h⟩ := h
      cases q with
      | parent => cases h
      | sleep i =>
          obtain ⟨c, hc, h⟩ := Option.bind_eq_some_iff.mp h
          split at h
          case h_1 e he => exact .reapSleep i c e hc he (Option.some.inj h).symm
          case h_2 => cases h
      | load j =>
          obtain ⟨l, hl, h⟩ := Option.bind_eq_some_iff.mp h
          split at h
          case h_1 e => exact .reapLoad j e hl (Option.some.inj h).symm
          case h_2 => cases h

end Inversion
end Moves

end MicrokernelBenchmark.SleepWakeProcess
