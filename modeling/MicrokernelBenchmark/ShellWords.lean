import MicrokernelBenchmark.CString
import Mathlib.Algebra.GroupWithZero.Nat

/-!
# Words of a POSIX shell command

The tokenizer of the shell as a machine that reads one byte at a time: blanks
and operators end words, quotes and backslashes are removed, a comment runs to
the end of its line. A dollar sign or a backquote begins an expansion, whose
value the text does not determine; there and on a quotation left open the
machine has no result. Pathname expansion, which comes after parsing and looks
at files, is not part of it.

The weight of a state counts the bytes that have reached words. A byte adds at
most one to it, so a command which loses a byte of a text to quoting or
separation cannot have the text as a word.
-/
namespace MicrokernelBenchmark.ShellWords
open CString (bytes)

inductive Token where
  | word (text : List UInt8)
  | operator (byte : UInt8)
deriving DecidableEq, Repr

inductive Class where
  | blank
  | newline
  | operator
  | hash
  | backslash
  | singleQuote
  | doubleQuote
  | expansion
  | ordinary
deriving DecidableEq, Repr

def classify (b : UInt8) : Class :=
  if b ∈ bytes " \t" then .blank
  else if b ∈ bytes "\n" then .newline
  else if b ∈ bytes "|&;<>()" then .operator
  else if b ∈ bytes "#" then .hash
  else if b ∈ bytes "\\" then .backslash
  else if b ∈ bytes "'" then .singleQuote
  else if b ∈ bytes "\"" then .doubleQuote
  else if b ∈ bytes "$`" then .expansion
  else .ordinary

inductive Mode where
  | plain
  | escape
  | single
  | double
  | doubleEscape
  | comment
deriving DecidableEq, Repr

/-- Outside of a word `current` is none. -/
structure State where
  tokens : List Token := []
  current : Option (List UInt8) := none
  mode : Mode := .plain
deriving DecidableEq, Repr

namespace State

def push (s : State) (text : List UInt8) (mode : Mode) : State :=
  { s with current := some (s.current.getD [] ++ text), mode := mode }

/-- End the current word, if there is one. -/
def delimit (s : State) : State :=
  { s with tokens := s.tokens ++ (s.current.map Token.word).toList, current := none }

/-- Newlines are operators here, one token for each byte. -/
def operator (s : State) (b : UInt8) : State :=
  { s.delimit with tokens := s.delimit.tokens ++ [.operator b], mode := .plain }

end State

def step (s : State) (b : UInt8) : Option State :=
  match s.mode, classify b with
  | .plain, .blank => some s.delimit
  | .plain, .newline => some (s.operator b)
  | .plain, .operator => some (s.operator b)
  | .plain, .hash =>
      if s.current = none then some { s with mode := .comment } else some (s.push [b] .plain)
  | .plain, .backslash => some { s with mode := .escape }
  | .plain, .singleQuote => some (s.push [] .single)
  | .plain, .doubleQuote => some (s.push [] .double)
  | .plain, .expansion => none
  | .plain, .ordinary => some (s.push [b] .plain)
  -- an escaped newline joins two lines
  | .escape, .newline => some { s with mode := .plain }
  | .escape, _ => some (s.push [b] .plain)
  | .single, .singleQuote => some { s with mode := .plain }
  | .single, _ => some (s.push [b] .single)
  | .double, .doubleQuote => some { s with mode := .plain }
  | .double, .backslash => some { s with mode := .doubleEscape }
  | .double, .expansion => none
  | .double, _ => some (s.push [b] .double)
  | .doubleEscape, .newline => some { s with mode := .double }
  | .doubleEscape, .doubleQuote => some (s.push [b] .double)
  | .doubleEscape, .backslash => some (s.push [b] .double)
  | .doubleEscape, .expansion => some (s.push [b] .double)
  -- the backslash stays before any other byte
  | .doubleEscape, _ => some (s.push (bytes "\\" ++ [b]) .double)
  | .comment, .newline => some (s.operator b)
  | .comment, _ => some s

def finish (s : State) : Option (List Token) :=
  match s.mode with
  | .plain | .comment => some s.delimit.tokens
  | .escape | .single | .double | .doubleEscape => none

def read (s : State) (text : List UInt8) : Option State := text.foldlM step s

def tokenize (text : List UInt8) : Option (List Token) := (read {} text).bind finish

def Token.text? : Token → Option (List UInt8)
  | .word w => some w
  | .operator _ => none

/-- The words of a text that is one simple command without redirection. -/
def simpleCommand (text : List UInt8) : Option (List (List UInt8)) :=
  (tokenize text).bind fun tokens => tokens.mapM Token.text?

/-- The bytes which a shell does not take literally in the middle of a word. -/
def Special (b : UInt8) : Prop := classify b ≠ .ordinary ∧ classify b ≠ .hash

instance (b : UInt8) : Decidable (Special b) := inferInstanceAs (Decidable (_ ∧ _))

def Token.size : Token → ℕ
  | .word w => w.length
  | .operator _ => 0

def size (tokens : List Token) : ℕ := (tokens.map Token.size).sum

/-- The bytes which have reached a word. -/
def State.delivered (s : State) : ℕ := size s.tokens + (s.current.getD []).length

def Mode.pending : Mode → ℕ
  | .escape | .doubleEscape => 1
  | .plain | .single | .double | .comment => 0

/-- A pending backslash counts, as it or the byte after it still reaches a word. -/
def State.weight (s : State) : ℕ := s.delivered + s.mode.pending

@[simp] theorem size_append (ts us : List Token) : size (ts ++ us) = size ts + size us := by
  simp [size]

@[simp] theorem read_nil (s : State) : read s [] = some s := rfl

@[simp] theorem read_cons (s : State) (b : UInt8) (text : List UInt8) :
    read s (b :: text) = (step s b).bind fun t => read t text := rfl

theorem read_append (s : State) (text rest : List UInt8) :
    read s (text ++ rest) = (read s text).bind fun t => read t rest := by
  rw [read, List.foldlM_append]
  rfl

theorem mapM_text? {ts : List Token} {ws : List (List UInt8)} :
    ts.mapM Token.text? = some ws ↔ ts = ws.map Token.word := by
  induction ts generalizing ws with
  | nil => cases ws <;> simp
  | cons t ts ih =>
      rw [List.mapM_cons]
      cases t with
      | word w => cases ws <;> simp [Token.text?, Option.bind_eq_some_iff, ih, and_comm]
      | operator b => cases ws <;> simp [Token.text?]

theorem simpleCommand_eq_some {text : List UInt8} {ws : List (List UInt8)} :
    simpleCommand text = some ws ↔ tokenize text = some (ws.map Token.word) := by
  simp [simpleCommand, Option.bind_eq_some_iff, mapM_text?]

/-- In the middle of a word bytes that are not special are taken as they are. -/
theorem read_literal {s : State} {w : List UInt8} (hword : s.current = some w)
    (hmode : s.mode = .plain) (text : List UInt8) (h : ∀ b ∈ text, ¬ Special b) :
    read s text = some { s with current := some (w ++ text) } := by
  induction text generalizing s w with
  | nil => simp [← hword]
  | cons b text ih =>
      have hstep : step s b = some (s.push [b] .plain) := by
        have hb := h b List.mem_cons_self
        cases hclass : classify b <;> simp_all [step, Special]
      have hpush : (s.push [b] .plain).current = some (w ++ [b]) := by simp [State.push, hword]
      rw [read_cons, hstep, Option.bind_some,
        ih hpush rfl fun b' hb' => h b' (List.mem_cons_of_mem b hb')]
      simp [State.push, hmode]

/-- Between two words a text of ordinary bytes becomes the current word. -/
theorem read_word (ts : List Token) {w : List UInt8} (hne : w ≠ [])
    (h : ∀ b ∈ w, classify b = .ordinary) :
    read ⟨ts, none, .plain⟩ w = some ⟨ts, some w, .plain⟩ := by
  cases w with
  | nil => exact absurd rfl hne
  | cons b w =>
      have hstep : step ⟨ts, none, .plain⟩ b = some ⟨ts, some [b], .plain⟩ := by
        simp [step, h b List.mem_cons_self, State.push]
      have hrest : ∀ b ∈ w, ¬ Special b := by
        intro b' hb'
        simp [Special, h b' (List.mem_cons_of_mem b hb')]
      rw [read_cons, hstep, Option.bind_some, read_literal rfl rfl w hrest]
      rfl

theorem classify_ne_singleQuote {b : UInt8} (hb : b ∉ bytes "'") :
    classify b ≠ .singleQuote := by
  unfold classify
  split_ifs <;> exact nofun

/-- Between single quotes every byte but the quote is taken as it is. -/
theorem read_single (ts : List Token) (w text : List UInt8) (h : ∀ b ∈ text, b ∉ bytes "'") :
    read ⟨ts, some w, .single⟩ text = some ⟨ts, some (w ++ text), .single⟩ := by
  induction text generalizing w with
  | nil => simp
  | cons b text ih =>
      have hstep : step ⟨ts, some w, .single⟩ b = some ⟨ts, some (w ++ [b]), .single⟩ := by
        have hb := classify_ne_singleQuote (h b List.mem_cons_self)
        cases hclass : classify b <;> simp_all [step, State.push]
      rw [read_cons, hstep, Option.bind_some, ih _ fun b' hb' => h b' (List.mem_cons_of_mem b hb')]
      simp

/-- A blank ends the current word. -/
theorem read_space (ts : List Token) (w : Option (List UInt8)) (text : List UInt8) :
    read ⟨ts, w, .plain⟩ (32 :: text) =
      read ⟨ts ++ (w.map Token.word).toList, none, .plain⟩ text := rfl

section Weight
variable (s : State) (b : UInt8) (text : List UInt8) (mode : Mode)

@[simp] theorem push_mode : (s.push text mode).mode = mode := rfl
@[simp] theorem delimit_mode : s.delimit.mode = s.mode := rfl
@[simp] theorem operator_mode : (s.operator b).mode = .plain := rfl

@[simp] theorem delivered_mode : State.delivered { s with mode := mode } = s.delivered := rfl

@[simp] theorem delivered_push : (s.push text mode).delivered = s.delivered + text.length := by
  simp [State.delivered, State.push, Nat.add_assoc]

theorem size_delimit : size s.delimit.tokens = s.delivered := by
  cases hc : s.current <;> simp [State.delimit, State.delivered, hc, size, Token.size]

@[simp] theorem delivered_delimit : s.delimit.delivered = s.delivered := size_delimit s

@[simp] theorem delivered_operator : (s.operator b).delivered = s.delivered := by
  have htokens : (s.operator b).tokens = s.delimit.tokens ++ [.operator b] := rfl
  have hcurrent : (s.operator b).current = none := rfl
  rw [State.delivered, htokens, hcurrent, size_append, size_delimit]
  rfl

end Weight

theorem weight_step {s t : State} {b : UInt8} (h : step s b = some t) :
    t.weight ≤ s.weight + 1 := by
  cases hmode : s.mode <;> cases hclass : classify b <;>
    simp only [step, hmode, hclass, Option.some.injEq, reduceCtorEq] at h
  case plain.hash =>
    split at h
    all_goals
      rw [← Option.some.inj h]
      simp [State.weight, Mode.pending, hmode]
  case escape.newline | doubleEscape.newline =>
    subst h
    simp only [State.weight, delivered_mode, Mode.pending, hmode]
    omega
  all_goals
    subst h
    simp [State.weight, Mode.pending, hmode, bytes]

theorem weight_read {s t : State} {text : List UInt8} (h : read s text = some t) :
    t.weight ≤ s.weight + text.length := by
  induction text generalizing s with
  | nil => simp [Option.some.inj h]
  | cons b text ih =>
      obtain ⟨u, hu, h⟩ := Option.bind_eq_some_iff.mp h
      have hstep := weight_step hu
      have hrest := ih h
      simp only [List.length_cons]
      omega

/-- A special byte outside of quotes does not reach a word, and a backslash is
the only one which leaves something pending. -/
theorem weight_step_special {s t : State} {b : UInt8} (hmode : s.mode = .plain)
    (hb : Special b) (h : step s b = some t) :
    t.delivered = s.delivered ∧ (t.mode.pending = 0 ∨ t = { s with mode := .escape }) := by
  cases hclass : classify b <;>
    simp only [step, hmode, hclass, Option.some.injEq, reduceCtorEq] at h
  case hash | ordinary => simp [Special, hclass] at hb
  all_goals
    subst h
    simp [Mode.pending, hmode]

/-- The byte behind a backslash outside of quotes uses up what was pending. -/
theorem weight_step_escape {s t : State} {b : UInt8} (hmode : s.mode = .escape)
    (h : step s b = some t) : t.weight ≤ s.weight := by
  cases hclass : classify b <;>
    simp only [step, hmode, hclass, Option.some.injEq] at h
  all_goals
    subst h
    simp [State.weight, Mode.pending, hmode]

end MicrokernelBenchmark.ShellWords
