import MicrokernelBenchmark.CString

/-!
# Looking up a virtual machine by its name

`get_uuid` of the launch script: the listing of `VBoxManage` with a line for each
machine, and the `awk` program which prints the second field of every line that
the name matches as a regular expression. What an expression matches is a
parameter; no expression is compiled from some names, and then nothing is printed.
-/
namespace MicrokernelBenchmark.GetUuid
open CString

/-- A name is on one line, and a UUID is without blanks and quotes. -/
structure Machine where
  name : List UInt8
  uuid : List UInt8
  name_line : 10 ∉ name
  uuid_plain : ∀ b ∈ uuid, b ≠ 9 ∧ b ≠ 10 ∧ b ≠ 32 ∧ b ≠ 34

namespace Machine
variable (m : Machine)

/-- The UUID in its braces. -/
def braced : List UInt8 := 123 :: (m.uuid ++ [125])

def line : List UInt8 := 34 :: (m.name ++ 34 :: 32 :: m.braced)

end Machine

def listing (machines : List Machine) : List UInt8 := machines.flatMap fun m => m.line ++ [10]

section Awk

/-- The records are the lines without their newlines. -/
def records (text : List UInt8) : List (List UInt8) :=
  (lines text).map fun l => l.takeWhile (· ≠ 10)

def isBlank (b : UInt8) : Bool := b = 32 || b = 9 || b = 10

def fields (record : List UInt8) : List (List UInt8) :=
  (record.splitOnP isBlank).filter (· ≠ [])

/-- `gsub(/"/,"")` on a record. -/
def unquote (record : List UInt8) : List UInt8 := record.filter (· ≠ 34)

/-- The second field, which is empty in a record with less than two. -/
def second (record : List UInt8) : List UInt8 := (fields record)[1]?.getD []

def print (text : List UInt8) : List UInt8 := text ++ [10]

end Awk

abbrev Regexp := List UInt8 → Option (List UInt8 → Bool)

def getUuid (regexp : Regexp) (list : List UInt8) (name : List UInt8) : List UInt8 :=
  match regexp name with
  | none => []
  | some accepts =>
      ((records list).filter accepts).flatMap fun record => print (second (unquote record))

inductive Launch where
  | aborted
  | notFound (vm : List UInt8)
  | started (vm uuid : List UInt8) (cpu : ℕ)
deriving DecidableEq, Repr

/-- A command substitution is without the newlines at its end. -/
def substitution (output : List UInt8) : List UInt8 :=
  (output.reverse.dropWhile (· = 10)).reverse

/-- An expression that is not compiled makes `awk` fail at the first record, which ends the
script; without any record it is not even tried. -/
def launchDirect (regexp : Regexp) (list : List UInt8) (vm : List UInt8) (cpu : ℕ) : Launch :=
  if records list ≠ [] ∧ (regexp vm).isNone then .aborted
  else
    let uuid := substitution (getUuid regexp list vm)
    if uuid = [] then .notFound vm else .started vm uuid cpu

/-- The machines on whose lines the name matches. -/
def matching (regexp : Regexp) (machines : List Machine) (name : List UInt8) : List Machine :=
  match regexp name with
  | none => []
  | some accepts => machines.filter fun m => accepts m.line

/-- The words of a name without its quotes. -/
def nameWords (m : Machine) : List (List UInt8) := fields (unquote m.name)

section Fields
variable {text : List UInt8}

theorem not_isBlank_of_mem_splitOnP {word : List UInt8} (h : word ∈ text.splitOnP isBlank) :
    ∀ b ∈ word, isBlank b = false := by
  induction text generalizing word with
  | nil =>
      rw [List.splitOnP_nil, List.mem_singleton] at h
      rw [h]
      simp
  | cons c text ih =>
      rw [List.splitOnP_cons_eq_if_modifyHead] at h
      split at h
      case isTrue =>
        rcases List.mem_cons.mp h with rfl | h
        · simp
        · exact ih h
      case isFalse hc =>
        have hne : text.splitOnP isBlank ≠ [] := List.splitOnP_ne_nil _ _
        obtain ⟨first, rest, hsplit⟩ := List.exists_cons_of_ne_nil hne
        rw [hsplit, List.modifyHead_cons] at h
        rcases List.mem_cons.mp h with rfl | h
        · have hfirst := ih (hsplit ▸ List.mem_cons_self)
          simpa [hc] using hfirst
        · exact ih (hsplit ▸ List.mem_cons_of_mem first h)

theorem fields_append (front rear : List UInt8) :
    fields (front ++ 32 :: rear) = fields front ++ fields rear := by
  rw [fields, List.splitOnP_append_cons front rear rfl, List.filter_append]
  rfl

theorem fields_word {word : List UInt8} (hne : word ≠ []) (h : ∀ b ∈ word, isBlank b = false) :
    fields word = [word] := by
  rw [fields, List.splitOnP_eq_singleton h, List.filter_singleton]
  simp [hne]

theorem newline_not_mem_second (record : List UInt8) : 10 ∉ second record := by
  intro h
  rw [second] at h
  cases hfield : (fields record)[1]? with
  | none =>
      rw [hfield] at h
      cases h
  | some word =>
      rw [hfield] at h
      have hmem := List.mem_of_mem_filter (List.mem_of_getElem? hfield)
      cases not_isBlank_of_mem_splitOnP hmem 10 h

end Fields

section Lines
variable (m : Machine)

theorem newline_not_mem_braced : 10 ∉ m.braced := by
  intro h
  rw [Machine.braced, List.mem_cons, List.mem_append, List.mem_singleton] at h
  rcases h with h | h | h
  · cases h
  · exact (m.uuid_plain 10 h).2.1 rfl
  · cases h

theorem newline_not_mem_line : 10 ∉ m.line := by
  intro h
  rw [Machine.line, List.mem_cons, List.mem_append, List.mem_cons, List.mem_cons] at h
  rcases h with h | h | h | h | h
  · cases h
  · exact m.name_line h
  · cases h
  · cases h
  · exact newline_not_mem_braced m h

theorem records_listing (machines : List Machine) :
    records (listing machines) = machines.map Machine.line := by
  induction machines with
  | nil => rfl
  | cons m machines ih =>
      have hline := newline_not_mem_line m
      have hcons : listing (m :: machines) = m.line ++ 10 :: listing machines := by
        rw [listing, List.flatMap_cons, List.append_assoc]
        rfl
      have hrecord : (m.line ++ [10]).takeWhile (· ≠ 10) = m.line := by
        rw [List.takeWhile_append_of_pos (by
          intro b hb
          simpa using fun h : b = 10 => hline (h ▸ hb))]
        simp
      rw [hcons, records, lines_newline _ hline, List.map_cons, hrecord, List.map_cons]
      exact congrArg _ ih

theorem unquote_line : unquote m.line = unquote m.name ++ 32 :: m.braced := by
  have hbraced : m.braced.filter (· ≠ 34) = m.braced := by
    rw [List.filter_eq_self]
    intro b hb
    rw [Machine.braced, List.mem_cons, List.mem_append, List.mem_singleton] at hb
    rw [decide_eq_true_eq]
    rcases hb with rfl | hb | rfl
    · decide
    · exact (m.uuid_plain b hb).2.2.2
    · decide
  rw [unquote, Machine.line, List.filter_cons_of_neg (by decide), List.filter_append,
    List.filter_cons_of_neg (by decide), List.filter_cons_of_pos (by decide), hbraced]
  rfl

theorem braced_ne_nil : m.braced ≠ [] := List.cons_ne_nil _ _

theorem fields_braced : fields m.braced = [m.braced] := by
  apply fields_word (braced_ne_nil m)
  intro b hb
  rw [Machine.braced, List.mem_cons, List.mem_append, List.mem_singleton] at hb
  rcases hb with rfl | hb | rfl
  · rfl
  · obtain ⟨htab, hnewline, hspace, -⟩ := m.uuid_plain b hb
    simp [isBlank, htab, hnewline, hspace]
  · rfl

/-- The braced UUID follows the words of the name. -/
theorem fields_line : fields (unquote m.line) = nameWords m ++ [m.braced] := by
  rw [unquote_line, fields_append, fields_braced]
  rfl

/-- The second field is a certain text other than none either as the UUID behind a name of
one word or as the second word of a longer name. -/
theorem second_line {text : List UInt8} (hne : text ≠ []) : second (unquote m.line) = text ↔
    (nameWords m).length = 1 ∧ m.braced = text ∨ (nameWords m)[1]? = some text := by
  rw [second, fields_line]
  match hwords : nameWords m with
  | [] => simpa using hne.symm
  | [word] => simp
  | word :: word' :: words => simp

end Lines

section Output
variable {regexp : Regexp} {machines : List Machine} {name : List UInt8}

/-- One line is printed for every line that the name matches. -/
theorem getUuid_listing (regexp : Regexp) (machines : List Machine) (name : List UInt8) :
    getUuid regexp (listing machines) name =
      (matching regexp machines name).flatMap fun m => print (second (unquote m.line)) := by
  rw [getUuid, matching]
  cases regexp name with
  | none => rfl
  | some accepts =>
      dsimp only
      rw [records_listing, List.filter_map, List.flatMap_map]
      rfl

theorem count_newline (ms : List Machine) :
    (ms.flatMap fun m => print (second (unquote m.line))).count 10 = ms.length := by
  induction ms with
  | nil => rfl
  | cons m ms ih =>
      have hnone := List.count_eq_zero.mpr (newline_not_mem_second (unquote m.line))
      rw [List.flatMap_cons, List.count_append, ih, print, List.count_append, hnone,
        List.length_cons]
      simp [Nat.add_comm]

theorem output_eq_iff {ms : List Machine} {text : List UInt8} (htext : 10 ∉ text) :
    (ms.flatMap fun m => print (second (unquote m.line))) = print text ↔
      ∃ m, ms = [m] ∧ second (unquote m.line) = text := by
  constructor
  · intro h
    have hcount := count_newline ms
    rw [h, print, List.count_append, List.count_eq_zero.mpr htext] at hcount
    obtain ⟨m, rfl⟩ := List.length_eq_one_iff.mp hcount.symm
    rw [List.flatMap_singleton] at h
    exact ⟨m, rfl, List.append_cancel_right h⟩
  · rintro ⟨m, rfl, rfl⟩
    exact List.flatMap_singleton ..

theorem output_eq_nil_iff {ms : List Machine} :
    (ms.flatMap fun m => print (second (unquote m.line))) = [] ↔ ms = [] := by
  constructor
  · intro h
    have hcount := count_newline ms
    rw [h] at hcount
    exact List.length_eq_zero_iff.mp hcount.symm
  · rintro rfl
    rfl

/-- The line with the UUID of the machine of that name, or nothing without one. -/
def RightOutput (machines : List Machine) (name output : List UInt8) : Prop :=
  (∀ m ∈ machines, m.name = name → output = print m.braced) ∧
    ((∀ m ∈ machines, m.name ≠ name) → output = [])

/-- The name of this machine matches one line alone, and there the second field is the
machine's UUID. -/
def Selects (regexp : Regexp) (machines : List Machine) (m : Machine) : Prop :=
  ∃ m', matching regexp machines m.name = [m'] ∧
    ((nameWords m').length = 1 ∧ m'.braced = m.braced ∨ (nameWords m')[1]? = some m.braced)

/-- When the right line is printed. -/
theorem getUuid_iff (regexp : Regexp) (machines : List Machine) (name : List UInt8) :
    RightOutput machines name (getUuid regexp (listing machines) name) ↔
      (∀ m ∈ machines, m.name = name → Selects regexp machines m) ∧
        ((∀ m ∈ machines, m.name ≠ name) → matching regexp machines name = []) := by
  rw [RightOutput, getUuid_listing, output_eq_nil_iff]
  apply and_congr_left'
  apply forall₂_congr
  intro m _
  apply forall_congr'
  rintro rfl
  rw [output_eq_iff (newline_not_mem_braced m), Selects]
  simp only [second_line _ (braced_ne_nil m)]

theorem substitution_print {text : List UInt8} (h : 10 ∉ text) :
    substitution (print text) = text := by
  have hlast : ∀ b ∈ text.reverse.head?, ¬ (b = 10) := by
    rintro b hb rfl
    exact h (List.mem_reverse.mp (List.mem_of_mem_head? hb))
  rw [substitution, print, List.reverse_append, List.reverse_singleton, List.singleton_append,
    List.dropWhile_cons_of_pos (by rfl)]
  have hdrop : text.reverse.dropWhile (· = 10) = text.reverse := by
    cases hrev : text.reverse with
    | nil => rfl
    | cons b rest =>
        rw [hrev] at hlast
        exact List.dropWhile_cons_of_neg (by simpa using hlast b rfl)
  rw [hdrop, List.reverse_reverse]

/-- The machine that is asked for is the one that is started. -/
theorem launchDirect_of_right {accepts : List UInt8 → Bool} (hname : regexp name = some accepts)
    (h : RightOutput machines name (getUuid regexp (listing machines) name)) {m : Machine}
    (hm : m ∈ machines) (hmname : m.name = name) (cpu : ℕ) :
    launchDirect regexp (listing machines) name cpu = .started name m.braced cpu := by
  rw [launchDirect, h.1 m hm hmname, substitution_print (newline_not_mem_braced m), hname]
  rw [if_neg (by simp)]
  exact if_neg (braced_ne_nil m)

/-- Without a machine nothing is launched, whether or not the name is an expression. -/
theorem launchDirect_nil (regexp : Regexp) (vm : List UInt8) (cpu : ℕ) :
    launchDirect regexp (listing []) vm cpu = .notFound vm := by
  have hnone : getUuid regexp (listing []) vm = [] := by
    rw [getUuid]
    cases regexp vm <;> rfl
  have hempty : records (listing []) = [] := rfl
  rw [launchDirect, hnone, hempty, if_neg (by simp)]
  exact if_pos rfl

/-- What a name without metacharacters matches. -/
def literal : Regexp := fun name => some fun line => strstr line name

def qnx : Machine := ⟨bytes "qnx", bytes "0a", by decide, by decide +kernel⟩

def qnxBenchmark : Machine := ⟨bytes "qnx_benchmark", bytes "0b", by decide, by decide +kernel⟩

def spaced : Machine := ⟨bytes "my vm", bytes "0c", by decide, by decide +kernel⟩

/-- A name inside another one brings two lines, and a name with a space its second word. -/
theorem getUuid_wrong :
    ¬ RightOutput [qnx, qnxBenchmark] (bytes "qnx")
      (getUuid literal (listing [qnx, qnxBenchmark]) (bytes "qnx")) ∧
    ¬ RightOutput [spaced] (bytes "my vm")
      (getUuid literal (listing [spaced]) (bytes "my vm")) := by
  constructor
  · intro h
    have hright := h.1 qnx List.mem_cons_self rfl
    exact absurd hright (by decide +kernel)
  · intro h
    have hright := h.1 spaced List.mem_cons_self rfl
    exact absurd hright (by decide +kernel)

end Output

end MicrokernelBenchmark.GetUuid
