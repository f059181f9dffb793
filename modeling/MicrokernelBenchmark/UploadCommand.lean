import MicrokernelBenchmark.ShellWords

/-!
# The upload command

`test_https_upload_throughput` prints the full path of its file into a shell
command. The buffer is large enough for every path, so nothing is cut off, but
the path is not quoted. The shell reads the intended words exactly when no byte
of the path is special to it.
-/
namespace MicrokernelBenchmark.UploadCommand
open CString (bytes snprintf)
open ShellWords

/-- What `realpath` returns: an absolute path with its terminator in `PATH_MAX` bytes. -/
structure FullPath (pathMax : ℕ) where
  text : List UInt8
  absolute : text.head? = some 47
  noNul : 0 ∉ text
  short : text.length < pathMax

def beforePath : List UInt8 := bytes "curl -s -F file=@"

def afterPath : List UInt8 :=
  bytes " https://0x0.st -w \"%\x7btime_total\x7d\\n\" -o /dev/null"

def formatted (path : List UInt8) : List UInt8 := beforePath ++ path ++ afterPath

/-- The text in `cmd`, which has `PATH_MAX + 200` bytes. -/
def cmd (pathMax : ℕ) (path : List UInt8) : List UInt8 := snprintf (pathMax + 200) (formatted path)

/-- The format of `curl` with the quotes of the shell removed. -/
def timeFormat : List UInt8 := bytes "%\x7btime_total\x7d\\n"

def arguments (path : List UInt8) : List (List UInt8) :=
  [bytes "curl", bytes "-s", bytes "-F", bytes "file=@" ++ path, bytes "https://0x0.st",
    bytes "-w", timeFormat, bytes "-o", bytes "/dev/null"]

/-- Nothing is cut off, and the shell reads the arguments as they are meant. -/
def Faithful {pathMax : ℕ} (path : FullPath pathMax) : Prop :=
  cmd pathMax path.text = formatted path.text ∧
    simpleCommand (cmd pathMax path.text) = some (arguments path.text)

theorem cmd_eq {pathMax : ℕ} (path : FullPath pathMax) :
    cmd pathMax path.text = formatted path.text := by
  have hshort := path.short
  have hbefore : beforePath.length = 17 := rfl
  have hafter : afterPath.length = 49 := rfl
  apply List.take_of_length_le
  simp only [formatted, List.length_append, hbefore, hafter]
  omega

/-- The state in which the shell comes to the path. -/
def atPath : State where
  tokens := [.word (bytes "curl"), .word (bytes "-s"), .word (bytes "-F")]
  current := some (bytes "file=@")

theorem read_beforePath : read {} beforePath = some atPath := rfl

/-- The words after the path. -/
def laterWords : List Token :=
  [.word (bytes "https://0x0.st"), .word (bytes "-w"), .word timeFormat,
    .word (bytes "-o"), .word (bytes "/dev/null")]

def quotedFormat : List UInt8 := bytes "\"%\x7btime_total\x7d\\n\""

def options : List UInt8 :=
  32 :: (bytes "-w" ++ 32 :: (quotedFormat ++ 32 :: (bytes "-o" ++ 32 :: bytes "/dev/null")))

theorem afterPath_eq : afterPath = 32 :: (bytes "https://0x0.st" ++ options) := by
  decide +kernel

theorem finish_word (ts : List Token) (w : List UInt8) :
    finish ⟨ts, some w, .plain⟩ = some (ts ++ [.word w]) := rfl

section Tail
variable (ts : List Token) (w : Option (List UInt8))

theorem read_quotedFormat : read ⟨ts, none, .plain⟩ quotedFormat =
    some ⟨ts, some timeFormat, .plain⟩ := by rfl

/-- What follows the address is read in the same way after every word. -/
theorem tail_options : (read ⟨ts, w, .plain⟩ options).bind finish =
    some (ts ++ (w.map Token.word).toList ++ laterWords.tail) := by
  have hw : ∀ us, read ⟨us, none, .plain⟩ (bytes "-w") = some ⟨us, some (bytes "-w"), .plain⟩ :=
    fun us => read_word us (by decide) (by decide +kernel)
  have ho : ∀ us, read ⟨us, none, .plain⟩ (bytes "-o") = some ⟨us, some (bytes "-o"), .plain⟩ :=
    fun us => read_word us (by decide) (by decide +kernel)
  have hnull : ∀ us, read ⟨us, none, .plain⟩ (bytes "/dev/null") =
      some ⟨us, some (bytes "/dev/null"), .plain⟩ :=
    fun us => read_word us (by decide) (by decide +kernel)
  rw [options, read_space, read_append, hw, Option.bind_some]
  rw [read_space, read_append, read_quotedFormat, Option.bind_some]
  rw [read_space, read_append, ho, Option.bind_some]
  rw [read_space, hnull, Option.bind_some, finish_word]
  simp only [Option.map_some, Option.toList_some, List.append_assoc, List.cons_append,
    List.nil_append]
  rfl

theorem tail_plain : (read ⟨ts, w, .plain⟩ afterPath).bind finish =
    some (ts ++ (w.map Token.word).toList ++ laterWords) := by
  have hurl : ∀ us, read ⟨us, none, .plain⟩ (bytes "https://0x0.st") =
      some ⟨us, some (bytes "https://0x0.st"), .plain⟩ :=
    fun us => read_word us (by decide) (by decide +kernel)
  rw [afterPath_eq, read_space, read_append, hurl, Option.bind_some, tail_options,
    Option.map_some, Option.toList_some, List.append_assoc]
  rfl

/-- The blank before the address is escaped, so the address belongs to the word. -/
theorem tail_escape : (read ⟨ts, w, .escape⟩ afterPath).bind finish =
    some (ts ++ [.word (w.getD [] ++ bytes " https://0x0.st")] ++ laterWords.tail) := by
  have hblank : step ⟨ts, w, .escape⟩ 32 = some ⟨ts, some (w.getD [] ++ [32]), .plain⟩ := rfl
  have hurl : ∀ b ∈ bytes "https://0x0.st", ¬ Special b := by decide +kernel
  have hword : [32] ++ bytes "https://0x0.st" = bytes " https://0x0.st" := by decide
  rw [afterPath_eq, read_cons, hblank, Option.bind_some, read_append,
    read_literal rfl rfl _ hurl, Option.bind_some, tail_options, Option.map_some,
    Option.toList_some, List.append_assoc (w.getD []), hword]

theorem tail_single : (read ⟨ts, w, .single⟩ afterPath).bind finish = none := by rfl

theorem tail_double : (read ⟨ts, w, .double⟩ afterPath).bind finish = none := by rfl

theorem tail_doubleEscape : (read ⟨ts, w, .doubleEscape⟩ afterPath).bind finish = none := by rfl

theorem tail_comment : (read ⟨ts, w, .comment⟩ afterPath).bind finish =
    some (ts ++ (w.map Token.word).toList) := by rfl

end Tail

/-- However the path has been read, the rest of the command adds no more bytes
to words than its own. -/
theorem size_tail {s : State} {ts : List Token} (h : (read s afterPath).bind finish = some ts) :
    size ts ≤ s.weight + size laterWords := by
  obtain ⟨us, w, mode⟩ := s
  have hdelivered : size (us ++ (w.map Token.word).toList) = State.delivered ⟨us, w, mode⟩ := by
    exact size_delimit ⟨us, w, mode⟩
  cases mode with
  | plain =>
      rw [tail_plain, Option.some.injEq] at h
      rw [← h, size_append, hdelivered]
      exact Nat.le_refl _
  | escape =>
      rw [tail_escape, Option.some.injEq] at h
      have hlater : size laterWords = 14 + size laterWords.tail := by decide
      have hword :
          size [.word (w.getD [] ++ bytes " https://0x0.st")] = (w.getD []).length + 15 := by
        have hlength : (bytes " https://0x0.st").length = 15 := by decide
        simp [size, Token.size, hlength]
      rw [← h, size_append, size_append, hword, hlater]
      simp only [State.weight, State.delivered, Mode.pending]
      omega
  | single => simp [tail_single] at h
  | double => simp [tail_double] at h
  | doubleEscape => simp [tail_doubleEscape] at h
  | comment =>
      rw [tail_comment, Option.some.injEq] at h
      rw [← h, hdelivered]
      exact Nat.le_add_right_of_le (Nat.le_add_right _ _)

/-- The state after a part of the path without special bytes. -/
def insidePath (pre : List UInt8) : State :=
  { atPath with current := some (bytes "file=@" ++ pre) }

theorem read_pre {pre : List UInt8} (h : ∀ b ∈ pre, ¬ Special b) :
    read {} (beforePath ++ pre) = some (insidePath pre) := by
  rw [read_append, read_beforePath, Option.bind_some]
  exact read_literal rfl rfl pre h

theorem delivered_insidePath (pre : List UInt8) :
    (insidePath pre).delivered = 14 + pre.length := by
  have hwords : size atPath.tokens = 8 := by decide
  have hfile : (bytes "file=@").length = 6 := by decide
  simp only [State.delivered, insidePath, hwords, Option.getD_some, List.length_append, hfile]
  omega

theorem size_arguments (path : List UInt8) :
    size ((arguments path).map Token.word) = 14 + path.length + size laterWords := by
  have hsplit : (arguments path).map Token.word =
      atPath.tokens ++ [.word (bytes "file=@" ++ path)] ++ laterWords := rfl
  have hwords : size atPath.tokens = 8 := by decide
  have hfile : (bytes "file=@").length = 6 := by decide
  have hword : size [.word (bytes "file=@" ++ path)] = 6 + path.length := by
    simp [size, Token.size, hfile]
  rw [hsplit, size_append, size_append, hwords, hword]
  omega

/-- After the first special byte the rest of the path and of the command cannot
bring as many bytes to words as the intended arguments have. Only a backslash at
the very end of the path is made up for, by the blank it escapes, and then there
is one word less. -/
theorem simpleCommand_ne {pre suf : List UInt8} {b : UInt8} (hpre : ∀ c ∈ pre, ¬ Special c)
    (hb : Special b) :
    simpleCommand (formatted (pre ++ b :: suf)) ≠ some (arguments (pre ++ b :: suf)) := by
  intro h
  have htext : formatted (pre ++ b :: suf) = beforePath ++ pre ++ b :: (suf ++ afterPath) := by
    simp [formatted]
  rw [simpleCommand_eq_some, tokenize, htext, read_append, read_pre hpre, Option.bind_some,
    read_cons, Option.bind_assoc] at h
  obtain ⟨t, ht, h⟩ := Option.bind_eq_some_iff.mp h
  rw [read_append, Option.bind_assoc] at h
  obtain ⟨u, hu, h⟩ := Option.bind_eq_some_iff.mp h
  obtain ⟨hdelivered, hpending⟩ := weight_step_special rfl hb ht
  rw [delivered_insidePath] at hdelivered
  have hsize := size_tail h
  rw [size_arguments, List.length_append, List.length_cons] at hsize
  rcases hpending with hpending | hescape
  · have hweight : t.weight = 14 + pre.length := by
      rw [State.weight, hdelivered, hpending, Nat.add_zero]
    have hread := weight_read hu
    omega
  · have hmode : t.mode = .escape := by rw [hescape]
    have hweight : t.weight = 14 + pre.length + 1 := by
      rw [State.weight, hdelivered, hmode, Mode.pending]
    cases suf with
    | nil =>
        rw [read_nil, Option.some.injEq] at hu
        rw [← hu, hescape, insidePath, tail_escape, Option.some.injEq] at h
        have hlength := congrArg List.length h
        simp [atPath, laterWords, arguments] at hlength
    | cons x suf =>
        rw [read_cons] at hu
        obtain ⟨v, hv, hu⟩ := Option.bind_eq_some_iff.mp hu
        have hescaped := weight_step_escape hmode hv
        have hread := weight_read hu
        simp only [List.length_cons] at hsize
        omega

theorem simpleCommand_formatted {path : List UInt8} (h : ∀ b ∈ path, ¬ Special b) :
    simpleCommand (formatted path) = some (arguments path) := by
  rw [simpleCommand_eq_some, tokenize, formatted, read_append, read_pre h, Option.bind_some]
  exact tail_plain atPath.tokens (some (bytes "file=@" ++ path))

/-- No command is cut off, and the shell reads the arguments exactly when the
path has no special byte. -/
theorem faithful_iff {pathMax : ℕ} (path : FullPath pathMax) :
    Faithful path ↔ ∀ b ∈ path.text, ¬ Special b := by
  rw [Faithful, cmd_eq]
  constructor
  · rintro ⟨-, hcommand⟩ b hb hspecial
    have hfirst : (path.text.find? fun c => decide (Special c)).isSome := by
      rw [List.find?_isSome]
      exact ⟨b, hb, by simpa using hspecial⟩
    obtain ⟨c, hc⟩ := Option.isSome_iff_exists.mp hfirst
    obtain ⟨hcspecial, pre, suf, htext, hpre⟩ := List.find?_eq_some_iff_append.mp hc
    rw [htext] at hcommand
    exact simpleCommand_ne (fun x hx => by simpa using hpre x hx) (by simpa using hcspecial)
      hcommand
  · exact fun h => ⟨rfl, simpleCommand_formatted h⟩

/-- A directory with a blank in its name. -/
def spacedPath : FullPath 4096 where
  text := bytes "/home/my files/testfile.dat"
  absolute := by decide
  noNul := by decide
  short := by decide

theorem not_faithful_spacedPath : ¬ (∀ path : FullPath 4096, Faithful path) ∧
    simpleCommand (cmd 4096 spacedPath.text) = some
      [bytes "curl", bytes "-s", bytes "-F", bytes "file=@/home/my", bytes "files/testfile.dat",
        bytes "https://0x0.st", bytes "-w", timeFormat, bytes "-o", bytes "/dev/null"] := by
  have hwords : simpleCommand (cmd 4096 spacedPath.text) = some
      [bytes "curl", bytes "-s", bytes "-F", bytes "file=@/home/my", bytes "files/testfile.dat",
        bytes "https://0x0.st", bytes "-w", timeFormat, bytes "-o", bytes "/dev/null"] := by
    decide +kernel
  refine ⟨fun h => ?_, hwords⟩
  have hlength := congrArg (Option.map List.length) (hwords.symm.trans (h spacedPath).2)
  simp [arguments] at hlength

end MicrokernelBenchmark.UploadCommand
