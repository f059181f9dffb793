import Mathlib.Data.List.Basic
import Mathlib.Data.List.Infix
import Mathlib.Data.Nat.Notation

/-!
# Lines and tokens of a C program

Texts without a terminator inside, as `fgets`, `strtok`, `strrchr` and `strstr`
see them. A line which fits into the buffer is read in one piece; the lemmas on
tokens take a line apart from its left end, whatever the padding.
-/
namespace MicrokernelBenchmark.CString

/-- The bytes of an ASCII text. -/
def bytes (s : String) : List UInt8 := s.toList.map fun c => UInt8.ofNat c.toNat

/-- What `snprintf` leaves in a buffer, one byte of which is kept for the terminator. -/
def snprintf (size : ℕ) (text : List UInt8) : List UInt8 := text.take (size - 1)

/-- The size of the buffers in which lines are read. -/
def lineSize : ℕ := 512

/-- The line at the start of a text, its newline included, in at most `n` bytes. -/
def firstLine : ℕ → List UInt8 → List UInt8 × List UInt8
  | 0, text => ([], text)
  | _, [] => ([], [])
  | n + 1, b :: text =>
      if b = 10 then ([b], text)
      else (b :: (firstLine n text).1, (firstLine n text).2)

/-- One byte of the buffer is kept for the terminator. -/
def fgets (size : ℕ) (text : List UInt8) : Option (List UInt8 × List UInt8) :=
  if text = [] then none else some (firstLine (size - 1) text)

/-- What a loop over `fgets` gets, with a bound on its passes. -/
def fgetsLoop (size : ℕ) : ℕ → List UInt8 → List (List UInt8)
  | 0, _ => []
  | fuel + 1, text =>
      match fgets size text with
      | none => []
      | some (line, rest) => line :: fgetsLoop size fuel rest

/-- Every pass takes a byte, so the length of the text bounds their number. -/
def pieces (size : ℕ) (text : List UInt8) : List (List UInt8) := fgetsLoop size text.length text

def tokensFrom (token : List UInt8) : List UInt8 → List (List UInt8)
  | [] => if token = [] then [] else [token]
  | b :: text =>
      if b = 32 then
        if token = [] then tokensFrom [] text else token :: tokensFrom [] text
      else tokensFrom (token ++ [b]) text

/-- What `strtok` with a blank as the only delimiter returns, call after call. -/
def tokens (text : List UInt8) : List (List UInt8) := tokensFrom [] text

/-- The text behind the last occurrence of a byte, as found by `strrchr`. -/
def afterLast (b : UInt8) (text : List UInt8) : Option (List UInt8) :=
  if b ∈ text then some (text.reverse.takeWhile (· ≠ b)).reverse else none

def strstr (text part : List UInt8) : Bool := part <:+: text

/-- The lines of a text, each with its newline if it has one. -/
def lines : List UInt8 → List (List UInt8)
  | [] => []
  | b :: text =>
      if b = 10 then [b] :: lines text
      else
        match lines text with
        | [] => [[b]]
        | line :: rest => (b :: line) :: rest

/-- What is left of a line behind each cut, where every `n` bytes it is cut. -/
def rests (n : ℕ) (line : List UInt8) : List (List UInt8) :=
  (List.range ((line.length - 1) / n)).map fun k => line.drop (n * (k + 1))

def cut (n : ℕ) (line : List UInt8) : List (List UInt8) :=
  line.take n :: (rests n line).map (List.take n)

theorem firstLine_append {line rest : List UInt8} {n : ℕ} (hline : 10 ∉ line)
    (hlength : line.length < n) : firstLine n (line ++ 10 :: rest) = (line ++ [10], rest) := by
  induction line generalizing n with
  | nil =>
      cases n with
      | zero => simp at hlength
      | succ n => simp [firstLine]
  | cons b line ih =>
      cases n with
      | zero => simp at hlength
      | succ n =>
          have hb : b ≠ 10 := fun h => hline (h ▸ List.mem_cons_self)
          have hrest := ih (n := n) (fun h => hline (List.mem_cons_of_mem b h))
            (by simpa using hlength)
          simp [firstLine, hb, hrest]

/-- A line as long as the buffer allows is read without its newline. -/
theorem firstLine_full {line : List UInt8} (rest : List UInt8) (hline : 10 ∉ line) :
    firstLine line.length (line ++ rest) = (line, rest) := by
  induction line with
  | nil => cases rest <;> simp [firstLine]
  | cons b line ih =>
      have hb : b ≠ 10 := fun h => hline (h ▸ List.mem_cons_self)
      have hrest := ih fun h => hline (List.mem_cons_of_mem b h)
      simp [firstLine, hb, hrest]

theorem length_firstLine_le (n : ℕ) (text : List UInt8) :
    (firstLine n text).2.length ≤ text.length := by
  induction text generalizing n with
  | nil => cases n <;> simp [firstLine]
  | cons b text ih =>
      cases n with
      | zero => simp [firstLine]
      | succ n =>
          have hrest := ih n
          rw [firstLine]
          split <;> simp only [List.length_cons] <;> omega

/-- A buffer of two bytes makes every `fgets` take a byte. -/
theorem length_fgets_lt {size : ℕ} {text line rest : List UInt8} (hsize : 2 ≤ size)
    (h : fgets size text = some (line, rest)) : rest.length < text.length := by
  rw [fgets, Option.ite_none_left_eq_some] at h
  obtain ⟨hne, h⟩ := h
  obtain ⟨n, rfl⟩ := Nat.exists_eq_add_of_le hsize
  cases text with
  | nil => exact absurd rfl hne
  | cons b text =>
      have hrest : (firstLine (n + 1) (b :: text)).2 = rest := by
        have heq := congrArg Prod.snd (Option.some.inj h)
        rwa [show 2 + n - 1 = n + 1 by omega] at heq
      have hle := length_firstLine_le n text
      rw [← hrest, firstLine]
      split <;> simp only [List.length_cons] <;> omega

/-- More passes than bytes change nothing. -/
theorem fgetsLoop_eq {size fuel fuel' : ℕ} {text : List UInt8} (hsize : 2 ≤ size)
    (hfuel : text.length ≤ fuel) (hfuel' : text.length ≤ fuel') :
    fgetsLoop size fuel text = fgetsLoop size fuel' text := by
  induction fuel generalizing fuel' text with
  | zero =>
      have hnil : text = [] := List.length_eq_zero_iff.mp (Nat.le_zero.mp hfuel)
      subst hnil
      cases fuel' <;> rfl
  | succ fuel ih =>
      cases hline : fgets size text with
      | none =>
          have hnil : text = [] := by simpa [fgets] using hline
          subst hnil
          cases fuel' <;> rfl
      | some r =>
          have hlt := length_fgets_lt hsize hline
          cases fuel' with
          | zero => omega
          | succ fuel' =>
              have hrest : fgetsLoop size fuel r.2 = fgetsLoop size fuel' r.2 :=
                ih (by omega) (by omega)
              simp only [fgetsLoop, hline, hrest]

theorem pieces_of_fgets {size : ℕ} {text line rest : List UInt8} (hsize : 2 ≤ size)
    (h : fgets size text = some (line, rest)) : pieces size text = line :: pieces size rest := by
  have hlt := length_fgets_lt hsize h
  have hloop : pieces size text = fgetsLoop size (text.length - 1 + 1) text := by
    rw [Nat.sub_add_cancel (by omega)]
    rfl
  rw [hloop, fgetsLoop, h]
  simp only [pieces]
  rw [fgetsLoop_eq hsize (by omega) (Nat.le_refl _)]

theorem firstLine_fst_append_snd (n : ℕ) (text : List UInt8) :
    (firstLine n text).1 ++ (firstLine n text).2 = text := by
  induction text generalizing n with
  | nil => cases n <;> rfl
  | cons b text ih =>
      cases n with
      | zero => rfl
      | succ n =>
          rw [firstLine]
          split
          · rfl
          · exact congrArg (b :: ·) (ih n)

/-- Nothing of the text is lost between the pieces. -/
theorem flatten_pieces {size : ℕ} (hsize : 2 ≤ size) (text : List UInt8) :
    (pieces size text).flatten = text := by
  suffices h : ∀ fuel text, text.length ≤ fuel → (fgetsLoop size fuel text).flatten = text from
    h _ text (Nat.le_refl _)
  intro fuel
  induction fuel with
  | zero =>
      intro text htext
      exact (List.length_eq_zero_iff.mp (Nat.le_zero.mp htext)).symm
  | succ fuel ih =>
      intro text htext
      rw [fgetsLoop]
      cases hline : fgets size text with
      | none =>
          have hnil : text = [] := by simpa [fgets] using hline
          exact hnil.symm
      | some x =>
          have hlt := length_fgets_lt hsize hline
          rw [fgets, Option.ite_none_left_eq_some] at hline
          dsimp only
          rw [List.flatten_cons, ih x.2 (by omega), ← Option.some.inj hline.2,
            firstLine_fst_append_snd]

/-- A line with its newline, if that fits into the buffer, and else as two pieces. -/
theorem pieces_line {size : ℕ} {line : List UInt8} (rest : List UInt8) (hsize : 2 ≤ size)
    (hline : 10 ∉ line) (hlength : line.length < size) :
    pieces size (line ++ 10 :: rest) =
      (if line.length + 1 < size then [line ++ [10]] else [line, [10]]) ++ pieces size rest := by
  have hne : line ++ 10 :: rest ≠ [] := by simp
  split
  case isTrue hfits =>
    have hget : fgets size (line ++ 10 :: rest) = some (line ++ [10], rest) := by
      rw [fgets, if_neg hne, firstLine_append hline (by omega)]
    rw [pieces_of_fgets hsize hget]
    rfl
  case isFalse hfull =>
    have hlast : size - 1 = line.length := by omega
    have hget : fgets size (line ++ 10 :: rest) = some (line, 10 :: rest) := by
      rw [fgets, if_neg hne, hlast, firstLine_full _ hline]
    have hnewline : fgets size (10 :: rest) = some ([10], rest) := by
      have hfirst : firstLine (size - 1) ([] ++ 10 :: rest) = ([] ++ [10], rest) :=
        firstLine_append (by simp) (by simp only [List.length_nil]; omega)
      rw [fgets, if_neg (by simp)]
      exact congrArg some hfirst
    rw [pieces_of_fgets hsize hget, pieces_of_fgets hsize hnewline]
    rfl

/-- A part without newline is found in a line with or without its newline. -/
theorem strstr_newline {part : List UInt8} (line : List UInt8) (hne : part ≠ [])
    (hpart : 10 ∉ part) : strstr (line ++ [10]) part = strstr line part := by
  have hsuffix : ¬ part <:+ line ++ [10] := by
    rw [List.suffix_concat_iff]
    rintro (hnil | ⟨t, rfl, -⟩)
    · exact hne hnil
    · simp at hpart
  simp only [strstr, List.infix_concat_iff, hsuffix, false_or]

section Lines
variable {line : List UInt8} {n : ℕ}

theorem lines_newline (rest : List UInt8) (hline : 10 ∉ line) :
    lines (line ++ 10 :: rest) = (line ++ [10]) :: lines rest := by
  induction line with
  | nil => simp [lines]
  | cons b line ih =>
      have hb : b ≠ 10 := fun h => hline (h ▸ List.mem_cons_self)
      rw [List.cons_append, lines, if_neg hb, ih fun h => hline (List.mem_cons_of_mem b h)]
      rfl

theorem lines_last (hne : line ≠ []) (hline : 10 ∉ line) : lines line = [line] := by
  induction line with
  | nil => exact absurd rfl hne
  | cons b line ih =>
      have hb : b ≠ 10 := fun h => hline (h ▸ List.mem_cons_self)
      rw [lines, if_neg hb]
      cases line with
      | nil => rfl
      | cons c line =>
          rw [ih (List.cons_ne_nil c line) fun h => hline (List.mem_cons_of_mem b h)]

/-- A text is empty, a last line without newline, or a line and a text. -/
theorem lines_induction {motive : List UInt8 → Prop} (nil : motive [])
    (last : ∀ line, line ≠ [] → 10 ∉ line → motive line)
    (newline : ∀ line rest, 10 ∉ line → motive rest → motive (line ++ 10 :: rest))
    (text : List UInt8) : motive text := by
  induction hlength : text.length using Nat.strong_induction_on generalizing text with
  | _ k ih =>
      by_cases hmem : (10 : UInt8) ∈ text
      · obtain ⟨line, rest, rfl, hline⟩ := List.eq_append_cons_of_mem hmem
        rw [List.length_append, List.length_cons] at hlength
        exact newline line rest hline (ih rest.length (by omega) rest rfl)
      · by_cases hnil : text = []
        · rw [hnil]
          exact nil
        · exact last text hnil hmem

theorem firstLine_take (rest : List UInt8) (hline : 10 ∉ line) (hn : n ≤ line.length) :
    firstLine n (line ++ rest) = (line.take n, line.drop n ++ rest) := by
  have hfull := @firstLine_full (line.take n) (line.drop n ++ rest)
    fun h => hline (List.mem_of_mem_take h)
  rwa [← List.append_assoc, List.take_append_drop, List.length_take_of_le hn] at hfull

theorem firstLine_last (hline : 10 ∉ line) (hn : line.length ≤ n) :
    firstLine n line = (line, []) := by
  induction line generalizing n with
  | nil => cases n <;> rfl
  | cons b line ih =>
      cases n with
      | zero => simp at hn
      | succ n =>
          have hb : b ≠ 10 := fun h => hline (h ▸ List.mem_cons_self)
          have hrest := ih (n := n) (fun h => hline (List.mem_cons_of_mem b h))
            (Nat.le_of_succ_le_succ hn)
          simp [firstLine, hb, hrest]

theorem rests_short (hn : line.length ≤ n) : rests n line = [] := by
  have hnone : (line.length - 1) / n = 0 := by
    rw [Nat.div_eq_zero_iff]
    omega
  rw [rests, hnone]
  rfl

theorem rests_long (h₀ : 0 < n) (hn : n < line.length) :
    rests n line = line.drop n :: rests n (line.drop n) := by
  have hcount : (line.length - 1) / n = ((line.drop n).length - 1) / n + 1 := by
    rw [← Nat.add_div_right _ h₀, List.length_drop]
    congr 1
    omega
  rw [rests, rests, hcount, List.range_succ_eq_map, List.map_cons, List.map_map]
  congr 1
  · rw [Nat.zero_add, Nat.mul_one]
  · apply List.map_congr_left
    intro k _
    rw [Function.comp_apply, List.drop_drop, Nat.succ_eq_add_one, Nat.mul_add n (k + 1) 1]
    congr 1
    omega

theorem rests_eq_nil_iff (h₀ : 0 < n) : rests n line = [] ↔ line.length ≤ n := by
  constructor
  · intro h
    by_contra hlong
    rw [rests_long h₀ (by omega)] at h
    exact absurd h (List.cons_ne_nil _ _)
  · exact rests_short

theorem cut_short (hn : line.length ≤ n) : cut n line = [line] := by
  rw [cut, rests_short hn, List.take_of_length_le hn]
  rfl

theorem cut_long (h₀ : 0 < n) (hn : n < line.length) :
    cut n line = line.take n :: cut n (line.drop n) := by
  rw [cut, rests_long h₀ hn, cut]
  rfl

/-- A buffer that is too small for the line takes what fits. -/
theorem pieces_long (rest : List UInt8) (h₀ : 0 < n) (hline : 10 ∉ line)
    (hn : n ≤ line.length) :
    pieces (n + 1) (line ++ rest) = line.take n :: pieces (n + 1) (line.drop n ++ rest) := by
  have hne : line ++ rest ≠ [] := by
    intro h
    have hnil := congrArg List.length h
    rw [List.length_append, List.length_nil] at hnil
    omega
  apply pieces_of_fgets (by omega)
  rw [fgets, if_neg hne, Nat.add_sub_cancel, firstLine_take rest hline hn]

theorem pieces_cut_newline (rest : List UInt8) (h₀ : 0 < n) (hline : 10 ∉ line) :
    pieces (n + 1) (line ++ 10 :: rest) = cut n (line ++ [10]) ++ pieces (n + 1) rest := by
  induction hlength : line.length using Nat.strong_induction_on generalizing line with
  | _ k ih =>
      have hsize : (line ++ [10]).length = line.length + 1 := List.length_append
      by_cases hshort : line.length < n
      · rw [cut_short (by omega)]
        apply pieces_of_fgets (by omega)
        rw [fgets, if_neg (by simp), Nat.add_sub_cancel, firstLine_append hline hshort]
      · have hrest := ih (line.drop n).length (by rw [List.length_drop]; omega)
          (fun h => hline (List.mem_of_mem_drop h)) rfl
        have hcut : cut n (line ++ [10]) = line.take n :: cut n (line.drop n ++ [10]) := by
          rw [cut_long h₀ (by omega), List.take_append_of_le_length (by omega),
            List.drop_append_of_le_length (by omega)]
        rw [pieces_long _ h₀ hline (by omega), hrest, hcut]
        rfl

theorem pieces_cut_last (h₀ : 0 < n) (hne : line ≠ []) (hline : 10 ∉ line) :
    pieces (n + 1) line = cut n line := by
  induction hlength : line.length using Nat.strong_induction_on generalizing line with
  | _ k ih =>
      by_cases hshort : line.length ≤ n
      · have hget : fgets (n + 1) line = some (line, []) := by
          rw [fgets, if_neg hne, Nat.add_sub_cancel, firstLine_last hline hshort]
        rw [cut_short hshort, pieces_of_fgets (by omega) hget]
        rfl
      · have hsize := List.length_drop (i := n) (l := line)
        have hdrop : line.drop n ≠ [] := List.ne_nil_of_length_pos (by omega)
        have hrest := ih (line.drop n).length (by omega) hdrop
          (fun h => hline (List.mem_of_mem_drop h)) rfl
        have hlong := pieces_long [] h₀ hline (Nat.le_of_not_le hshort)
        rw [List.append_nil, List.append_nil] at hlong
        rw [hlong, hrest, cut_long h₀ (Nat.lt_of_not_le hshort)]

/-- Reading by pieces cuts every line for itself. -/
theorem pieces_eq (h₀ : 0 < n) (text : List UInt8) :
    pieces (n + 1) text = (lines text).flatMap (cut n) := by
  induction text using lines_induction with
  | nil => rfl
  | last line hne hline =>
      rw [lines_last hne hline, List.flatMap_singleton, pieces_cut_last h₀ hne hline]
  | newline line rest hline ih =>
      rw [lines_newline rest hline, List.flatMap_cons, pieces_cut_newline rest h₀ hline, ih]

theorem flatten_lines (text : List UInt8) : (lines text).flatten = text := by
  induction text using lines_induction with
  | nil => rfl
  | last line hne hline => rw [lines_last hne hline, List.flatten_singleton]
  | newline line rest hline ih =>
      rw [lines_newline rest hline, List.flatten_cons, ih, List.append_assoc]
      rfl

end Lines

section Tokens
variable {word : List UInt8}

theorem tokensFrom_word (token : List UInt8) (rest : List UInt8) (hword : 32 ∉ word) :
    tokensFrom token (word ++ rest) = tokensFrom (token ++ word) rest := by
  induction word generalizing token with
  | nil => simp
  | cons b word ih =>
      have hb : b ≠ 32 := fun h => hword (h ▸ List.mem_cons_self)
      rw [List.cons_append, tokensFrom, if_neg hb,
        ih (token ++ [b]) fun h => hword (List.mem_cons_of_mem b h)]
      simp

@[simp] theorem tokens_space (text : List UInt8) : tokens (32 :: text) = tokens text := rfl

theorem tokens_spaces (n : ℕ) (text : List UInt8) :
    tokens (List.replicate n 32 ++ text) = tokens text := by
  induction n with
  | zero => rfl
  | succ n ih => rw [List.replicate_succ, List.cons_append, tokens_space, ih]

theorem tokens_word (hword : 32 ∉ word) (hne : word ≠ []) (rest : List UInt8) :
    tokens (word ++ 32 :: rest) = word :: tokens rest := by
  rw [tokens, tokensFrom_word [] _ hword, List.nil_append, tokensFrom, if_pos rfl, if_neg hne]
  rfl

end Tokens

/-- What follows the last occurrence does not contain the byte. -/
theorem afterLast_append {b : UInt8} {text : List UInt8} (before : List UInt8) (h : b ∉ text) :
    afterLast b (before ++ b :: text) = some text := by
  have hrest : ∀ c ∈ text.reverse, decide (c ≠ b) = true := by
    intro c hc
    have hne : c ≠ b := fun heq => h (heq ▸ List.mem_reverse.mp hc)
    simpa using hne
  rw [afterLast, if_pos (by simp), List.reverse_append, List.reverse_cons, List.append_assoc,
    List.takeWhile_append_of_pos hrest]
  simp

end MicrokernelBenchmark.CString
