import Mathlib.Data.Nat.Digits.Lemmas
import Mathlib.Tactic.IntervalCases
import Mathlib.Tactic.Ring

/-!
# Decimal numbers in a text of bytes

The value of a text of digits is given by its digits, independently of the loop
which the scanning functions of C run over it. A scan skips white space, takes a
sign and the longest run of digits; it has no result where C leaves the number
undefined, as the value does not fit its type. What is printed is scanned back.
-/
namespace MicrokernelBenchmark.DecimalText

def isDigit (b : UInt8) : Bool := 48 ≤ b && b ≤ 57

/-- The white space of the C locale. -/
def isSpace (b : UInt8) : Bool := b = 32 || (9 ≤ b && b ≤ 13)

def digitValue (b : UInt8) : ℕ := b.toNat - 48

/-- The number that a text of digits denotes. -/
def value (text : List UInt8) : ℕ := Nat.ofDigits 10 (text.reverse.map digitValue)

def accumulate (acc : ℕ) (text : List UInt8) : ℕ :=
  text.foldl (fun acc b => 10 * acc + digitValue b) acc

def signed (text : List UInt8) : ℤ × List UInt8 :=
  if text.head? = some 45 then (-1, text.tail)
  else if text.head? = some 43 then (1, text.tail)
  else (1, text)

/-- The exact number at the start of a text, and the text behind it. -/
def scan (text : List UInt8) : Option (ℤ × List UInt8) :=
  let (sign, rest) := signed (text.dropWhile isSpace)
  let digits := rest.takeWhile isDigit
  if digits = [] then none
  else some (sign * accumulate 0 digits, rest.dropWhile isDigit)

def FitsInt (x : ℤ) : Prop := -2147483648 ≤ x ∧ x ≤ 2147483647

instance (x : ℤ) : Decidable (FitsInt x) := inferInstanceAs (Decidable (_ ∧ _))

/-- Zero without a number, and undefined when the number is not an `int`. -/
def atoi (text : List UInt8) : Option ℤ :=
  match scan text with
  | none => some 0
  | some (x, _) => if FitsInt x then some x else none

/-- The scan for a conversion of a certain type: the inner option is empty when there is
no number, and the outer one when the number is not of the type. -/
def scanAs (fits : ℤ → Prop) [DecidablePred fits] (text : List UInt8) :
    Option (Option (ℤ × List UInt8)) :=
  match scan text with
  | none => some none
  | some (x, rest) => if fits x then some (some (x, rest)) else none

/-- Zero without a number, and the greatest value instead of one that is too large. A
negative number is negated as an unsigned one. -/
def strtoull (text : List UInt8) : UInt64 :=
  match scan text with
  | none => 0
  | some (x, _) =>
      if 2 ^ 64 ≤ x.natAbs then 18446744073709551615
      else if x < 0 then -UInt64.ofNat x.natAbs
      else UInt64.ofNat x.natAbs

def digitByte (d : ℕ) : UInt8 := UInt8.ofNat (48 + d)

def printNat (x : ℕ) : List UInt8 :=
  if x = 0 then [48] else (Nat.digits 10 x).reverse.map digitByte

def printInt (x : ℤ) : List UInt8 :=
  if x < 0 then 45 :: printNat x.natAbs else printNat x.natAbs

theorem accumulate_eq (acc : ℕ) (text : List UInt8) :
    accumulate acc text = acc * 10 ^ text.length + value text := by
  induction text generalizing acc with
  | nil => simp [accumulate, value]
  | cons b text ih =>
      have hcons : value (b :: text) = value text + 10 ^ text.length * digitValue b := by
        simp [value, Nat.ofDigits_append]
      have hstep : accumulate acc (b :: text) = accumulate (10 * acc + digitValue b) text := rfl
      rw [hstep, ih, hcons, List.length_cons]
      ring

theorem isSpace_of_isDigit {b : UInt8} (h : isDigit b = true) : isSpace b = false := by
  simp only [isDigit, Bool.and_eq_true, decide_eq_true_eq, UInt8.le_iff_toNat_le] at h
  simp only [isSpace, Bool.or_eq_false_iff, Bool.and_eq_false_iff, decide_eq_false_iff_not,
    UInt8.le_iff_toNat_le, ← UInt8.toNat_inj]
  have hlow : (48 : UInt8).toNat = 48 := rfl
  have hspace : (32 : UInt8).toNat = 32 := rfl
  have hcr : (13 : UInt8).toNat = 13 := rfl
  omega

theorem signed_digits {b : UInt8} (text : List UInt8) (h : isDigit b = true) :
    signed (b :: text) = (1, b :: text) := by
  have hminus : b ≠ 45 := by rintro rfl; cases h
  have hplus : b ≠ 43 := by rintro rfl; cases h
  simp [signed, hminus, hplus]

theorem takeWhile_isDigit {digits rest : List UInt8} (hdigits : ∀ b ∈ digits, isDigit b = true)
    (hrest : ∀ b ∈ rest.head?, isDigit b = false) :
    (digits ++ rest).takeWhile isDigit = digits ∧ (digits ++ rest).dropWhile isDigit = rest := by
  rw [List.takeWhile_append_of_pos hdigits, List.dropWhile_append_of_pos hdigits]
  cases rest with
  | nil => simp
  | cons b rest => simp [hrest b rfl]

/-- A text of digits is scanned as the number it denotes. -/
theorem scan_digits {digits rest : List UInt8} (hne : digits ≠ [])
    (hdigits : ∀ b ∈ digits, isDigit b = true) (hrest : ∀ b ∈ rest.head?, isDigit b = false) :
    scan (digits ++ rest) = some ((value digits : ℤ), rest) := by
  obtain ⟨htake, hdrop⟩ := takeWhile_isDigit hdigits hrest
  have hstart : signed ((digits ++ rest).dropWhile isSpace) = (1, digits ++ rest) := by
    cases digits with
    | nil => exact absurd rfl hne
    | cons b digits =>
        have hb := hdigits b List.mem_cons_self
        rw [List.cons_append, List.dropWhile_cons_of_neg (by simp [isSpace_of_isDigit hb])]
        exact signed_digits _ hb
  rw [scan, hstart]
  simp only [htake, hdrop, if_neg hne, accumulate_eq]
  simp

theorem scan_minus {digits rest : List UInt8} (hne : digits ≠ [])
    (hdigits : ∀ b ∈ digits, isDigit b = true) (hrest : ∀ b ∈ rest.head?, isDigit b = false) :
    scan (45 :: (digits ++ rest)) = some (-(value digits : ℤ), rest) := by
  obtain ⟨htake, hdrop⟩ := takeWhile_isDigit hdigits hrest
  have hstart : signed ((45 :: (digits ++ rest)).dropWhile isSpace) = (-1, digits ++ rest) := rfl
  rw [scan, hstart]
  simp only [htake, hdrop, if_neg hne, accumulate_eq]
  simp

theorem scan_blank (text : List UInt8) : scan (32 :: text) = scan text := by
  have hblank : (32 :: text).dropWhile isSpace = text.dropWhile isSpace :=
    List.dropWhile_cons_of_pos rfl
  rw [scan, scan, hblank]

theorem scanAs_eq {fits : ℤ → Prop} [DecidablePred fits] {text rest : List UInt8} {x : ℤ}
    (h : scan text = some (x, rest)) (hx : fits x) : scanAs fits text = some (some (x, rest)) := by
  rw [scanAs, h]
  exact if_pos hx

section Print

theorem digitByte_spec {d : ℕ} (h : d < 10) :
    isDigit (digitByte d) = true ∧ digitValue (digitByte d) = d := by
  interval_cases d <;> decide

theorem printNat_ne_nil (x : ℕ) : printNat x ≠ [] := by
  rw [printNat]
  split
  case isTrue => simp
  case isFalse h => simpa [Nat.digits_eq_nil_iff_eq_zero] using h

theorem isDigit_of_mem_printNat {x : ℕ} {b : UInt8} (hb : b ∈ printNat x) : isDigit b = true := by
  rw [printNat] at hb
  split at hb
  case isTrue =>
    rw [List.mem_singleton.mp hb]
    rfl
  case isFalse =>
    obtain ⟨d, hd, rfl⟩ := List.mem_map.mp hb
    exact (digitByte_spec (Nat.digits_lt_base (by decide) (List.mem_reverse.mp hd))).1

theorem value_printNat (x : ℕ) : value (printNat x) = x := by
  rw [printNat]
  split
  case isTrue h =>
    rw [h]
    rfl
  case isFalse h =>
    have hdigits : (Nat.digits 10 x).map (digitValue ∘ digitByte) = Nat.digits 10 x := by
      have hmap : (Nat.digits 10 x).map (digitValue ∘ digitByte) = (Nat.digits 10 x).map id :=
        List.map_congr_left fun d hd => (digitByte_spec (Nat.digits_lt_base (by decide) hd)).2
      rw [hmap, List.map_id]
    rw [value, ← List.map_reverse, List.reverse_reverse, List.map_map, hdigits,
      Nat.ofDigits_digits]

theorem length_printNat_le {x k : ℕ} (hk : 0 < k) (h : x < 10 ^ k) :
    (printNat x).length ≤ k := by
  rw [printNat]
  split
  case isTrue => exact hk
  case isFalse =>
    rw [List.length_map, List.length_reverse]
    exact (Nat.digits_length_le_iff (by decide) x).mpr h

theorem length_printInt_le {x : ℤ} {k : ℕ} (hk : 0 < k) (h : x.natAbs < 10 ^ k) :
    (printInt x).length ≤ k + 1 := by
  have hlength := length_printNat_le hk h
  rw [printInt]
  split
  case isTrue => simpa using hlength
  case isFalse => exact Nat.le_succ_of_le hlength

theorem ne_zero_of_mem_printInt {x : ℤ} {b : UInt8} (hb : b ∈ printInt x) : b ≠ 0 := by
  have hdigit : ∀ {y : ℕ}, b ∈ printNat y → b ≠ 0 := by
    rintro y hy rfl
    cases isDigit_of_mem_printNat hy
  rw [printInt] at hb
  split at hb
  case isTrue =>
    rcases List.mem_cons.mp hb with rfl | hb
    · decide
    · exact hdigit hb
  case isFalse => exact hdigit hb

/-- What is printed is scanned back. -/
theorem scan_printInt (x : ℤ) {rest : List UInt8} (hrest : ∀ b ∈ rest.head?, isDigit b = false) :
    scan (printInt x ++ rest) = some (x, rest) := by
  have hdigits : ∀ b ∈ printNat x.natAbs, isDigit b = true := fun b => isDigit_of_mem_printNat
  rw [printInt]
  split
  case isTrue hx =>
    have hvalue : -(x.natAbs : ℤ) = x := by omega
    rw [List.cons_append, scan_minus (printNat_ne_nil _) hdigits hrest, value_printNat, hvalue]
  case isFalse hx =>
    have hvalue : (x.natAbs : ℤ) = x := by omega
    rw [scan_digits (printNat_ne_nil _) hdigits hrest, value_printNat, hvalue]

theorem printInt_injective : Function.Injective printInt := by
  intro x y h
  have hx : scan (printInt x ++ []) = some (x, []) := scan_printInt x (by simp)
  have hy : scan (printInt y ++ []) = some (y, []) := scan_printInt y (by simp)
  rw [h, hy] at hx
  exact (congrArg Prod.fst (Option.some.inj hx)).symm

theorem strtoull_printNat {x : ℕ} (h : x < 2 ^ 64) : strtoull (printNat x) = UInt64.ofNat x := by
  have hscan : scan (printNat x ++ []) = some ((value (printNat x) : ℤ), []) :=
    scan_digits (printNat_ne_nil x) (fun b => isDigit_of_mem_printNat) (by simp)
  rw [List.append_nil, value_printNat] at hscan
  rw [strtoull, hscan]
  dsimp only
  rw [Int.natAbs_natCast, if_neg (by omega), if_neg (by omega)]

end Print

theorem atoi_digits {digits : List UInt8} (hne : digits ≠ [])
    (hdigits : ∀ b ∈ digits, isDigit b = true) :
    atoi digits = if value digits ≤ 2147483647 then some (value digits : ℤ) else none := by
  have hscan : scan digits = some ((value digits : ℤ), []) := by
    have h := @scan_digits digits [] hne hdigits (by simp)
    rwa [List.append_nil] at h
  have hfits : FitsInt (value digits) ↔ value digits ≤ 2147483647 := by
    rw [FitsInt]
    omega
  rw [atoi, hscan]
  simp only [hfits]

end MicrokernelBenchmark.DecimalText
