import MicrokernelBenchmark.CString
import MicrokernelBenchmark.DecimalText

/-!
# Scanning a listing for local ports

The part which the four port checks share: the loop over the lines of a command's
output, the test of the text behind the last separator, and the table of ports
already seen. A port that `atoi` leaves undefined leaves the whole scan undefined.

The table makes the printed ports the numbers in range without repetitions, each
where it comes first.
-/
namespace MicrokernelBenchmark.PortScan
open CString DecimalText

/-- `skipped` counts the lines taken for a header; no step reads it. -/
structure Scan where
  seenPorts : ℕ → Bool := fun _ => false
  printed : List ℤ := []
  skipped : ℕ := 0

def Scan.report (s : Scan) (port : ℤ) : Scan :=
  if 0 < port ∧ port < 65536 ∧ s.seenPorts port.toNat = false then
    { s with
      seenPorts := fun p => p = port.toNat || s.seenPorts p
      printed := s.printed ++ [port] }
  else s

/-- The token with the local address, given the byte which separates the port. -/
def checkToken (separator : UInt8) (token : List UInt8) (s : Scan) : Option Scan :=
  match afterLast separator token with
  | none => some s
  | some portStr => if portStr = [] then some s else (atoi portStr).map s.report

/-- The loop over `fgets` on the output of a command. -/
def scanLines (checkLine : Scan → List UInt8 → Option Scan) (output : List UInt8) : Option Scan :=
  (pieces lineSize output).foldlM checkLine {}

/-- The line "Open %s port detected: %d". -/
structure Detected where
  protocol : String
  port : ℤ
deriving DecidableEq, Repr

/-- What a check prints, given the output of its command if that could be run. -/
def checkPorts (checkLine : Scan → List UInt8 → Option Scan) (protocol : String) :
    Option (List UInt8) → Option (List Detected)
  | none => some []
  | some output => (scanLines checkLine output).map fun s => s.printed.map (Detected.mk protocol)

/-- The port of an address as the listings write it. -/
inductive Port where
  | any
  | number (digits : List UInt8)
deriving DecidableEq, Repr

namespace Port

def text : Port → List UInt8
  | any => bytes "*"
  | number digits => digits

def Valid : Port → Prop
  | any => True
  | number digits => digits ≠ [] ∧ ∀ b ∈ digits, isDigit b = true

instance : ∀ p : Port, Decidable p.Valid
  | any => isTrue trivial
  | number digits => inferInstanceAs (Decidable (digits ≠ [] ∧ ∀ b ∈ digits, isDigit b = true))

def number? : Port → Option ℤ
  | any => none
  | number digits => some (value digits)

/-- The number fits the `int` it is converted to. -/
def Representable (p : Port) : Prop := ∀ n ∈ p.number?, n ≤ 2147483647

instance (p : Port) : Decidable p.Representable :=
  match p with
  | any => isTrue (by simp [Representable, number?])
  | number digits => decidable_of_iff ((value digits : ℤ) ≤ 2147483647)
      (by simp [Representable, number?])

end Port

/-- A column of a listing and the blanks behind it, of which there is at least one. -/
structure Column where
  text : List UInt8
  padding : ℕ
deriving DecidableEq, Repr

namespace Column

def Valid (c : Column) : Prop := c.text ≠ [] ∧ 32 ∉ c.text ∧ 10 ∉ c.text

instance (c : Column) : Decidable c.Valid := inferInstanceAs (Decidable (_ ∧ _))

def ofString (text : String) (padding : ℕ) : Column := ⟨bytes text, padding⟩

def padded (c : Column) : List UInt8 := c.text ++ 32 :: List.replicate c.padding 32

end Column

def InRange (p : ℤ) : Prop := 1 ≤ p ∧ p ≤ 65535

instance (p : ℤ) : Decidable (InRange p) := inferInstanceAs (Decidable (_ ∧ _))

/-- The distinct numbers in range, in the order in which they come first. -/
def expected (ports : List Port) : List ℤ :=
  ((ports.filterMap Port.number?).filter InRange).eraseDups

/-- The ports in the order in which the lines give them. -/
def Scan.reportAll (s : Scan) (ports : List Port) : Scan :=
  (ports.filterMap Port.number?).foldl Scan.report s

theorem Port.not_mem_text {p : Port} (hp : p.Valid) {b : UInt8} (hb : isDigit b = false)
    (hstar : b ≠ 42) : b ∉ p.text := by
  cases p with
  | any =>
      have htext : bytes "*" = [42] := by decide
      simpa [text, htext] using hstar
  | number digits =>
      intro hmem
      rw [hp.2 b hmem] at hb
      cases hb

theorem Port.text_ne_nil {p : Port} (hp : p.Valid) : p.text ≠ [] := by
  cases p with
  | any => decide
  | number digits => exact hp.1

theorem tokens_columns {columns : List Column} (h : ∀ c ∈ columns, c.Valid)
    (rest : List UInt8) :
    tokens (columns.flatMap Column.padded ++ rest) = columns.map Column.text ++ tokens rest := by
  induction columns with
  | nil => rfl
  | cons c columns ih =>
      obtain ⟨hne, hblank, -⟩ := h c List.mem_cons_self
      have hrest := ih fun c' hc' => h c' (List.mem_cons_of_mem c hc')
      rw [List.flatMap_cons, Column.padded, List.append_assoc, List.append_assoc, List.cons_append,
        tokens_word hblank hne, tokens_spaces, hrest]
      rfl

theorem newline_not_mem_columns {columns : List Column} (h : ∀ c ∈ columns, c.Valid) :
    10 ∉ columns.flatMap Column.padded := by
  intro hmem
  obtain ⟨c, hc, hmem⟩ := List.mem_flatMap.mp hmem
  have hvalid := (h c hc).2.2
  simp [Column.padded, List.mem_replicate, hvalid] at hmem

theorem report_zero (s : Scan) : s.report 0 = s := by
  rw [Scan.report, if_neg (by simp)]

/-- A port which is no number is scanned as 0, and 0 is never reported. -/
theorem checkToken_port {separator : UInt8} (host : List UInt8) {p : Port} (hp : p.Valid)
    (hseparator : isDigit separator = false) (hstar : separator ≠ 42) (s : Scan) :
    checkToken separator (host ++ separator :: p.text) s =
      if p.Representable then some (s.reportAll [p]) else none := by
  rw [checkToken, afterLast_append host (p.not_mem_text hp hseparator hstar)]
  simp only [if_neg (p.text_ne_nil hp)]
  cases p with
  | any =>
      have hatoi : atoi (bytes "*") = some 0 := by decide
      have hrepresentable : Port.any.Representable := by simp [Port.Representable, Port.number?]
      rw [if_pos hrepresentable, Port.text, hatoi, Option.map_some, report_zero]
      rfl
  | number digits =>
      have hiff : (Port.number digits).Representable ↔ value digits ≤ 2147483647 := by
        simp only [Port.Representable, Port.number?, Option.mem_def, Option.some.injEq,
          forall_eq']
        omega
      simp only [hiff]
      rw [Port.text, atoi_digits hp.1 hp.2]
      split <;> rfl

theorem eraseDups_snoc (l : List ℤ) (a : ℤ) :
    (l ++ [a]).eraseDups = if a ∈ l then l.eraseDups else l.eraseDups ++ [a] := by
  rw [List.eraseDups_append]
  by_cases ha : a ∈ l <;> simp [List.removeAll, ha, List.eraseDups_cons]

/-- The table holds exactly what has been printed. -/
structure Scan.Recorded (s : Scan) (ports : List ℤ) : Prop where
  printed : s.printed = (ports.filter InRange).eraseDups
  seen : ∀ p : ℕ, s.seenPorts p = true ↔ (p : ℤ) ∈ s.printed

theorem Scan.Recorded.report {s : Scan} {ports : List ℤ} (h : s.Recorded ports) (port : ℤ) :
    (s.report port).Recorded (ports ++ [port]) := by
  by_cases hrange : InRange port
  · have hpos : 0 < port ∧ port < 65536 := by
      unfold InRange at hrange
      omega
    have hnat : ((port.toNat : ℕ) : ℤ) = port := Int.toNat_of_nonneg (Int.le_of_lt hpos.1)
    have hseen : s.seenPorts port.toNat = true ↔ port ∈ ports.filter InRange := by
      rw [h.seen, hnat, h.printed, List.mem_eraseDups]
    have hfilter : (ports ++ [port]).filter InRange = ports.filter InRange ++ [port] := by
      rw [List.filter_append, List.filter_cons_of_pos (by simpa using hrange), List.filter_nil]
    by_cases hold : port ∈ ports.filter InRange
    · have hkeep : s.report port = s := by
        rw [Scan.report, if_neg]
        simp [hseen.mpr hold]
      rw [hkeep]
      exact ⟨by rw [hfilter, eraseDups_snoc, if_pos hold, h.printed], h.seen⟩
    · have hnew : s.seenPorts port.toNat = false := by
        simpa using mt hseen.mp hold
      rw [Scan.report, if_pos ⟨hpos.1, hpos.2, hnew⟩]
      refine ⟨by rw [hfilter, eraseDups_snoc, if_neg hold, h.printed], fun p => ?_⟩
      have hp : p = port.toNat ↔ (p : ℤ) = port := by omega
      simp [h.seen, hp, or_comm]
  · have hkeep : s.report port = s := by
      rw [Scan.report, if_neg]
      unfold InRange at hrange
      omega
    rw [hkeep]
    refine ⟨?_, h.seen⟩
    rw [h.printed, List.filter_append, List.filter_cons_of_neg (by simpa using hrange),
      List.filter_nil, List.append_nil]

/-- What is printed for a list of ports is what is expected. -/
theorem reportAll_printed (skipped : ℕ) (ports : List Port) :
    (({ skipped := skipped } : Scan).reportAll ports).printed = expected ports := by
  have hrecorded : ∀ ns : List ℤ, (ns.foldl Scan.report { skipped := skipped }).Recorded ns := by
    intro ns
    induction ns using List.reverseRecOn with
    | nil => exact ⟨rfl, by simp⟩
    | append_singleton ns n ih =>
        rw [List.foldl_append]
        exact ih.report n
  exact (hrecorded _).printed

@[simp] theorem skipped_report (s : Scan) (port : ℤ) : (s.report port).skipped = s.skipped := by
  rw [Scan.report]
  split <;> rfl

@[simp] theorem skipped_reportAll (s : Scan) (ports : List Port) :
    (s.reportAll ports).skipped = s.skipped := by
  rw [Scan.reportAll]
  induction ports.filterMap Port.number? generalizing s with
  | nil => rfl
  | cons n ns ih => rw [List.foldl_cons, ih, skipped_report]

theorem reportAll_cons (s : Scan) (p : Port) (ports : List Port) :
    (s.reportAll [p]).reportAll ports = s.reportAll (p :: ports) := by
  cases h : p.number? <;> simp [Scan.reportAll, h]

section Lines
variable {L : Type*} {text : L → List UInt8} {effect : Scan → L → Option Scan}
  {checkLine : Scan → List UInt8 → Option Scan}

/-- Lines shorter than the buffer are checked one after the other; where a
newline is read as a line of its own, it changes nothing. -/
theorem foldlM_pieces {lines : List L} (hline : ∀ l ∈ lines, 10 ∉ text l)
    (hlength : ∀ l ∈ lines, (text l).length < lineSize)
    (hcheck : ∀ l ∈ lines, ∀ s, checkLine s (text l) = effect s l)
    (hnewline : ∀ l ∈ lines, ∀ s, checkLine s (text l ++ [10]) = effect s l)
    (hempty : ∀ s, checkLine s [10] = some s) (s : Scan) :
    (pieces lineSize (lines.flatMap fun l => text l ++ [10])).foldlM checkLine s =
      lines.foldlM effect s := by
  induction lines generalizing s with
  | nil => rfl
  | cons l lines ih =>
      have hl : l ∈ l :: lines := List.mem_cons_self
      have htail : ∀ s, (pieces lineSize (lines.flatMap fun l => text l ++ [10])).foldlM
          checkLine s = lines.foldlM effect s :=
        ih (fun k hk => hline k (List.mem_cons_of_mem l hk))
          (fun k hk => hlength k (List.mem_cons_of_mem l hk))
          (fun k hk => hcheck k (List.mem_cons_of_mem l hk))
          (fun k hk => hnewline k (List.mem_cons_of_mem l hk))
      rw [List.flatMap_cons, List.append_assoc, List.singleton_append,
        pieces_line _ (by decide) (hline l hl) (hlength l hl), List.foldlM_append,
        List.foldlM_cons]
      split
      · rw [List.foldlM_cons, hnewline l hl s]
        simp [htail]
      · rw [List.foldlM_cons, hcheck l hl s]
        simp [hempty, htail]

end Lines

end MicrokernelBenchmark.PortScan
