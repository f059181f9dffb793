import MicrokernelBenchmark.CString
import Mathlib.Data.List.TakeWhile

/-!
# Scanning lines by pieces

`check_openssl_ciphers` counts and `print_shadow_root_line` searches what `fgets`
leaves in a buffer of 512 bytes. A longer line comes in several pieces: each of
them is counted, and a later one can pass for the start of a line.
-/
namespace MicrokernelBenchmark.LineScans
open CString

/-- The longest piece that `fgets` leaves in the buffer. -/
def pieceSize : ℕ := 511

def intMax : ℕ := 2147483647

/-- The string in a buffer ends with the first NUL. -/
def string (buffer : List UInt8) : List UInt8 := buffer.takeWhile (· ≠ 0)

structure CipherSummary where
  total : ℕ := 0
  sha256 : ℕ := 0
  sha384 : ℕ := 0
  poly1305 : ℕ := 0
deriving DecidableEq, Repr

/-- Undefined where `total` overflows. None of the other counts is greater. -/
def countCipher (s : CipherSummary) (line : List UInt8) : Option CipherSummary :=
  if s.total < intMax then
    some {
      total := s.total + 1
      sha256 := if strstr line (bytes "SHA256") then s.sha256 + 1 else s.sha256
      sha384 := if strstr line (bytes "SHA384") then s.sha384 + 1 else s.sha384
      poly1305 := if strstr line (bytes "POLY1305") then s.poly1305 + 1 else s.poly1305 }
  else none

inductive CipherReport where
  | failed
  | summary (s : CipherSummary)
deriving DecidableEq, Repr

/-- The argument is the output of the command, if it could be run. -/
def checkOpensslCiphers : Option (List UInt8) → Option CipherReport
  | none => some .failed
  | some output =>
      (((pieces lineSize output).map string).foldlM countCipher {}).map CipherReport.summary

def startsRoot (line : List UInt8) : Bool := line.take 5 = bytes "root:"

def rootEntry : List UInt8 := bytes "root entry: "

/-- What is printed of `/etc/shadow`, if it can be opened. -/
def printShadowRootLine (shadow : Option (List UInt8)) : Option (List UInt8) :=
  shadow.bind fun text =>
    (((pieces lineSize text).map string).find? startsRoot).map (rootEntry ++ ·)

/-- What a summary of the lines says. -/
def summary (ls : List (List UInt8)) : CipherSummary where
  total := ls.length
  sha256 := ls.countP (strstr · (bytes "SHA256"))
  sha384 := ls.countP (strstr · (bytes "SHA384"))
  poly1305 := ls.countP (strstr · (bytes "POLY1305"))

def rootLine (text : List UInt8) : Option (List UInt8) := (lines text).find? startsRoot

/-- Of the lines before the root entry, the first rest behind a cut which looks like one. -/
def impostor (text : List UInt8) : Option (List UInt8) :=
  (((lines text).takeWhile fun l => !startsRoot l).flatMap (rests pieceSize)).find? startsRoot

section Pieces
variable {text : List UInt8}

theorem pieces_lineSize (text : List UInt8) :
    pieces lineSize text = (lines text).flatMap (cut pieceSize) := pieces_eq (by decide) text

theorem mem_of_mem_pieces {piece : List UInt8} {b : UInt8} (hpiece : piece ∈ pieces lineSize text)
    (hb : b ∈ piece) : b ∈ text := by
  rw [pieces_lineSize, List.mem_flatMap] at hpiece
  obtain ⟨line, hline, hpiece⟩ := hpiece
  have hmem : b ∈ line := by
    rcases List.mem_cons.mp hpiece with rfl | hpiece
    · exact List.mem_of_mem_take hb
    · obtain ⟨rest, hrest, rfl⟩ := List.mem_map.mp hpiece
      obtain ⟨k, -, rfl⟩ := List.mem_map.mp hrest
      exact List.mem_of_mem_drop (List.mem_of_mem_take hb)
  rw [← flatten_lines text]
  exact List.mem_flatten_of_mem hline hmem

theorem map_string_pieces (htext : 0 ∉ text) :
    (pieces lineSize text).map string = pieces lineSize text := by
  have hstring : ∀ piece ∈ pieces lineSize text, string piece = id piece := by
    intro piece hpiece
    rw [string, id_eq, List.takeWhile_eq_self_iff]
    intro b hb
    rw [decide_eq_true_eq]
    rintro rfl
    exact htext (mem_of_mem_pieces hpiece hb)
  rw [List.map_congr_left hstring, List.map_id]

end Pieces

section Ciphers

theorem foldlM_countCipher (ls : List (List UInt8)) :
    ls.foldlM countCipher {} = if ls.length ≤ intMax then some (summary ls) else none := by
  induction ls using List.reverseRecOn with
  | nil => rfl
  | append_singleton ls l ih =>
      rw [List.foldlM_append, ih, List.length_append, List.length_singleton]
      by_cases hlt : ls.length < intMax
      · rw [if_pos hlt.le, if_pos (Nat.succ_le_of_lt hlt)]
        have hcount : countCipher (summary ls) l = some (summary (ls ++ [l])) := by
          have hlt' : (summary ls).total < intMax := hlt
          rw [countCipher, if_pos hlt', summary, summary]
          simp only [List.countP_append, List.countP_singleton, List.length_append,
            List.length_singleton]
          congr 2 <;> split <;> rfl
        simp [hcount]
      · rw [if_neg (by omega : ¬ ls.length + 1 ≤ intMax)]
        by_cases heq : ls.length ≤ intMax
        · have hcount : countCipher (summary ls) l = none := if_neg hlt
          simp [heq, hcount]
        · simp [heq]

/-- Only cuts add to the number of pieces. -/
theorem length_flatMap_cut {n : ℕ} (hn : 0 < n) (ls : List (List UInt8)) :
    ls.length ≤ (ls.flatMap (cut n)).length ∧
      ((ls.flatMap (cut n)).length = ls.length ↔ ∀ l ∈ ls, l.length ≤ n) := by
  induction ls with
  | nil => simp
  | cons l ls ih =>
      obtain ⟨hle, hiff⟩ := ih
      have hlength : ((l :: ls).flatMap (cut n)).length =
          (rests n l).length + 1 + (ls.flatMap (cut n)).length := by
        rw [List.flatMap_cons, List.length_append, cut, List.length_cons, List.length_map]
      have hrests : (rests n l).length = 0 ↔ l.length ≤ n := by
        rw [List.length_eq_zero_iff, rests_eq_nil_iff hn]
      rw [hlength, List.length_cons, List.forall_mem_cons, ← hiff, ← hrests]
      omega

theorem flatMap_cut_short {n : ℕ} {ls : List (List UInt8)} (h : ∀ l ∈ ls, l.length ≤ n) :
    ls.flatMap (cut n) = ls := by
  induction ls with
  | nil => rfl
  | cons l ls ih =>
      obtain ⟨hl, hls⟩ := List.forall_mem_cons.mp h
      rw [List.flatMap_cons, cut_short hl, ih hls]
      rfl

theorem checkOpensslCiphers_iff {text : List UInt8} (htext : 0 ∉ text) :
    checkOpensslCiphers (some text) = some (.summary (summary (lines text))) ↔
      (∀ l ∈ lines text, l.length ≤ pieceSize) ∧ (lines text).length ≤ intMax := by
  obtain ⟨hle, hiff⟩ := length_flatMap_cut (n := pieceSize) (by decide) (lines text)
  rw [checkOpensslCiphers, map_string_pieces htext, foldlM_countCipher, pieces_lineSize]
  constructor
  · intro h
    obtain ⟨s, hs, hsummary⟩ := Option.map_eq_some_iff.mp h
    obtain ⟨hfits, hs⟩ := Option.ite_none_right_eq_some.mp hs
    have htotal : s.total = (lines text).length := by rw [CipherReport.summary.inj hsummary]; rfl
    rw [← Option.some.inj hs] at htotal
    exact ⟨hiff.mp htotal, hle.trans hfits⟩
  · intro h
    obtain ⟨hshort, hfits⟩ := h
    rw [flatMap_cut_short hshort, if_pos hfits]
    rfl

end Ciphers

section Shadow

theorem startsRoot_take (line : List UInt8) :
    startsRoot (line.take pieceSize) = startsRoot line := by
  rw [startsRoot, startsRoot, List.take_take]
  rfl

/-- The first piece that passes a test on its start is a rest behind a cut before the first
line which passes it, or else of this line. -/
theorem find?_flatMap_cut {n : ℕ} {p : List UInt8 → Bool} (hp : ∀ l, p (l.take n) = p l)
    (ls : List (List UInt8)) :
    (ls.flatMap (cut n)).find? p =
      ((((ls.takeWhile fun l => !p l).flatMap (rests n)).find? p).map (List.take n)).or
        ((ls.find? p).map (List.take n)) := by
  induction ls with
  | nil => rfl
  | cons l ls ih =>
      rw [List.flatMap_cons, cut, List.cons_append, List.find?_cons, List.find?_cons, hp,
        List.takeWhile_cons]
      cases hl : p l with
      | true => simp
      | false =>
          have hrests : ((rests n l).map (List.take n)).find? p =
              ((rests n l).find? p).map (List.take n) := by
            rw [List.find?_map]
            congr 2
            funext rest
            exact hp rest
          simp only [Bool.not_false, if_true, List.flatMap_cons, List.find?_append, hrests, ih,
            Option.map_or, Option.or_assoc]

theorem printShadowRootLine_iff {text : List UInt8} (htext : 0 ∉ text) :
    printShadowRootLine (some text) = (rootLine text).map (rootEntry ++ ·) ↔
      (∀ rest ∈ impostor text, rootLine text = some (rest.take pieceSize)) ∧
        ∀ line ∈ rootLine text, line.length ≤ pieceSize := by
  have hinj : Function.Injective (Option.map (rootEntry ++ ·)) :=
    Option.map_injective (List.append_right_injective rootEntry)
  rw [printShadowRootLine, Option.bind_some, map_string_pieces htext, hinj.eq_iff,
    pieces_lineSize, find?_flatMap_cut startsRoot_take]
  change ((impostor text).map _).or ((rootLine text).map _) = rootLine text ↔ _
  cases himpostor : impostor text with
  | none =>
      cases hroot : rootLine text with
      | none => simp
      | some line => simp [List.take_eq_self_iff]
  | some rest =>
      constructor
      · intro h
        have hroot : rootLine text = some (rest.take pieceSize) := h.symm
        rw [hroot]
        refine ⟨fun r hr => ?_, fun line hline => ?_⟩
        · rw [Option.mem_some_iff.mp hr]
        · rw [← Option.mem_some_iff.mp hline]
          exact List.length_take_le pieceSize rest
      · intro h
        exact (h.1 rest rfl).symm

end Shadow

/-- When the two scans by pieces are scans by lines. -/
theorem line_scans_iff {text : List UInt8} (htext : 0 ∉ text) :
    (checkOpensslCiphers (some text) = some (.summary (summary (lines text))) ↔
      (∀ l ∈ lines text, l.length ≤ pieceSize) ∧ (lines text).length ≤ intMax) ∧
    (printShadowRootLine (some text) = (rootLine text).map (rootEntry ++ ·) ↔
      (∀ rest ∈ impostor text, rootLine text = some (rest.take pieceSize)) ∧
        ∀ line ∈ rootLine text, line.length ≤ pieceSize) :=
  ⟨checkOpensslCiphers_iff htext, printShadowRootLine_iff htext⟩

theorem line_scans_short :
    printShadowRootLine (some (bytes "bin:*\nroot:x\n")) = some (bytes "root entry: root:x\n") :=
  (@line_scans_iff (bytes "bin:*\nroot:x\n") (by decide)).2.mpr ⟨by decide, by decide⟩

/-- A single line whose end behind the cut looks like an entry. -/
def longLine : List UInt8 := List.replicate pieceSize 120 ++ bytes "root:"

theorem longLine_spec : 0 ∉ longLine ∧ lines longLine = [longLine] ∧ rootLine longLine = none ∧
    impostor longLine = some (bytes "root:") := by
  decide +kernel

/-- Two ciphers are counted, and an entry is printed that is none. -/
theorem line_scans_fail : 0 ∉ longLine ∧
    checkOpensslCiphers (some longLine) ≠ some (.summary (summary (lines longLine))) ∧
    printShadowRootLine (some longLine) ≠ (rootLine longLine).map (rootEntry ++ ·) := by
  obtain ⟨hzero, hlines, hroot, himpostor⟩ := longLine_spec
  refine ⟨hzero, ?_, ?_⟩
  · intro h
    have hshort := ((checkOpensslCiphers_iff hzero).mp h).1 longLine
    rw [hlines] at hshort
    exact absurd (hshort List.mem_cons_self) (by decide +kernel)
  · intro h
    have hfirst := ((printShadowRootLine_iff hzero).mp h).1 (bytes "root:") himpostor
    rw [hroot] at hfirst
    cases hfirst

end MicrokernelBenchmark.LineScans
