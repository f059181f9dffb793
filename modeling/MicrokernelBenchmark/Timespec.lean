import MicrokernelBenchmark.FixedWidth
import Mathlib.Tactic.Ring

/-!
# Clock readings of the latency benchmarks

`struct timespec` with its two 64-bit fields, the helpers `timespec_add` and
`timespec_diff_ns`, and the instant in nanoseconds which a reading denotes.
Every benchmark that measures a latency does so through these.
-/
namespace MicrokernelBenchmark
open FixedWidth

structure Timespec where
  tvSec : ℤ
  tvNsec : ℤ
deriving DecidableEq, Repr

def nsecPerSec : ℤ := 1000000000

/-- The normal form of the clock calls: the nanoseconds stay below a second. -/
def Timespec.Normalised (t : Timespec) : Prop := 0 ≤ t.tvNsec ∧ t.tvNsec < nsecPerSec

instance (t : Timespec) : Decidable t.Normalised := inferInstanceAs (Decidable (_ ∧ _))

/-- The instant in nanoseconds, computed without overflow. -/
def Timespec.instant (t : Timespec) : ℤ := t.tvSec * nsecPerSec + t.tvNsec

/-- The one reading in normal form which denotes an instant. -/
def Timespec.ofInstant (x : ℤ) : Timespec := ⟨x / nsecPerSec, x % nsecPerSec⟩

theorem Timespec.normalised_ofInstant (x : ℤ) : (ofInstant x).Normalised := by
  unfold Normalised ofInstant nsecPerSec
  dsimp only
  omega

@[simp] theorem Timespec.instant_ofInstant (x : ℤ) : (ofInstant x).instant = x := by
  unfold instant ofInstant nsecPerSec
  dsimp only
  omega

theorem Timespec.Normalised.eq_ofInstant {t : Timespec} (h : t.Normalised) :
    t = ofInstant t.instant := by
  obtain ⟨sec, nsec⟩ := t
  unfold Normalised nsecPerSec at h
  unfold ofInstant instant nsecPerSec
  rw [Timespec.mk.injEq]
  dsimp only at h ⊢
  omega

/-- The division and the remainder are those of C, truncated towards zero. -/
def timespecAdd (t : Timespec) (ns : ℤ) : Timespec :=
  let nsec := long (t.tvNsec + ns)
  if nsecPerSec ≤ nsec then
    ⟨long (t.tvSec + nsec.tdiv nsecPerSec), nsec.tmod nsecPerSec⟩
  else ⟨t.tvSec, nsec⟩

def timespecDiffNs (finish start : Timespec) : ℤ :=
  long (long (long (finish.tvSec - start.tvSec) * nsecPerSec) +
    long (finish.tvNsec - start.tvNsec))

/-- Whatever wraps on the way, the result is the reduced exact difference. -/
theorem timespecDiffNs_eq (finish start : Timespec) :
    timespecDiffNs finish start = long (finish.instant - start.instant) := by
  simp only [timespecDiffNs, long_long_mul, long_long_add, long_add_long, Timespec.instant]
  congr 1
  ring

/-- Nothing that `timespecAdd t ns` computes on the way overflows. -/
def AddFits (t : Timespec) (ns : ℤ) : Prop :=
  Fits (t.tvNsec + ns) ∧ Fits (t.tvSec + (t.tvNsec + ns) / nsecPerSec)

instance (t : Timespec) (ns : ℤ) : Decidable (AddFits t ns) := inferInstanceAs (Decidable (_ ∧ _))

/-- Nothing that `timespecDiffNs finish start` computes on the way overflows. -/
structure DiffFits (finish start : Timespec) : Prop where
  sec : Fits (finish.tvSec - start.tvSec)
  secNs : Fits ((finish.tvSec - start.tvSec) * nsecPerSec)
  nsec : Fits (finish.tvNsec - start.tvNsec)
  sum : Fits ((finish.tvSec - start.tvSec) * nsecPerSec + (finish.tvNsec - start.tvNsec))

/-- The lexicographic order on the two fields. -/
def Timespec.Before (s u : Timespec) : Prop :=
  s.tvSec < u.tvSec ∨ s.tvSec = u.tvSec ∧ s.tvNsec < u.tvNsec

instance (s u : Timespec) : Decidable (s.Before u) := inferInstanceAs (Decidable (_ ∨ _))

/-- Both branches compute the reading of the later instant. -/
theorem timespecAdd_eq {t : Timespec} (ht : t.Normalised) {ns : ℤ} (hns : 0 ≤ ns)
    (hfit : AddFits t ns) : timespecAdd t ns = .ofInstant (t.instant + ns) := by
  obtain ⟨hlo, hhi⟩ := ht
  obtain ⟨hnsec, hsec⟩ := hfit
  rw [timespecAdd, long_of_fits hnsec]
  split
  case isTrue hcarry =>
    rw [Int.tdiv_eq_ediv_of_nonneg (by omega), Int.tmod_eq_emod_of_nonneg (by omega),
      long_of_fits hsec, Timespec.ofInstant, Timespec.instant, Timespec.mk.injEq]
    unfold nsecPerSec
    omega
  case isFalse hless =>
    rw [Timespec.ofInstant, Timespec.instant, Timespec.mk.injEq]
    unfold nsecPerSec at *
    omega

/-- The sum is exact as long as its two fields do not overflow. -/
theorem timespecAdd_spec {t : Timespec} (ht : t.Normalised) (hsec : 0 ≤ t.tvSec) (ns : ℤ)
    (hns : 0 ≤ ns) (hnsec : t.tvNsec + ns < 2 ^ 63)
    (hfit : t.instant + ns < 2 ^ 63 * nsecPerSec) :
    (timespecAdd t ns).Normalised ∧ (timespecAdd t ns).instant = t.instant + ns := by
  have hadd : AddFits t ns := by
    have hlo := ht.1
    unfold Timespec.instant nsecPerSec at hfit
    unfold AddFits Fits nsecPerSec
    omega
  rw [timespecAdd_eq ht hns hadd]
  exact ⟨Timespec.normalised_ofInstant _, Timespec.instant_ofInstant _⟩

theorem DiffFits.eq_sub {u s : Timespec} (h : DiffFits u s) :
    timespecDiffNs u s = u.instant - s.instant := by
  have hsum : (u.tvSec - s.tvSec) * nsecPerSec + (u.tvNsec - s.tvNsec) =
      u.instant - s.instant := by
    rw [Timespec.instant, Timespec.instant]
    ring
  have hfits := h.sum
  rw [hsum] at hfits
  rw [timespecDiffNs_eq, long_of_fits hfits]

/-- When the sum does not overflow, measuring it does not either. -/
theorem AddFits.diffFits {t : Timespec} (ht : t.Normalised) {ns : ℤ} (hns : 0 ≤ ns)
    (hfit : AddFits t ns) : DiffFits (timespecAdd t ns) t := by
  obtain ⟨hlo, hhi⟩ := ht
  have hadd := timespecAdd_eq ⟨hlo, hhi⟩ hns hfit
  obtain ⟨⟨-, hnsec⟩, -⟩ := hfit
  have hsec : (timespecAdd t ns).tvSec - t.tvSec = (t.tvNsec + ns) / nsecPerSec := by
    rw [hadd]
    unfold Timespec.ofInstant Timespec.instant nsecPerSec
    dsimp only
    omega
  have hrem : (timespecAdd t ns).tvNsec = (t.tvNsec + ns) % nsecPerSec := by
    rw [hadd]
    unfold Timespec.ofInstant Timespec.instant nsecPerSec
    dsimp only
    omega
  unfold nsecPerSec at hhi
  refine ⟨?sec, ?secNs, ?nsec, ?sum⟩
  case sec =>
    rw [hsec, Fits, nsecPerSec]
    omega
  case secNs =>
    rw [hsec, Fits, nsecPerSec]
    omega
  case nsec =>
    rw [hrem, Fits, nsecPerSec]
    omega
  case sum =>
    rw [hsec, hrem, Fits, nsecPerSec]
    omega

/-- Of two readings in normal form the lexicographically later one denotes the later
instant. -/
theorem Timespec.Normalised.before_iff {s u : Timespec} (hs : s.Normalised) (hu : u.Normalised) :
    s.Before u ↔ s.instant < u.instant := by
  obtain ⟨hslo, hshi⟩ := hs
  obtain ⟨hulo, huhi⟩ := hu
  unfold Timespec.Before Timespec.instant
  unfold nsecPerSec at *
  omega

/-- Where nothing overflows, adding spans and measuring them obey the laws of the instants. -/
theorem timespec_laws {s t u : Timespec} (hs : s.Normalised) (ht : t.Normalised)
    (hu : u.Normalised) {a b : ℤ} (ha : 0 ≤ a) (hb : 0 ≤ b) (hadd : AddFits t a) :
    (timespecAdd t a).Normalised ∧
    (DiffFits (timespecAdd t a) t ∧ timespecDiffNs (timespecAdd t a) t = a) ∧
    (AddFits (timespecAdd t a) b → AddFits t (a + b) →
      timespecAdd (timespecAdd t a) b = timespecAdd t (a + b)) ∧
    (DiffFits u s → DiffFits u t → DiffFits t s →
      timespecDiffNs u s = timespecDiffNs u t + timespecDiffNs t s) ∧
    (DiffFits u s → (0 < timespecDiffNs u s ↔ s.Before u)) := by
  have hsum := timespecAdd_eq ht ha hadd
  have hnorm : (timespecAdd t a).Normalised := by
    rw [hsum]
    exact Timespec.normalised_ofInstant _
  have hinstant : (timespecAdd t a).instant = t.instant + a := by
    rw [hsum, Timespec.instant_ofInstant]
  have hdiff := hadd.diffFits ht ha
  refine ⟨hnorm, ⟨hdiff, ?_⟩, ?_, ?_, ?_⟩
  · rw [hdiff.eq_sub, hinstant]
    ring
  · intro hstep htotal
    rw [timespecAdd_eq hnorm hb hstep, timespecAdd_eq ht (by omega) htotal, hinstant, add_assoc]
  · intro hus hut hts
    rw [hus.eq_sub, hut.eq_sub, hts.eq_sub]
    ring
  · intro hus
    rw [hus.eq_sub, hs.before_iff hu]
    omega

/-- Both additions carry here, and the difference borrows. -/
theorem timespec_laws_carry :
    timespecAdd (timespecAdd ⟨5, 900000000⟩ 2500000000) 700000000 =
      timespecAdd ⟨5, 900000000⟩ 3200000000 ∧
    (0 < timespecDiffNs ⟨7, 100000000⟩ ⟨3, 200000000⟩ ↔
      Timespec.Before ⟨3, 200000000⟩ ⟨7, 100000000⟩) :=
  have h := @timespec_laws ⟨3, 200000000⟩ ⟨5, 900000000⟩ ⟨7, 100000000⟩ (by decide) (by decide)
    (by decide) 2500000000 700000000 (by decide) (by decide) (by decide)
  ⟨h.2.2.1 (by decide) (by decide),
    h.2.2.2.2 ⟨by decide, by decide, by decide, by decide⟩⟩

end MicrokernelBenchmark
