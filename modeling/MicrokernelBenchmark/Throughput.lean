import MicrokernelBenchmark.Mean
import Mathlib.Algebra.BigOperators.Ring.List
import Mathlib.Algebra.Order.Field.Rat
import Mathlib.Algebra.Order.Ring.NNRat
import Mathlib.Tactic.NormNum

/-!
# Averages of the throughput tests

The loops of `test_network_download_throughput` and `test_https_upload_throughput`
over their ten runs and the averages behind them, with exact arithmetic in place
of doubles. A run whose `popen` or `fgets` fails adds nothing, yet the sums are
divided by a literal: by the number of all runs after a download, and by twice
that number after the uploads.
-/
namespace MicrokernelBenchmark.Throughput
open Mean

inductive Run (α : Type*) where
  | popenFailed
  | fgetsFailed
  | sample (a : α)
deriving DecidableEq, Repr

/-- What a loop of ten runs does, where `body` is what it does with a sample. -/
def eachRun {α σ : Type*} (runs : ℕ → Run α) (body : σ → ℕ → α → σ) (s : σ) : σ :=
  (List.range 10).foldl (fun s i =>
    match runs i with
    | .popenFailed => s
    | .fgetsFailed => s
    | .sample a => body s i a) s

structure Download where
  time : ℚ≥0
  size : ℚ≥0
  speed : ℚ≥0
deriving DecidableEq

/-- The printed line of a run, with its size in MB and its speed in MB/s. -/
structure DownloadLine where
  run : ℕ
  size : ℚ≥0
  time : ℚ≥0
  speed : ℚ≥0
deriving DecidableEq

structure DownloadTotals where
  lines : List DownloadLine := []
  time : ℚ≥0 := 0
  speed : ℚ≥0 := 0

def megabytes (x : ℚ≥0) : ℚ≥0 := x / (1024 * 1024)

def downloadRun (t : DownloadTotals) (i : ℕ) (d : Download) : DownloadTotals where
  lines := t.lines ++ [⟨i + 1, megabytes d.size, d.time, megabytes d.speed⟩]
  time := t.time + d.time
  speed := t.speed + d.speed

structure DownloadAverage where
  time : ℚ≥0
  speed : ℚ≥0
deriving DecidableEq

def DownloadTotals.average (t : DownloadTotals) : DownloadAverage where
  time := t.time / 10
  speed := megabytes (t.speed / 10)

structure DownloadReport where
  http : DownloadAverage
  https : DownloadAverage
deriving DecidableEq

def testNetworkDownloadThroughput (http https : ℕ → Run Download) : DownloadReport where
  http := (eachRun http downloadRun {}).average
  https := (eachRun https downloadRun {}).average

structure UploadTotals where
  lines : List (ℕ × ℚ≥0) := []
  time : ℚ≥0 := 0

def uploadRun (t : UploadTotals) (i : ℕ) (time : ℚ≥0) : UploadTotals where
  lines := t.lines ++ [(i + 1, time)]
  time := t.time + time

structure UploadReport where
  avgTime : ℚ≥0
  avgBitrate : ℚ≥0
deriving DecidableEq

/-- From the loop of the uploads on. A quotient by zero, an infinity in C, is zero here. -/
def testHttpsUploadThroughput (runs : ℕ → Run ℚ≥0) : UploadReport :=
  let avgTime := (eachRun runs uploadRun {}).time / 20
  ⟨avgTime, 10 * 8 / avgTime⟩

section Samples
variable {α σ : Type*} {runs : ℕ → Run α}

def Run.value? : Run α → Option α
  | .sample a => some a
  | _ => none

def samples (runs : ℕ → Run α) : List α := (List.range 10).filterMap fun i => (runs i).value?

theorem length_samples : (samples runs).length = 10 ↔ ∀ i < 10, ∃ a, runs i = .sample a := by
  have hall := @List.filterMap_length_eq_length _ _ (fun i => (runs i).value?) (List.range 10)
  rw [List.length_range] at hall
  rw [samples, hall]
  apply forall_congr'
  intro i
  rw [List.mem_range]
  cases hrun : runs i <;> simp [Run.value?]

/-- What every sample adds to a total, the loop adds up. -/
theorem eachRun_total {body : σ → ℕ → α → σ} (total : σ → ℚ≥0) (value : α → ℚ≥0)
    (hbody : ∀ s i a, total (body s i a) = total s + value a) (s : σ) :
    total (eachRun runs body s) = total s + ((samples runs).map value).sum := by
  rw [eachRun, samples]
  induction List.range 10 generalizing s with
  | nil => simp
  | cons i is ih =>
      rw [List.foldl_cons, ih, List.filterMap_cons]
      cases hrun : runs i with
      | popenFailed => rfl
      | fgetsFailed => rfl
      | sample a =>
          dsimp only [Run.value?]
          rw [hbody, List.map_cons, List.sum_cons, add_assoc]

end Samples

/-- A printed average is the mean of the samples, between the least and the greatest. -/
def Averages {α : Type*} (as : List α) (value : α → ℚ≥0) (printed : ℚ≥0) : Prop :=
  printed = mean (as.map value) ∧ (∃ a ∈ as, value a ≤ printed) ∧ ∃ a ∈ as, printed ≤ value a

/-- What the averages of a download loop ought to be. -/
def DownloadMeans (runs : ℕ → Run Download) (printed : DownloadAverage) : Prop :=
  samples runs ≠ [] → Averages (samples runs) Download.time printed.time ∧
    Averages (samples runs) (fun d => megabytes d.speed) printed.speed

/-- What the averages of the uploads ought to be. -/
def UploadMeans (runs : ℕ → Run ℚ≥0) (printed : UploadReport) : Prop :=
  samples runs ≠ [] → Averages (samples runs) id printed.avgTime ∧
    ((∃ t ∈ samples runs, 0 < t) →
      mean (samples runs) ≠ 0 ∧ printed.avgBitrate = 80 / mean (samples runs))

section Averages
variable {α : Type*} {as : List α}

theorem averages_iff (value : α → ℚ≥0) (has : as ≠ []) {d : ℕ} (hd : d ≠ 0) :
    Averages as value ((as.map value).sum / d) ↔
      as.length = d ∨ ∀ a ∈ as, value a = 0 := by
  have hvalues : as.map value ≠ [] := List.map_eq_nil_iff.not.mpr has
  have hmean := sum_div_eq_mean_iff hvalues hd
  have hzero : (as.map value).sum = 0 ↔ ∀ a ∈ as, value a = 0 := by
    rw [List.sum_eq_zero_iff, List.forall_mem_map]
  rw [List.length_map, hzero] at hmean
  rw [← hmean]
  constructor
  · exact fun h => h.1
  · intro h
    obtain ⟨x, hx, hlo⟩ := exists_le_mean hvalues
    obtain ⟨y, hy, hhi⟩ := exists_mean_le hvalues
    obtain ⟨a, ha, rfl⟩ := List.mem_map.mp hx
    obtain ⟨b, hb, rfl⟩ := List.mem_map.mp hy
    rw [← h] at hlo hhi
    exact ⟨h, ⟨a, ha, hlo⟩, b, hb, hhi⟩

theorem sum_megabytes (as : List α) (value : α → ℚ≥0) :
    (as.map fun a => megabytes (value a)).sum = megabytes (as.map value).sum := by
  unfold megabytes
  simp only [div_eq_mul_inv, List.sum_map_mul_right]

theorem megabytes_eq_zero {x : ℚ≥0} : megabytes x = 0 ↔ x = 0 := by
  rw [megabytes, div_eq_zero_iff]
  norm_num

end Averages


/-- The averages of a download loop are right when no run is missing, or when there is
nothing to average but zeros. -/
theorem download_means_iff (runs : ℕ → Run Download) :
    DownloadMeans runs (eachRun runs downloadRun {}).average ↔
      (∀ i < 10, ∃ d, runs i = .sample d) ∨ ∀ d ∈ samples runs, d.time = 0 ∧ d.speed = 0 := by
  have htime : (eachRun runs downloadRun {}).time = ((samples runs).map Download.time).sum :=
    (eachRun_total DownloadTotals.time Download.time (fun _ _ _ => rfl) {}).trans (zero_add _)
  have hspeed : (eachRun runs downloadRun {}).speed = ((samples runs).map Download.speed).sum :=
    (eachRun_total DownloadTotals.speed Download.speed (fun _ _ _ => rfl) {}).trans (zero_add _)
  have hprinted : megabytes (((samples runs).map Download.speed).sum / 10) =
      ((samples runs).map fun d => megabytes d.speed).sum / (10 : ℕ) := by
    rw [sum_megabytes, megabytes, megabytes, div_right_comm]
    rfl
  rw [DownloadMeans, DownloadTotals.average, htime, hspeed, hprinted]
  by_cases hnone : samples runs = []
  · simp [hnone]
  · have htimes := averages_iff Download.time hnone (d := 10) (by decide)
    have hspeeds := averages_iff (fun d => megabytes d.speed) hnone (d := 10) (by decide)
    simp only [megabytes_eq_zero] at hspeeds
    rw [Nat.cast_ofNat] at htimes
    rw [htimes, hspeeds, length_samples, ← or_and_left, forall₂_and]
    exact forall_prop_of_true hnone

/-- Half of every mean is printed, unless the mean is zero. -/
theorem upload_means_iff (runs : ℕ → Run ℚ≥0) :
    UploadMeans runs (testHttpsUploadThroughput runs) ↔ ∀ t ∈ samples runs, t = 0 := by
  have htime : (eachRun runs uploadRun {}).time = ((samples runs).map id).sum :=
    (eachRun_total UploadTotals.time id (fun _ _ _ => rfl) {}).trans (zero_add _)
  have hlength : (samples runs).length ≤ 10 := by
    rw [samples]
    exact (List.length_filterMap_le ..).trans_eq List.length_range
  rw [UploadMeans, testHttpsUploadThroughput, htime]
  by_cases hnone : samples runs = []
  · simp [hnone]
  · have htimes := averages_iff id hnone (d := 20) (by decide)
    rw [Nat.cast_ofNat] at htimes
    dsimp only
    rw [htimes]
    constructor
    · intro h
      exact (h hnone).1.resolve_left (by omega)
    · intro h _
      refine ⟨.inr h, ?_⟩
      rintro ⟨t, ht, hpos⟩
      exact absurd (h t ht) hpos.ne'

/-- When the printed averages of the two tests are the means of their samples. -/
theorem throughput_means_iff (http https : ℕ → Run Download) (uploads : ℕ → Run ℚ≥0) :
    (DownloadMeans http (testNetworkDownloadThroughput http https).http ∧
      DownloadMeans https (testNetworkDownloadThroughput http https).https ∧
      UploadMeans uploads (testHttpsUploadThroughput uploads)) ↔
    ((∀ i < 10, ∃ d, http i = .sample d) ∨ ∀ d ∈ samples http, d.time = 0 ∧ d.speed = 0) ∧
    ((∀ i < 10, ∃ d, https i = .sample d) ∨ ∀ d ∈ samples https, d.time = 0 ∧ d.speed = 0) ∧
    ∀ t ∈ samples uploads, t = 0 := by
  rw [← download_means_iff, ← download_means_iff, ← upload_means_iff]
  rfl

/-- A single run which has no sample, and uploads of one second each. -/
theorem throughput_means_fail :
    ¬ DownloadMeans (fun i => if i = 0 then .popenFailed else .sample ⟨1, 1048576, 1048576⟩)
      (testNetworkDownloadThroughput
        (fun i => if i = 0 then .popenFailed else .sample ⟨1, 1048576, 1048576⟩)
        (fun _ => .sample ⟨1, 1048576, 1048576⟩)).http ∧
    ¬ UploadMeans (fun _ => .sample 1) (testHttpsUploadThroughput fun _ => .sample 1) := by
  constructor
  · intro h
    rcases (download_means_iff _).mp h with h | h
    · obtain ⟨d, hd⟩ := h 0 (by decide)
      cases hd
    · have hmem := h ⟨1, 1048576, 1048576⟩ (List.mem_filterMap.mpr ⟨1, by decide, rfl⟩)
      exact one_ne_zero hmem.1
  · intro h
    have hmem := (upload_means_iff _).mp h 1 (List.mem_filterMap.mpr ⟨0, by decide, rfl⟩)
    exact one_ne_zero hmem

end MicrokernelBenchmark.Throughput
