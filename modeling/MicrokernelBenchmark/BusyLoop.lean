import MicrokernelBenchmark.Timespec

/-!
# Busy loops of the priority inversion programs

`now_ns` on unsigned words and the two loops which spin until their time is up.
The environment supplies every clock reading, so a loop can last any number of
passes; from every start some reading ends it.
-/
namespace MicrokernelBenchmark.BusyLoop
open FixedWidth

def holdNs : ℤ := 50 * 1000000
def medNs : ℤ := 200 * 1000000

def nowNs (ts : Timespec) : ℤ :=
  ulong (ulong (ulong ts.tvSec * nsecPerSec) + ts.tvNsec)

/-- The test `now_ns() - start < limit` of a busy loop. -/
def spins (limit start : ℤ) (now : Timespec) : Bool := ulong (nowNs now - start) < limit

/-- The printed wait in milliseconds; the division is that of unsigned words. -/
def waitedMs (t0 t1 : ℤ) : ℤ := ulong (t1 - t0) / 1000000

theorem nowNs_ofInstant (x : ℤ) : nowNs (.ofInstant x) = ulong x := by
  have hx : (Timespec.ofInstant x).tvSec * nsecPerSec + (Timespec.ofInstant x).tvNsec = x :=
    Timespec.instant_ofInstant x
  rw [nowNs, ulong_ulong_mul, ulong_ulong_add, hx]

/-- The clock reads the time at which the loop is over. -/
theorem exists_not_spins (start : ℤ) {limit : ℤ} (h : 0 ≤ limit) (h' : limit < 2 ^ 64) :
    ∃ now : Timespec, now.Normalised ∧ spins limit start now = false := by
  refine ⟨.ofInstant (start + limit), Timespec.normalised_ofInstant _, ?_⟩
  have hdiff : ulong (nowNs (.ofInstant (start + limit)) - start) = limit := by
    rw [nowNs_ofInstant, sub_eq_add_neg, ulong_ulong_add, add_neg_cancel_comm]
    exact ulong_of_nonneg h h'
  simp [spins, hdiff]

end MicrokernelBenchmark.BusyLoop
