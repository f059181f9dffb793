import MicrokernelBenchmark.FixedWidth
import MicrokernelBenchmark.SortedMatching
import Mathlib.Order.Bounds.Basic
import Mathlib.Data.Int.ConditionallyCompleteOrder
import Mathlib.Data.List.Range
import Mathlib.Algebra.BigOperators.Fin
import Mathlib.Algebra.Order.Group.Int

/-!
# The latency statistics of the publish and subscribe benchmarks

The loop at the end of a run pairs the i-th reception with the i-th publish,
whichever message it was. When every message is received once, in any order,
this leaves the total alone and can only narrow the range of the latencies.
The readings of the clock are `long long` values and none is negative.
-/
namespace MicrokernelBenchmark.PubSubStatistics
open FixedWidth SortedMatching

/-- `recv_times[i] - send_times[i]`. -/
def latency (sendTimes recvTimes : ℕ → ℤ) (i : ℕ) : ℤ := long (recvTimes i - sendTimes i)

structure Statistics where
  total : ℤ := 0
  min : ℤ := longMax
  max : ℤ := 0
deriving DecidableEq, Repr

def Statistics.fold (sendTimes recvTimes : ℕ → ℤ) (st : Statistics) (i : ℕ) : Statistics :=
  let d := latency sendTimes recvTimes i
  { total := long (st.total + d)
    min := if d < st.min then d else st.min
    max := if st.max < d then d else st.max }

def statistics (count : ℕ) (sendTimes recvTimes : ℕ → ℤ) : Statistics :=
  (List.range count).foldl (Statistics.fold sendTimes recvTimes) {}

section Loop
variable (sendTimes recvTimes : ℕ → ℤ)

@[simp] theorem statistics_zero : statistics 0 sendTimes recvTimes = {} := rfl

theorem statistics_succ (n : ℕ) : statistics (n + 1) sendTimes recvTimes =
    (statistics n sendTimes recvTimes).fold sendTimes recvTimes n := by
  rw [statistics, List.range_succ, List.foldl_append]
  rfl

theorem statistics_total (n : ℕ) : (statistics n sendTimes recvTimes).total =
    long (∑ i ∈ Finset.range n, latency sendTimes recvTimes i) := by
  induction n with
  | zero => rfl
  | succ n ih =>
      rw [statistics_succ, Finset.sum_range_succ, ← long_long_add, ← ih]
      rfl

theorem image_range_succ (d : ℕ → ℤ) (a : ℤ) (n : ℕ) :
    insert a (d '' Finset.range (n + 1)) = insert (d n) (insert a (d '' Finset.range n)) := by
  rw [Finset.range_add_one, Finset.coe_insert, Set.image_insert_eq, Set.insert_comm]

theorem statistics_max (n : ℕ) :
    IsGreatest (insert 0 (latency sendTimes recvTimes '' Finset.range n))
      (statistics n sendTimes recvTimes).max := by
  induction n with
  | zero => simp
  | succ n ih =>
      have hmax := ih.insert (latency sendTimes recvTimes n)
      rw [image_range_succ, statistics_succ]
      simp only [Statistics.fold]
      split_ifs with h
      · rwa [max_eq_left h.le] at hmax
      · rwa [max_eq_right (not_lt.mp h)] at hmax

theorem statistics_min (n : ℕ) :
    IsLeast (insert longMax (latency sendTimes recvTimes '' Finset.range n))
      (statistics n sendTimes recvTimes).min := by
  induction n with
  | zero => simp
  | succ n ih =>
      have hmin := ih.insert (latency sendTimes recvTimes n)
      rw [image_range_succ, statistics_succ]
      simp only [Statistics.fold]
      split_ifs with h
      · rwa [min_eq_left h.le] at hmin
      · rwa [min_eq_right (not_lt.mp h)] at hmin

end Loop

/-- A run in which each of `n` messages is received once and not before it was
sent. The message `arrival i` is received i-th. -/
structure Exchange (n : ℕ) where
  sendTimes : ℕ → ℤ
  recvTimes : ℕ → ℤ
  arrival : Equiv.Perm (Fin n)
  send_nonneg : ∀ i : Fin n, 0 ≤ sendTimes i
  recv_le : ∀ i : Fin n, recvTimes i ≤ longMax
  send_mono : Monotone fun i : Fin n => sendTimes i
  recv_mono : Monotone fun i : Fin n => recvTimes i
  causal : ∀ i : Fin n, sendTimes (arrival i) ≤ recvTimes i

section Exchange
variable {n : ℕ} (x : Exchange n)

/-- The latency of a message, from its own send to its own reception. -/
def Exchange.trueLatency (m : Fin n) : ℤ := x.recvTimes (x.arrival.symm m) - x.sendTimes m

theorem Exchange.trueLatency_arrival (i : Fin n) :
    x.trueLatency (x.arrival i) = x.recvTimes i - x.sendTimes (x.arrival i) := by
  rw [trueLatency, Equiv.symm_apply_apply]

theorem Exchange.send_le_recv (i : Fin n) : x.sendTimes i ≤ x.recvTimes i :=
  le_of_matching x.send_mono x.recv_mono x.arrival x.causal i

/-- Differences of non-negative readings do not wrap. -/
theorem Exchange.latency_eq (i : Fin n) :
    latency x.sendTimes x.recvTimes i = x.recvTimes i - x.sendTimes i := by
  have hsend := x.send_nonneg i
  have hrecv := x.recv_le i
  have hle := x.send_le_recv i
  unfold longMax at hrecv
  apply long_of_fits
  unfold Fits
  omega

theorem Exchange.latency_nonneg (i : Fin n) : 0 ≤ latency x.sendTimes x.recvTimes i := by
  rw [x.latency_eq]
  exact sub_nonneg.mpr (x.send_le_recv i)

theorem Exchange.latency_le (i : Fin n) : latency x.sendTimes x.recvTimes i ≤ longMax := by
  rw [x.latency_eq]
  have hsend := x.send_nonneg i
  have hrecv := x.recv_le i
  omega

theorem Exchange.sum_latency :
    ∑ i ∈ Finset.range n, latency x.sendTimes x.recvTimes i = ∑ m, x.trueLatency m := by
  calc ∑ i ∈ Finset.range n, latency x.sendTimes x.recvTimes i
      = ∑ i : Fin n, latency x.sendTimes x.recvTimes i := Finset.sum_range _
    _ = ∑ i : Fin n, (x.recvTimes i - x.sendTimes i) :=
        Finset.sum_congr rfl fun i _ => x.latency_eq i
    _ = ∑ i : Fin n, (x.recvTimes i - x.sendTimes (x.arrival i)) :=
        (sum_sub_matching (fun i : Fin n => x.sendTimes i) (fun i : Fin n => x.recvTimes i)
          x.arrival).symm
    _ = ∑ i : Fin n, x.trueLatency (x.arrival i) :=
        Finset.sum_congr rfl fun i _ => (x.trueLatency_arrival i).symm
    _ = ∑ m, x.trueLatency m := Equiv.sum_comp x.arrival x.trueLatency

theorem Exchange.latency_le_of_bound {M : ℤ} (h : ∀ m, x.trueLatency m ≤ M) (i : Fin n) :
    latency x.sendTimes x.recvTimes i ≤ M := by
  rw [x.latency_eq]
  apply sub_le_of_matching x.send_mono x.recv_mono x.arrival
  intro j
  rw [← x.trueLatency_arrival]
  exact h _

theorem Exchange.le_latency_of_bound {M : ℤ} (h : ∀ m, M ≤ x.trueLatency m) (i : Fin n) :
    M ≤ latency x.sendTimes x.recvTimes i := by
  rw [x.latency_eq]
  apply le_sub_of_matching x.send_mono x.recv_mono x.arrival
  intro j
  rw [← x.trueLatency_arrival]
  exact h _

/-- The printed maximum is the latency of some pair once there is a pair. -/
theorem Exchange.max_mem (hn : 0 < n) :
    (∃ i : Fin n, (statistics n x.sendTimes x.recvTimes).max =
      latency x.sendTimes x.recvTimes i) ∧
    ∀ i : Fin n, latency x.sendTimes x.recvTimes i ≤
      (statistics n x.sendTimes x.recvTimes).max := by
  have hmax := statistics_max x.sendTimes x.recvTimes n
  have hbound (i : Fin n) : latency x.sendTimes x.recvTimes i ≤
      (statistics n x.sendTimes x.recvTimes).max :=
    hmax.2 (.inr ⟨i, by simp, rfl⟩)
  refine ⟨?_, hbound⟩
  rcases hmax.1 with hzero | ⟨i, hi, heq⟩
  · have hfirst := x.latency_nonneg ⟨0, hn⟩
    exact ⟨⟨0, hn⟩, le_antisymm (hzero ▸ hfirst) (hbound _)⟩
  · exact ⟨⟨i, by simpa using hi⟩, heq.symm⟩

theorem Exchange.min_mem (hn : 0 < n) :
    (∃ i : Fin n, (statistics n x.sendTimes x.recvTimes).min =
      latency x.sendTimes x.recvTimes i) ∧
    ∀ i : Fin n, (statistics n x.sendTimes x.recvTimes).min ≤
      latency x.sendTimes x.recvTimes i := by
  have hmin := statistics_min x.sendTimes x.recvTimes n
  have hbound (i : Fin n) : (statistics n x.sendTimes x.recvTimes).min ≤
      latency x.sendTimes x.recvTimes i :=
    hmin.2 (.inr ⟨i, by simp, rfl⟩)
  refine ⟨?_, hbound⟩
  rcases hmin.1 with htop | ⟨i, hi, heq⟩
  · have hfirst := x.latency_le ⟨0, hn⟩
    exact ⟨⟨0, hn⟩, le_antisymm (hbound _) (htop ▸ hfirst)⟩
  · exact ⟨⟨i, by simpa using hi⟩, heq.symm⟩

/-- Whatever the order of arrival, no latency is negative, the total is that of
the true latencies in 64 bits, and the range is within theirs; it is theirs when
the messages arrive in order. -/
theorem statistics_of_exchange (hn : 0 < n) :
    (∀ i : Fin n, 0 ≤ latency x.sendTimes x.recvTimes i) ∧
    (statistics n x.sendTimes x.recvTimes).total = long (∑ m, x.trueLatency m) ∧
    (Fits (∑ m, x.trueLatency m) →
      (statistics n x.sendTimes x.recvTimes).total = ∑ m, x.trueLatency m) ∧
    (∀ M, IsGreatest (Set.range x.trueLatency) M →
      (statistics n x.sendTimes x.recvTimes).max ≤ M) ∧
    (∀ M, IsLeast (Set.range x.trueLatency) M →
      M ≤ (statistics n x.sendTimes x.recvTimes).min) ∧
    (x.arrival = Equiv.refl (Fin n) →
      IsGreatest (Set.range x.trueLatency) (statistics n x.sendTimes x.recvTimes).max ∧
      IsLeast (Set.range x.trueLatency) (statistics n x.sendTimes x.recvTimes).min) := by
  have htotal : (statistics n x.sendTimes x.recvTimes).total = long (∑ m, x.trueLatency m) := by
    rw [statistics_total, x.sum_latency]
  obtain ⟨⟨i, hi⟩, hmax⟩ := x.max_mem hn
  obtain ⟨⟨j, hj⟩, hmin⟩ := x.min_mem hn
  refine ⟨x.latency_nonneg, htotal, fun hfits => ?_, fun M hM => ?_, fun M hM => ?_, fun hid => ?_⟩
  · rw [htotal, long_of_fits hfits]
  · rw [hi]
    exact x.latency_le_of_bound (fun m => hM.2 ⟨m, rfl⟩) i
  · rw [hj]
    exact x.le_latency_of_bound (fun m => hM.2 ⟨m, rfl⟩) j
  · have heq (m : Fin n) : x.trueLatency m = latency x.sendTimes x.recvTimes m := by
      rw [x.latency_eq, Exchange.trueLatency, hid]
      rfl
    constructor
    · refine ⟨⟨i, (heq i).trans hi.symm⟩, ?_⟩
      rintro _ ⟨m, rfl⟩
      exact heq m ▸ hmax m
    · refine ⟨⟨j, (heq j).trans hj.symm⟩, ?_⟩
      rintro _ ⟨m, rfl⟩
      exact heq m ▸ hmin m

end Exchange

/-- Two messages which arrive in the wrong order. -/
def crossed : Exchange 2 where
  sendTimes i := 10 * i
  recvTimes i := 30 + 5 * i
  arrival := Equiv.swap 0 1
  send_nonneg := by decide
  recv_le := by decide
  send_mono := by decide
  recv_mono := by decide
  causal := by decide

theorem statistics_of_crossed :
    (statistics 2 crossed.sendTimes crossed.recvTimes).total = 55 ∧
    (statistics 2 crossed.sendTimes crossed.recvTimes).max = 30 ∧
    crossed.trueLatency 0 = 35 := by
  have hspec := statistics_of_exchange crossed (by decide)
  have hsum : ∑ m, crossed.trueLatency m = 55 := by decide
  refine ⟨hsum ▸ hspec.2.2.1 (by rw [hsum]; decide), by decide, by decide⟩

end MicrokernelBenchmark.PubSubStatistics
