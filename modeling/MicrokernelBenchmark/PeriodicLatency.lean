import MicrokernelBenchmark.Timespec
import MicrokernelBenchmark.TransitionSystem

/-!
# The three periodic latency loops

`rt_thread` of `deterministic_latency` (its branch without QNX timers), the loop
of `max_latency_scheduling` and `measure_once` of `measure_jitter` sleep until
absolute deadlines one period apart and keep the worst distance of a wake-up
from its deadline. They advance the deadline by three different carry rules, at
two different places, and take the distance in signed and in unsigned words.

A `Wake` is what one iteration gets from outside: how the sleep returns and the
clock after it. The ideal loop counts in nanoseconds; each loop is shown to be
equal to it, deadlines included.
-/
namespace MicrokernelBenchmark.PeriodicLatency
open FixedWidth TransitionSystem

def periodNs : ℤ := 1000000

structure Wake where
  outcome : Outcome
  now : Timespec
deriving DecidableEq, Repr

/-- The result of a loop and the deadlines it has slept until. -/
structure Trace where
  worst : ℤ
  deadlines : List Timespec
deriving DecidableEq, Repr

def Trace.after (deadline : Timespec) (t : Trace) : Trace := ⟨t.worst, deadline :: t.deadlines⟩

def llabs (x : ℤ) : ℤ := if x < 0 then long (-x) else x

/-- The result of `clock_nanosleep` is ignored. -/
def rtThreadLoop (next : Timespec) (maxLatency : ℤ) : List Wake → Trace
  | [] => ⟨maxLatency, []⟩
  | w :: ws =>
      let nsec := long (next.tvNsec + periodNs)
      let next :=
        if nsecPerSec ≤ nsec then
          ⟨long (next.tvSec + nsec.tdiv nsecPerSec), nsec.tmod nsecPerSec⟩
        else ⟨next.tvSec, nsec⟩
      let dsec := long (w.now.tvSec - next.tvSec)
      let dnsec := long (w.now.tvNsec - next.tvNsec)
      let latency := llabs (long (long (dsec * nsecPerSec) + dnsec))
      (rtThreadLoop next (if maxLatency < latency then latency else maxLatency) ws).after next

def rtThread (start : Timespec) (wakes : List Wake) : Trace := rtThreadLoop start 0 wakes

/-- A failing `clock_nanosleep` is reported and the iteration goes on. -/
def maxLatencyLoop (next : Timespec) (maxLatency : ℤ) : List Wake → Trace
  | [] => ⟨maxLatency, []⟩
  | w :: ws =>
      let latency := timespecDiffNs w.now next
      let latency := if latency < 0 then long (-latency) else latency
      (maxLatencyLoop (timespecAdd next periodNs)
        (if maxLatency < latency then latency else maxLatency) ws).after next

def maxLatencyScheduling (start : Timespec) (wakes : List Wake) : Trace :=
  maxLatencyLoop (timespecAdd start periodNs) 0 wakes

def tsNs (t : Timespec) : ℤ := ulong (ulong (ulong t.tvSec * nsecPerSec) + ulong t.tvNsec)

/-- A failing `clock_nanosleep` breaks out of the loop. -/
def measureOnceLoop (expected : Timespec) (maxJ : ℤ) : List Wake → Trace
  | [] => ⟨maxJ, []⟩
  | w :: ws =>
      let nsec := long (expected.tvNsec + periodNs)
      let expected :=
        if nsecPerSec ≤ nsec then ⟨long (expected.tvSec + 1), long (nsec - nsecPerSec)⟩
        else ⟨expected.tvSec, nsec⟩
      match w.outcome with
      | .failure => ⟨maxJ, [expected]⟩
      | .success =>
          let a := tsNs w.now
          let b := tsNs expected
          let diff := if b < a then ulong (a - b) else ulong (b - a)
          (measureOnceLoop expected (if maxJ < diff then diff else maxJ) ws).after expected

def measureOnce (start : Timespec) (wakes : List Wake) : Trace := measureOnceLoop start 0 wakes

/-- The loop in exact nanoseconds; `last` is the previous deadline. -/
def idealLoop (last worst : ℤ) : List Wake → Trace
  | [] => ⟨worst, []⟩
  | w :: ws =>
      (idealLoop (last + periodNs) (max worst |w.now.instant - (last + periodNs)|) ws).after
        (.ofInstant (last + periodNs))

/-- The `i`-th deadline after `start`; no wake-up enters it. -/
def deadline (start : Timespec) (i : ℕ) : Timespec := .ofInstant (start.instant + i * periodNs)

/-- The sleep until an instant does not fail, and neither the reading after it
nor its distance from that instant overflows. -/
@[mk_iff]
structure Wake.Regular (due : ℤ) (w : Wake) : Prop where
  succeeds : w.outcome = .success
  normalised : w.now.Normalised
  nonneg : 0 ≤ w.now.instant
  lt : w.now.instant < 2 ^ 64
  near : |w.now.instant - due| < 2 ^ 63

instance (due : ℤ) (w : Wake) : Decidable (w.Regular due) :=
  decidable_of_iff _ (Wake.regular_iff due w).symm

/-- The start and the wake-ups of a run in which no nanosecond value overflows. -/
structure Schedule (start : Timespec) (wakes : List Wake) : Prop where
  normalised : start.Normalised
  nonneg : 0 ≤ start.tvSec
  lt : start.instant + wakes.length * periodNs < 2 ^ 64
  regular : ∀ i, ∀ h : i < wakes.length,
    (wakes.get ⟨i, h⟩).Regular (deadline start (i + 1)).instant

section Words
variable {t : Timespec} {a b x : ℤ}

theorem llabs_long (h : |x| < 2 ^ 63) : llabs (long x) = |x| := by
  have hbounds := abs_lt.mp h
  rw [long_of_fits ⟨by omega, hbounds.2⟩]
  unfold llabs
  split_ifs with hneg
  · rw [long_of_fits ⟨by omega, by omega⟩, abs_of_neg hneg]
  · rw [abs_of_nonneg (not_lt.mp hneg)]

/-- The ordered difference of unsigned words does not wrap. -/
theorem ulong_sub_eq_abs (ha : 0 ≤ a ∧ a < 2 ^ 64) (hb : 0 ≤ b ∧ b < 2 ^ 64) :
    (if b < a then ulong (a - b) else ulong (b - a)) = |a - b| := by
  split_ifs with hlt
  · rw [ulong_of_nonneg (by omega) (by omega), abs_of_pos (by omega)]
  · rw [ulong_of_nonneg (by omega) (by omega), abs_of_nonpos (by omega), neg_sub]

theorem tsNs_eq (hnonneg : 0 ≤ t.instant) (hlt : t.instant < 2 ^ 64) : tsNs t = t.instant := by
  have hword : tsNs t = ulong t.instant := by
    unfold tsNs Timespec.instant
    rw [ulong_ulong_mul, ulong_ulong_add, ulong_add_ulong]
  rw [hword, ulong_of_nonneg hnonneg hlt]

end Words

section Steps
variable {t : Timespec} {w : Wake} {ws : List Wake}

theorem Schedule.instant_nonneg (h : Schedule t ws) : 0 ≤ t.instant := by
  have hnorm := h.normalised
  have hsec := h.nonneg
  unfold Timespec.Normalised nsecPerSec at hnorm
  unfold Timespec.instant nsecPerSec
  omega

theorem Schedule.instant_lt (h : Schedule t ws) : t.instant < 2 ^ 64 := by
  have hlt := h.lt
  unfold periodNs at hlt
  omega

theorem Schedule.timespecAdd (h : Schedule t ws) :
    timespecAdd t periodNs = .ofInstant (t.instant + periodNs) := by
  have hnorm := h.normalised
  have hlt := h.instant_lt
  unfold Timespec.Normalised nsecPerSec at hnorm
  have hadd := timespecAdd_spec h.normalised h.nonneg periodNs (by decide)
    (by unfold periodNs; omega) (by unfold periodNs nsecPerSec; omega)
  rw [hadd.1.eq_ofInstant, hadd.2]

/-- Below two seconds a single carry is the division. -/
theorem Schedule.single_carry (h : Schedule t ws) :
    (if nsecPerSec ≤ long (t.tvNsec + periodNs) then
        (⟨long (t.tvSec + 1), long (long (t.tvNsec + periodNs) - nsecPerSec)⟩ : Timespec)
      else ⟨t.tvSec, long (t.tvNsec + periodNs)⟩) = .ofInstant (t.instant + periodNs) := by
  rw [← h.timespecAdd]
  have hnorm := h.normalised
  have hlt := h.instant_lt
  have hsec := h.nonneg
  unfold Timespec.Normalised nsecPerSec at hnorm
  unfold Timespec.instant nsecPerSec at hlt
  have hsum : long (t.tvNsec + periodNs) = t.tvNsec + periodNs :=
    long_of_fits ⟨by unfold periodNs; omega, by unfold periodNs; omega⟩
  unfold MicrokernelBenchmark.timespecAdd
  simp only [hsum]
  unfold periodNs nsecPerSec
  split_ifs with hcarry
  · have hquot : (t.tvNsec + 1000000).tdiv 1000000000 = 1 := by
      rw [Int.tdiv_eq_ediv_of_nonneg (by omega)]
      omega
    have hrem : (t.tvNsec + 1000000).tmod 1000000000 = t.tvNsec + 1000000 - 1000000000 := by
      rw [Int.tmod_eq_emod_of_nonneg (by omega)]
      omega
    rw [hquot, hrem, long_of_fits (x := t.tvNsec + 1000000 - 1000000000)
      ⟨by omega, by omega⟩]
  · rfl

theorem Schedule.head (h : Schedule t (w :: ws)) : w.Regular (t.instant + periodNs) := by
  have hregular := h.regular 0 (Nat.succ_pos _)
  simpa [deadline] using hregular

theorem Schedule.tail (h : Schedule t (w :: ws)) :
    Schedule (.ofInstant (t.instant + periodNs)) ws where
  normalised := Timespec.normalised_ofInstant _
  nonneg := by
    have hpos := h.instant_nonneg
    unfold Timespec.ofInstant nsecPerSec periodNs
    dsimp only
    omega
  lt := by
    have hlt := h.lt
    rw [List.length_cons, Nat.cast_succ] at hlt
    rw [Timespec.instant_ofInstant]
    unfold periodNs at *
    omega
  regular := by
    intro i hi
    have hregular := h.regular (i + 1) (Nat.succ_lt_succ hi)
    have hdue : (deadline t (i + 1 + 1)).instant =
        (deadline (.ofInstant (t.instant + periodNs)) (i + 1)).instant := by
      simp only [deadline, Timespec.instant_ofInstant]
      push_cast
      ring
    rw [hdue] at hregular
    exact hregular

/-- The signed distance is exact, however its words wrap on the way. -/
theorem Schedule.signed_distance (h : Schedule t (w :: ws)) :
    llabs (timespecDiffNs w.now (MicrokernelBenchmark.timespecAdd t periodNs)) =
      |w.now.instant - (t.instant + periodNs)| := by
  rw [h.timespecAdd, timespecDiffNs_eq, Timespec.instant_ofInstant, llabs_long h.head.near]

/-- The unsigned distance of the two conversions. -/
theorem Schedule.unsigned_distance (h : Schedule t (w :: ws)) :
    (if tsNs (.ofInstant (t.instant + periodNs)) < tsNs w.now then
        ulong (tsNs w.now - tsNs (.ofInstant (t.instant + periodNs)))
      else ulong (tsNs (.ofInstant (t.instant + periodNs)) - tsNs w.now)) =
      |w.now.instant - (t.instant + periodNs)| := by
  have hw := h.head
  have hpos := h.tail.instant_nonneg
  have hlt := h.tail.instant_lt
  rw [tsNs_eq hw.nonneg hw.lt, tsNs_eq hpos hlt]
  rw [Timespec.instant_ofInstant] at hpos hlt ⊢
  exact ulong_sub_eq_abs ⟨hw.nonneg, hw.lt⟩ ⟨hpos, hlt⟩

end Steps

section Loops
variable {t : Timespec} {ws : List Wake}

/-- Written out or through the two helpers, and with the advance before or after
the sleep, the signed loops are the same, even where words wrap. -/
theorem rtThreadLoop_eq (t : Timespec) (worst : ℤ) (ws : List Wake) :
    rtThreadLoop t worst ws = maxLatencyLoop (timespecAdd t periodNs) worst ws := by
  induction ws generalizing t worst with
  | nil => rfl
  | cons w ws ih =>
      rw [rtThreadLoop, maxLatencyLoop, ih]
      rfl

/-- The deadline is already advanced when this loop is entered. -/
theorem maxLatencyLoop_eq (h : Schedule t ws) (worst : ℤ) :
    maxLatencyLoop (timespecAdd t periodNs) worst ws = idealLoop t.instant worst ws := by
  induction ws generalizing t worst with
  | nil => rfl
  | cons w ws ih =>
      have hstep : maxLatencyLoop (timespecAdd t periodNs) worst (w :: ws) =
          (maxLatencyLoop (timespecAdd (timespecAdd t periodNs) periodNs)
            (if worst < llabs (timespecDiffNs w.now (timespecAdd t periodNs)) then
              llabs (timespecDiffNs w.now (timespecAdd t periodNs)) else worst) ws).after
            (timespecAdd t periodNs) := rfl
      rw [hstep, h.signed_distance, ← max_def_lt, h.timespecAdd, ih h.tail,
        Timespec.instant_ofInstant]
      rfl

theorem measureOnceLoop_eq (h : Schedule t ws) (worst : ℤ) :
    measureOnceLoop t worst ws = idealLoop t.instant worst ws := by
  induction ws generalizing t worst with
  | nil => rfl
  | cons w ws ih =>
      rw [measureOnceLoop, h.head.succeeds, h.single_carry]
      dsimp only
      rw [h.unsigned_distance, ← max_def_lt, ih h.tail, Timespec.instant_ofInstant]
      rfl

theorem idealLoop_deadlines (last worst : ℤ) (ws : List Wake) :
    (idealLoop last worst ws).deadlines =
      (List.range ws.length).map fun i : ℕ => .ofInstant (last + (i + 1 : ℕ) * periodNs) := by
  induction ws generalizing last worst with
  | nil => rfl
  | cons w ws ih =>
      rw [List.length_cons, List.range_succ_eq_map, List.map_cons, List.map_map]
      have hcons : (idealLoop last worst (w :: ws)).deadlines =
          .ofInstant (last + periodNs) :: (idealLoop (last + periodNs)
            (max worst |w.now.instant - (last + periodNs)|) ws).deadlines := rfl
      rw [hcons, ih, Nat.cast_one, one_mul]
      congr 1
      apply List.map_congr_left
      intro i _
      simp only [Function.comp_apply]
      congr 1
      push_cast
      ring

/-- The distance of the `i`-th wake-up, from 0, from its deadline. -/
def distance (last : ℤ) (ws : List Wake) (i : ℕ) (h : i < ws.length) : ℤ :=
  |(ws.get ⟨i, h⟩).now.instant - (last + (i + 1 : ℕ) * periodNs)|

theorem idealLoop_worst (last worst : ℤ) (ws : List Wake) :
    IsGreatest {x | x = worst ∨ ∃ i, ∃ h : i < ws.length, x = distance last ws i h}
      (idealLoop last worst ws).worst := by
  induction ws generalizing last worst with
  | nil =>
      constructor
      · exact Or.inl rfl
      · rintro x (rfl | ⟨i, hi, -⟩)
        · exact le_refl _
        · exact absurd hi (Nat.not_lt_zero i)
  | cons w ws ih =>
      have hshift : ∀ i, ∀ h : i < ws.length, distance (last + periodNs) ws i h =
          distance last (w :: ws) (i + 1) (Nat.succ_lt_succ h) := by
        intro i h
        unfold distance
        push_cast
        congr 1
        simp only [List.get_eq_getElem, List.getElem_cons_succ]
        ring
      have hfirst : |w.now.instant - (last + periodNs)| =
          distance last (w :: ws) 0 (Nat.succ_pos _) := by
        simp [distance]
      have hrest := ih (last + periodNs) (max worst |w.now.instant - (last + periodNs)|)
      have hcons : (idealLoop last worst (w :: ws)).worst = (idealLoop (last + periodNs)
          (max worst |w.now.instant - (last + periodNs)|) ws).worst := rfl
      rw [hcons]
      constructor
      · rcases hrest.1 with hmax | ⟨i, hi, heq⟩
        · rcases max_choice worst |w.now.instant - (last + periodNs)| with h | h
          · exact Or.inl (hmax.trans h)
          · exact Or.inr ⟨0, Nat.succ_pos _, by rw [hmax, h, hfirst]⟩
        · exact Or.inr ⟨i + 1, Nat.succ_lt_succ hi, by rw [heq, hshift]⟩
      · have hmax := hrest.2 (Or.inl rfl)
        rintro x (rfl | ⟨i, hi, rfl⟩)
        · exact (le_max_left _ _).trans hmax
        · cases i with
          | zero => exact hfirst ▸ (le_max_right _ _).trans hmax
          | succ i =>
              exact hrest.2 (Or.inr ⟨i, Nat.lt_of_succ_lt_succ hi, (hshift i _).symm⟩)

end Loops

section Agreement
variable {start : Timespec} {wakes : List Wake}

theorem rtThread_eq (start : Timespec) (wakes : List Wake) :
    rtThread start wakes = maxLatencyScheduling start wakes := rtThreadLoop_eq start 0 wakes

theorem maxLatencyScheduling_eq (h : Schedule start wakes) :
    maxLatencyScheduling start wakes = idealLoop start.instant 0 wakes := maxLatencyLoop_eq h 0

theorem measureOnce_eq (h : Schedule start wakes) :
    measureOnce start wakes = idealLoop start.instant 0 wakes := measureOnceLoop_eq h 0

/-- The three loops sleep until the same deadlines, which the wake-ups do not
move, and return the same worst distance. -/
theorem loops_agree (h : Schedule start wakes) :
    rtThread start wakes = maxLatencyScheduling start wakes ∧
    measureOnce start wakes = maxLatencyScheduling start wakes ∧
    (maxLatencyScheduling start wakes).deadlines =
      (List.range wakes.length).map (fun i => deadline start (i + 1)) ∧
    (∀ i, (deadline start i).Normalised ∧
      (deadline start i).instant = start.instant + i * periodNs) ∧
    IsGreatest {x | x = 0 ∨ ∃ i, ∃ hi : i < wakes.length,
        x = |(wakes.get ⟨i, hi⟩).now.instant - (deadline start (i + 1)).instant|}
      (maxLatencyScheduling start wakes).worst := by
  have hdeadline : ∀ i, (deadline start i).Normalised ∧
      (deadline start i).instant = start.instant + i * periodNs := by
    intro i
    exact ⟨Timespec.normalised_ofInstant _, Timespec.instant_ofInstant _⟩
  have hworst := idealLoop_worst start.instant 0 wakes
  rw [rtThread_eq, measureOnce_eq h, maxLatencyScheduling_eq h]
  refine ⟨rfl, rfl, idealLoop_deadlines _ _ _, hdeadline, ?_⟩
  simpa only [distance, (hdeadline _).2] using hworst

/-- Half a period before a second: an early wake-up, a late one and one again early. -/
theorem loops_agree_across_second :
    let start : Timespec := ⟨5, 998500000⟩
    let wakes : List Wake :=
      [⟨.success, ⟨5, 999400000⟩⟩, ⟨.success, ⟨6, 700000⟩⟩, ⟨.success, ⟨6, 1400000⟩⟩]
    rtThread start wakes = maxLatencyScheduling start wakes ∧
    measureOnce start wakes = maxLatencyScheduling start wakes ∧
    maxLatencyScheduling start wakes =
      ⟨200000, [⟨5, 999500000⟩, ⟨6, 500000⟩, ⟨6, 1500000⟩]⟩ := by
  intro start wakes
  have hschedule : Schedule start wakes :=
    ⟨by decide, by decide, by decide, by decide⟩
  have hagree := loops_agree hschedule
  exact ⟨hagree.1, hagree.2.1, by decide⟩

end Agreement

end MicrokernelBenchmark.PeriodicLatency
