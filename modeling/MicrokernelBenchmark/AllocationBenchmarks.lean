import MicrokernelBenchmark.Heap
import MicrokernelBenchmark.Loops
import Mathlib.Data.Finset.Image
import Mathlib.Data.Finset.Range
import Mathlib.Data.Nat.Count

/-!
# The allocation benchmarks

`fragment.c` and `malloc.c` for any number of slots. Both stop allocating at the
first call of `malloc` which fails, and both go on to slots behind it.
-/
namespace MicrokernelBenchmark.AllocationBenchmarks

/-- The first loop of both programs, `remaining` iterations from index `i` on. The second
component is the index at which it breaks off, which `malloc.c` prints. -/
def allocate (outcome : ℕ → Bool) : ℕ → ℕ → Slots → Slots × Option ℕ
  | 0, _, s => (s, none)
  | remaining + 1, i, s =>
      let (p, heap) := s.heap.malloc (outcome i)
      let s := { s with heap := heap }.store i p
      if p = none then (s, some i) else allocate outcome remaining (i + 1) s

section Fragment

def fragmentAllocs : ℕ := 1000000

/-- What `malloc` and `rand` return, call after call. -/
structure Environment where
  first : ℕ → Bool
  rand : ℕ → ℕ
  again : ℕ → Bool

def freeRandom (numAllocs : ℕ) (rand : ℕ → ℕ) (s : Slots) (i : ℕ) : Except Fault Slots :=
  let index := rand i % numAllocs
  (s.freeSlot index).map fun s => s.store index none

/-- The heap and the number of failed allocations. -/
def reallocate (again : ℕ → Bool) (passes : ℕ) (heap : Heap) : Heap × ℕ :=
  repeatBelow (fun r i =>
    let (temp, heap) := r.1.malloc (again i)
    (heap, if temp = none then r.2 + 1 else r.2)) passes (heap, 0)

/-- `fragment.c` up to the given number of passes of its last loop. -/
def fragmentUpTo (numAllocs : ℕ) (env : Environment) (passes : ℕ) :
    Except Fault (Heap × ℕ) := do
  let (s, _) := allocate env.first numAllocs 0 {}
  let s ← forBelow (freeRandom numAllocs env.rand) (numAllocs / 2) s
  pure (reallocate env.again passes s.heap)

def fragmentMain (numAllocs : ℕ) (env : Environment) : Except Fault (Heap × ℕ) :=
  fragmentUpTo numAllocs env (numAllocs / 2)

end Fragment

section Malloc

def mallocAllocs : ℕ := 10000

def mallocMain (numAllocs : ℕ) (outcome : ℕ → Bool) : Except Fault (Slots × Option ℕ) := do
  let (s, failedAt) := allocate outcome numAllocs 0 {}
  let s ← forBelow Slots.freeSlot numAllocs s
  pure (s, failedAt)

end Malloc

/-- All calls of the first loop before the one with index `i` return a block. -/
def Granted (outcome : ℕ → Bool) (i : ℕ) : Prop := ∀ j < i, outcome j = true

instance (outcome : ℕ → Bool) : DecidablePred (Granted outcome) :=
  fun i => inferInstanceAs (Decidable (∀ j < i, outcome j = true))

section Allocate
variable {outcome : ℕ → Bool} {i n : ℕ}

theorem granted_zero (outcome : ℕ → Bool) : Granted outcome 0 := by
  intro j hj
  cases hj

theorem granted_succ : Granted outcome (i + 1) ↔ Granted outcome i ∧ outcome i = true := by
  rw [Granted, Granted, Nat.forall_lt_succ_right]

theorem Granted.mono {j : ℕ} (h : Granted outcome i) (hj : j ≤ i) : Granted outcome j :=
  fun k hk => h k (Nat.lt_of_lt_of_le hk hj)

/-- The slots behind the first loop over `n` of them. -/
def allocatedSlot (outcome : ℕ → Bool) (n i : ℕ) : Slot :=
  if i < n ∧ Granted outcome i then .pointer (if outcome i then some i else none)
  else .unassigned

/-- Of `n` calls, those which return a block. -/
def allocatedBlocks (outcome : ℕ → Bool) (n : ℕ) : Finset ℕ :=
  (Finset.range n).filter fun i => Granted outcome (i + 1)

/-- What the first loop leaves after its first `n` iterations or less. -/
structure Allocated (outcome : ℕ → Bool) (n : ℕ) (s : Slots) : Prop where
  ptrs : ∀ i, s.ptrs i = allocatedSlot outcome n i
  live : s.heap.live = allocatedBlocks outcome n

theorem allocatedSlot_succ_of_ne {j : ℕ} (h : j ≠ n) :
    allocatedSlot outcome (n + 1) j = allocatedSlot outcome n j := by
  have hlt : j < n + 1 ↔ j < n := by omega
  rw [allocatedSlot, allocatedSlot]
  simp only [hlt]

theorem allocatedSlot_self (h : Granted outcome n) :
    allocatedSlot outcome (n + 1) n = .pointer (if outcome n then some n else none) :=
  if_pos ⟨Nat.lt_succ_self n, h⟩

theorem allocatedBlocks_succ : allocatedBlocks outcome (n + 1) =
    if Granted outcome (n + 1) then insert n (allocatedBlocks outcome n)
    else allocatedBlocks outcome n := by
  rw [allocatedBlocks, Finset.range_add_one, Finset.filter_insert]
  rfl

/-- Behind a failing call nothing more is allocated. -/
theorem Allocated.extend {s : Slots} (h : Allocated outcome n s) (hn : ¬ Granted outcome n)
    (k : ℕ) : Allocated outcome (n + k) s := by
  have hbehind : ∀ i, n ≤ i → ¬ Granted outcome i := fun i hi hgranted => hn (hgranted.mono hi)
  constructor
  · intro i
    rw [h.ptrs, allocatedSlot, allocatedSlot]
    congr 1
    rw [eq_iff_iff]
    constructor
    · intro hi
      exact ⟨by omega, hi.2⟩
    · intro hi
      exact ⟨Nat.lt_of_not_le fun hle => hbehind i hle hi.2, hi.2⟩
  · rw [h.live]
    ext i
    simp only [allocatedBlocks, Finset.mem_filter, Finset.mem_range]
    constructor
    · intro hi
      exact ⟨by omega, hi.2⟩
    · intro hi
      exact ⟨Nat.lt_of_not_le fun hle => hbehind (i + 1) (by omega) hi.2, hi.2⟩

/-- One iteration, which a failing call turns into the last one. -/
theorem Allocated.step {s : Slots} (h : Allocated outcome n s) (hn : Granted outcome n)
    (hnext : s.heap.next = n) :
    Allocated outcome (n + 1) ({ s with heap := (s.heap.malloc (outcome n)).2 }.store n
      (s.heap.malloc (outcome n)).1) := by
  constructor
  · intro i
    by_cases hi : i = n
    · subst hi
      rw [allocatedSlot_self hn, Slots.store_ptrs_self]
      cases houtcome : outcome i with
      | true => simp [hnext]
      | false => simp
    · rw [allocatedSlot_succ_of_ne hi, Slots.store_ptrs_of_ne hi]
      exact h.ptrs i
  · rw [allocatedBlocks_succ, Slots.store_heap, ← h.live]
    cases houtcome : outcome n with
    | true =>
        rw [if_pos (granted_succ.mpr ⟨hn, houtcome⟩)]
        simp [hnext]
    | false =>
        have hstop : ¬ Granted outcome (n + 1) := by simp [granted_succ, houtcome]
        rw [if_neg hstop]
        rfl

theorem allocate_spec (remaining : ℕ) {s : Slots} (h : Allocated outcome n s)
    (hn : Granted outcome n) (hnext : s.heap.next = n) :
    Allocated outcome (n + remaining) (allocate outcome remaining n s).1 := by
  induction remaining generalizing n s with
  | zero => exact h
  | succ remaining ih =>
      have hstep := h.step hn hnext
      rw [allocate]
      cases houtcome : outcome n with
      | true =>
          rw [houtcome] at hstep
          have hrest := ih hstep (granted_succ.mpr ⟨hn, houtcome⟩) (by simp [Slots.store, hnext])
          rw [Nat.add_right_comm, Nat.add_assoc] at hrest
          exact hrest
      | false =>
          rw [houtcome] at hstep
          have hstop : ¬ Granted outcome (n + 1) := by simp [granted_succ, houtcome]
          have hrest := hstep.extend hstop remaining
          rw [Nat.add_right_comm, Nat.add_assoc] at hrest
          exact hrest

theorem allocated_init (outcome : ℕ → Bool) : Allocated outcome 0 {} := by
  constructor
  · intro i
    simp [allocatedSlot]
  · rfl

theorem allocate_allocated (outcome : ℕ → Bool) (n : ℕ) :
    Allocated outcome n (allocate outcome n 0 {}).1 := by
  have h := allocate_spec n (allocated_init outcome) (granted_zero outcome) rfl
  rwa [Nat.zero_add] at h

end Allocate

section FreeRandom
variable {outcome : ℕ → Bool} {n i : ℕ} {gone : Finset ℕ} {s : Slots}

/-- The slots and the heap when the blocks of some slots have been freed, each of these
slots being null. -/
structure Freed (outcome : ℕ → Bool) (n : ℕ) (gone : Finset ℕ) (s : Slots) : Prop where
  ptrs : ∀ i, s.ptrs i = if i ∈ gone then .pointer none else allocatedSlot outcome n i
  live : s.heap.live = allocatedBlocks outcome n \ gone

theorem Allocated.freed (h : Allocated outcome n s) : Freed outcome n ∅ s where
  ptrs i := by
    rw [if_neg (Finset.notMem_empty i)]
    exact h.ptrs i
  live := by rw [h.live, Finset.sdiff_empty]

/-- The block of a slot which holds null is not live. -/
theorem Freed.null (h : Freed outcome n gone s) (hi : i ∉ s.heap.live) :
    Freed outcome n (insert i gone) (s.store i none) where
  ptrs j := by
    by_cases hj : j = i
    · rw [hj, Slots.store_ptrs_self, if_pos (Finset.mem_insert_self i gone)]
    · rw [Slots.store_ptrs_of_ne hj, h.ptrs]
      simp [hj]
  live := by
    rw [Slots.store_heap, Finset.sdiff_insert, ← h.live, Finset.erase_eq_of_notMem hi]

theorem Freed.freeSlot (h : Freed outcome n gone s) (hi : i < n) (hgranted : Granted outcome i) :
    ∃ t, s.freeSlot i = .ok t ∧ Freed outcome n (insert i gone) (t.store i none) := by
  have hslot := h.ptrs i
  by_cases hgone : i ∈ gone
  · rw [if_pos hgone] at hslot
    have hdead : i ∉ s.heap.live := by simp [h.live, hgone]
    exact ⟨s, Slots.freeSlot_null hslot, h.null hdead⟩
  rw [if_neg hgone, allocatedSlot, if_pos ⟨hi, hgranted⟩] at hslot
  cases houtcome : outcome i with
  | false =>
      rw [houtcome] at hslot
      have hdead : i ∉ s.heap.live := by simp [h.live, allocatedBlocks, granted_succ, houtcome]
      exact ⟨s, Slots.freeSlot_null hslot, h.null hdead⟩
  | true =>
      rw [houtcome] at hslot
      have hlive : i ∈ s.heap.live := by
        simp [h.live, allocatedBlocks, granted_succ, houtcome, hi, hgranted, hgone]
      obtain ⟨t, ht, hptrs, herase⟩ := Slots.freeSlot_live hslot hlive
      have hnull : Freed outcome n (insert i gone) (t.store i none) := by
        constructor
        · intro j
          by_cases hj : j = i
          · rw [hj, Slots.store_ptrs_self, if_pos (Finset.mem_insert_self i gone)]
          · rw [Slots.store_ptrs_of_ne hj, hptrs, h.ptrs]
            simp [hj]
        · rw [Slots.store_heap, herase, h.live, Finset.sdiff_insert]
      exact ⟨t, ht, hnull⟩

theorem Freed.fault (h : Freed outcome n gone s) (hgone : i ∉ gone)
    (hgranted : ¬ Granted outcome i) : s.freeSlot i = .error (.unassigned i) := by
  apply Slots.freeSlot_unassigned
  rw [h.ptrs, if_neg hgone]
  exact if_neg fun hi => hgranted hi.2

/-- The slots drawn in the first passes of the second loop. -/
def drawn (n : ℕ) (rand : ℕ → ℕ) (passes : ℕ) : Finset ℕ :=
  (Finset.range passes).image fun i => rand i % n

theorem drawn_succ (n : ℕ) (rand : ℕ → ℕ) (passes : ℕ) :
    drawn n rand (passes + 1) = insert (rand passes % n) (drawn n rand passes) := by
  rw [drawn, Finset.range_add_one, Finset.image_insert]
  rfl

/-- The second loop of `fragment.c` gets to its end just when all slots it draws have been
assigned. -/
theorem freeRandom_iff {s : Slots} (h : Allocated outcome n s) (rand : ℕ → ℕ) {passes : ℕ}
    (hn : passes ≤ n) :
    ((∀ i < passes, Granted outcome (rand i % n)) → ∃ t,
      forBelow (freeRandom n rand) passes s = .ok t ∧ Freed outcome n (drawn n rand passes) t) ∧
    ((∃ t, forBelow (freeRandom n rand) passes s = .ok t) →
      ∀ i < passes, Granted outcome (rand i % n)) := by
  have hloop := forBelow_iff (n := passes) (freeRandom n rand)
    (fun k t => Freed outcome n (drawn n rand k) t ∧ ∀ x ∈ drawn n rand k, Granted outcome x)
    (fun i => Granted outcome (rand i % n)) ⟨h.freed, by simp [drawn]⟩ ?ok ?fault
  case ok =>
    intro i hi t hinv hgranted
    obtain ⟨hfreed, hall⟩ := hinv
    obtain ⟨u, hu, hnull⟩ := hfreed.freeSlot (Nat.mod_lt _ (by omega)) hgranted
    rw [← drawn_succ] at hnull
    refine ⟨u.store (rand i % n) none, ?_, hnull, ?_⟩
    · rw [freeRandom, hu]
      rfl
    · rw [drawn_succ, Finset.forall_mem_insert]
      exact ⟨hgranted, hall⟩
  case fault =>
    intro i hi t hinv hgranted
    obtain ⟨hfreed, hall⟩ := hinv
    have hfault := hfreed.fault (fun hmem => hgranted (hall _ hmem)) hgranted
    rw [freeRandom, hfault]
    exact ⟨_, rfl⟩
  refine ⟨fun hall => ?_, hloop.2⟩
  obtain ⟨t, ht, hfreed, -⟩ := hloop.1 hall
  exact ⟨t, ht, hfreed⟩

end FreeRandom

/-- The loop over all slots gets to its end just when all of them have been assigned. -/
theorem freeAll_iff {outcome : ℕ → Bool} {n : ℕ} {s : Slots} (h : Allocated outcome n s) :
    (∃ t, forBelow Slots.freeSlot n s = .ok t) ↔ ∀ i < n, Granted outcome i := by
  have hloop := forBelow_iff (n := n) Slots.freeSlot
    (fun k t => (∀ i, t.ptrs i = allocatedSlot outcome n i) ∧
      t.heap.live = allocatedBlocks outcome n \ Finset.range k)
    (Granted outcome) ⟨h.ptrs, by simp [h.live]⟩ ?ok ?fault
  case ok =>
    intro i hi t hinv hgranted
    obtain ⟨hptrs, hlive⟩ := hinv
    have hslot := hptrs i
    rw [allocatedSlot, if_pos ⟨hi, hgranted⟩] at hslot
    cases houtcome : outcome i with
    | false =>
        rw [houtcome] at hslot
        have hdead : i ∉ allocatedBlocks outcome n \ Finset.range i := by
          simp [allocatedBlocks, granted_succ, houtcome]
        refine ⟨t, Slots.freeSlot_null hslot, hptrs, ?_⟩
        rw [hlive, Finset.range_add_one, Finset.sdiff_insert, Finset.erase_eq_of_notMem hdead]
    | true =>
        rw [houtcome] at hslot
        have hmem : i ∈ t.heap.live := by
          simp [hlive, allocatedBlocks, granted_succ, houtcome, hi, hgranted]
        obtain ⟨u, hu, hsame, herase⟩ := Slots.freeSlot_live hslot hmem
        refine ⟨u, hu, ?_, ?_⟩
        · rw [hsame]
          exact hptrs
        · rw [herase, hlive, Finset.range_add_one, Finset.sdiff_insert]
  case fault =>
    intro i hi t hinv hgranted
    have hslot := hinv.1 i
    rw [allocatedSlot, if_neg fun hi => hgranted hi.2] at hslot
    exact ⟨_, Slots.freeSlot_unassigned hslot⟩
  constructor
  · exact hloop.2
  · intro hall
    obtain ⟨t, ht, -⟩ := hloop.1 hall
    exact ⟨t, ht⟩

theorem mallocMain_iff (n : ℕ) (outcome : ℕ → Bool) :
    (∃ r, mallocMain n outcome = .ok r) ↔ Granted outcome (n - 1) := by
  have hloop := freeAll_iff (allocate_allocated outcome n)
  have hall : (∀ i < n, Granted outcome i) ↔ Granted outcome (n - 1) := by
    constructor
    · intro h
      by_cases hn : n = 0
      · rw [hn]
        exact granted_zero outcome
      · exact h (n - 1) (by omega)
    · intro h i hi
      exact h.mono (by omega)
  rw [← hall, ← hloop]
  unfold mallocMain
  cases hrun : forBelow Slots.freeSlot n (allocate outcome n 0 {}).1 <;>
    simp [hrun, bind, Except.bind, pure, Except.pure]

section Fragment
variable {n : ℕ} {env : Environment}

/-- What the first two loops leave to the third one. -/
theorem fragmentUpTo_iff (n : ℕ) (env : Environment) (passes : ℕ) :
    ((∀ i < n / 2, Granted env.first (env.rand i % n)) → ∃ s,
      fragmentUpTo n env passes = .ok (reallocate env.again passes s.heap) ∧
      Freed env.first n (drawn n env.rand (n / 2)) s) ∧
    ((∃ r, fragmentUpTo n env passes = .ok r) →
      ∀ i < n / 2, Granted env.first (env.rand i % n)) := by
  obtain ⟨hok, hfault⟩ := freeRandom_iff (allocate_allocated env.first n) env.rand
    (Nat.div_le_self n 2)
  constructor
  · intro h
    obtain ⟨s, hs, hfreed⟩ := hok h
    refine ⟨s, ?_, hfreed⟩
    simp [fragmentUpTo, hs, bind, Except.bind, pure, Except.pure]
  · intro h
    obtain ⟨r, hr⟩ := h
    apply hfault
    cases hrun : forBelow (freeRandom n env.rand) (n / 2) (allocate env.first n 0 {}).1 with
    | ok s => exact ⟨s, rfl⟩
    | error e => simp [fragmentUpTo, hrun, bind, Except.bind] at hr

/-- Both programs run without a fault, `fragment.c` just when it draws no index behind the
first failing call, and `malloc.c` just when no call fails but the last one. -/
theorem frees_valid_iff (n : ℕ) (env : Environment) (outcome : ℕ → Bool) :
    ((∃ r, fragmentMain n env = .ok r) ↔ ∀ i < n / 2, Granted env.first (env.rand i % n)) ∧
    ((∃ r, mallocMain n outcome = .ok r) ↔ Granted outcome (n - 1)) := by
  obtain ⟨hok, hfault⟩ := fragmentUpTo_iff n env (n / 2)
  refine ⟨⟨hfault, fun h => ?_⟩, mallocMain_iff n outcome⟩
  obtain ⟨s, hs, -⟩ := hok h
  exact ⟨_, hs⟩

/-- The first call fails, an index behind it is drawn, and the loop over all slots gets to
the second one. -/
theorem frees_invalid :
    (¬ ∃ r, fragmentMain fragmentAllocs ⟨fun _ => false, fun _ => 1, fun _ => true⟩ = .ok r) ∧
    ¬ ∃ r, mallocMain mallocAllocs (fun _ => false) = .ok r := by
  constructor
  · intro h
    have hgranted := (fragmentUpTo_iff fragmentAllocs _ _).2 h 0 (by decide)
    exact absurd (hgranted 0 (by decide)) (by decide)
  · intro h
    have hgranted := (mallocMain_iff mallocAllocs _).mp h
    exact absurd (hgranted 0 (by decide)) (by decide)

end Fragment

section Fragmentation
variable {n : ℕ} {env : Environment}

/-- No more blocks are live in the third loop than behind the first one, and none are asked
for when a call fails. -/
structure MeasuresFragmentation (n : ℕ) (env : Environment) : Prop where
  bounded : ∀ k ≤ n / 2, ∃ r, fragmentUpTo n env k = .ok r ∧
    r.1.live.card ≤ (allocate env.first n 0 {}).1.heap.live.card
  failing : ∀ k < n / 2, env.again k = false → ∃ r, fragmentUpTo n env k = .ok r ∧
    r.1.live.card + 1 ≤ (allocate env.first n 0 {}).1.heap.live.card

theorem reallocate_succ (again : ℕ → Bool) (k : ℕ) (heap : Heap) :
    (reallocate again (k + 1) heap).1 = ((reallocate again k heap).1.malloc (again k)).2 := by
  rw [reallocate, repeatBelow_succ]
  rfl

/-- The third loop frees nothing. -/
theorem card_reallocate (again : ℕ → Bool) (k : ℕ) (heap : Heap) :
    (reallocate again k heap).1.live.card =
      heap.live.card + Nat.count (fun i => again i = true) k := by
  induction k with
  | zero => rfl
  | succ k ih =>
      rw [reallocate_succ, Heap.card_malloc, ih, Nat.count_succ]
      cases again k <;> simp [Nat.add_assoc]

theorem allocatedBlocks_of_granted {outcome : ℕ → Bool} (h : Granted outcome n) :
    allocatedBlocks outcome n = Finset.range n := by
  rw [allocatedBlocks, Finset.filter_true_of_mem]
  intro i hi
  exact h.mono (Finset.mem_range.mp hi)

theorem card_allocate (h : Granted env.first n) :
    (allocate env.first n 0 {}).1.heap.live.card = n := by
  rw [(allocate_allocated env.first n).live, allocatedBlocks_of_granted h, Finset.card_range]

theorem drawn_subset (n : ℕ) (rand : ℕ → ℕ) : drawn n rand (n / 2) ⊆ Finset.range n := by
  intro x hx
  obtain ⟨i, hi, rfl⟩ := Finset.mem_image.mp hx
  have hn := Finset.mem_range.mp hi
  exact Finset.mem_range.mpr (Nat.mod_lt _ (by omega))

/-- How many blocks are live after the first passes of the third loop. -/
theorem card_fragmentUpTo (h : Granted env.first n) (k : ℕ) :
    ∃ r, fragmentUpTo n env k = .ok r ∧
      r.1.live.card + (drawn n env.rand (n / 2)).card =
        n + Nat.count (fun i => env.again i = true) k := by
  have hdrawn : ∀ i < n / 2, Granted env.first (env.rand i % n) := by
    intro i hi
    exact h.mono (Nat.mod_lt _ (by omega)).le
  obtain ⟨s, hs, hfreed⟩ := (fragmentUpTo_iff n env k).1 hdrawn
  have hcard : s.heap.live.card + (drawn n env.rand (n / 2)).card = n := by
    rw [hfreed.live, allocatedBlocks_of_granted h,
      Finset.card_sdiff_add_card_eq_card (drawn_subset n env.rand), Finset.card_range]
  refine ⟨_, hs, ?_⟩
  rw [card_reallocate]
  omega

theorem measuresFragmentation_iff (h : Granted env.first n) :
    MeasuresFragmentation n env ↔
      Nat.count (fun i => env.again i = true) (n / 2) ≤ (drawn n env.rand (n / 2)).card ∧
      ∀ k < n / 2, env.again k = false →
        Nat.count (fun i => env.again i = true) k < (drawn n env.rand (n / 2)).card := by
  have hbound : ∀ k m, (∃ r, fragmentUpTo n env k = .ok r ∧
      r.1.live.card + m ≤ (allocate env.first n 0 {}).1.heap.live.card) ↔
      Nat.count (fun i => env.again i = true) k + m ≤ (drawn n env.rand (n / 2)).card := by
    intro k m
    obtain ⟨r, hr, hcard⟩ := card_fragmentUpTo h k
    rw [card_allocate h]
    constructor
    · intro hlive
      obtain ⟨r', hr', hle⟩ := hlive
      rw [hr] at hr'
      rw [← Except.ok.inj hr'] at hle
      omega
    · intro hle
      exact ⟨r, hr, by omega⟩
  constructor
  · intro hmeasures
    exact ⟨(hbound (n / 2) 0).mp (hmeasures.bounded (n / 2) (Nat.le_refl _)),
      fun k hk hfails => (hbound k 1).mp (hmeasures.failing k hk hfails)⟩
  · intro hcount
    refine ⟨fun k hk => (hbound k 0).mpr ?_,
      fun k hk hfails => (hbound k 1).mpr (hcount.2 k hk hfails)⟩
    exact (Nat.count_monotone _ hk).trans hcount.1

theorem card_drawn_le (n : ℕ) (rand : ℕ → ℕ) (passes : ℕ) :
    (drawn n rand passes).card ≤ passes :=
  Finset.card_image_le.trans_eq (Finset.card_range passes)

/-- The indices drawn decide whether the number of failed allocations is a matter of
fragmentation, whatever calls of the third loop fail: none may be drawn twice. -/
theorem fragmentation_iff {first : ℕ → Bool} (h : Granted first n) (rand : ℕ → ℕ) :
    (∀ again, MeasuresFragmentation n ⟨first, rand, again⟩ ↔
      Nat.count (fun i => again i = true) (n / 2) ≤ (drawn n rand (n / 2)).card ∧
      ∀ k < n / 2, again k = false →
        Nat.count (fun i => again i = true) k < (drawn n rand (n / 2)).card) ∧
    ((∀ again, MeasuresFragmentation n ⟨first, rand, again⟩) ↔
      ∀ i < n / 2, ∀ j < n / 2, rand i % n = rand j % n → i = j) := by
  have hrun : ∀ again, MeasuresFragmentation n ⟨first, rand, again⟩ ↔
      Nat.count (fun i => again i = true) (n / 2) ≤ (drawn n rand (n / 2)).card ∧
      ∀ k < n / 2, again k = false →
        Nat.count (fun i => again i = true) k < (drawn n rand (n / 2)).card :=
    fun again => measuresFragmentation_iff h
  have hdistinct : (drawn n rand (n / 2)).card = n / 2 ↔
      ∀ i < n / 2, ∀ j < n / 2, rand i % n = rand j % n → i = j := by
    have hinj := Finset.card_image_iff (s := Finset.range (n / 2)) (f := fun i => rand i % n)
    rw [Finset.card_range] at hinj
    rw [drawn, hinj]
    constructor
    · intro hset i hi j hj heq
      exact hset (by simpa using hi) (by simpa using hj) heq
    · intro hall i hi j hj heq
      exact hall i (by simpa using hi) j (by simpa using hj) heq
  refine ⟨hrun, ?_⟩
  rw [← hdistinct]
  constructor
  · intro hall
    have hgrants := ((hrun fun _ => true).mp (hall fun _ => true)).1
    simp only [Nat.count_true] at hgrants
    exact Nat.le_antisymm (card_drawn_le n rand _) hgrants
  · intro hcard again
    rw [hrun, hcard]
    exact ⟨Nat.count_le _, fun k hk _ => Nat.lt_of_le_of_lt (Nat.count_le _) hk⟩

theorem fragmentation_iff_distinct :
    MeasuresFragmentation 4 ⟨fun _ => true, id, fun _ => true⟩ :=
  (fragmentation_iff (n := 4) (fun _ _ => rfl) id).2.mpr (by decide) fun _ => true

/-- One block is freed, over and over, and half a million are allocated again. -/
theorem not_measuresFragmentation : Granted (fun _ => true) fragmentAllocs ∧
    ¬ MeasuresFragmentation fragmentAllocs ⟨fun _ => true, fun _ => 0, fun _ => true⟩ := by
  have hgranted : Granted (fun _ => true) fragmentAllocs := fun _ _ => rfl
  refine ⟨hgranted, ?_⟩
  intro h
  have hcount := ((measuresFragmentation_iff hgranted).mp h).1
  have hdrawn : (drawn fragmentAllocs (fun _ => 0) (fragmentAllocs / 2)).card ≤ 1 := by
    rw [Finset.card_le_one]
    intro x hx y hy
    obtain ⟨i, -, rfl⟩ := Finset.mem_image.mp hx
    obtain ⟨j, -, rfl⟩ := Finset.mem_image.mp hy
    rfl
  simp only [Nat.count_true] at hcount
  exact absurd (hcount.trans hdrawn) (by decide)

end Fragmentation

end MicrokernelBenchmark.AllocationBenchmarks
