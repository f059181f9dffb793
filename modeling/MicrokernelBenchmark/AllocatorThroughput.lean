import MicrokernelBenchmark.AllocationBenchmarks

/-!
# Allocation phases and deliberate leaks

`main` of `allocator_throughput` and of `memleak`. The first frees all it has
allocated, its array of pointers last, unless some call of `malloc` fails: it
then returns at once and leaves what it has so far. The second never frees.
-/
namespace MicrokernelBenchmark.AllocatorThroughput
open AllocationBenchmarks

def numAllocations : ℕ := 1000000

def numLeaks : ℕ := 1000

/-- The first call of `malloc` is for the array. The result is that of `main` and the heap
which the process leaves. -/
def allocatorThroughput (numAllocations : ℕ) (granted : ℕ → Bool) : Except Fault (ℕ × Heap) := do
  let (pointers, heap) := Heap.malloc {} (granted 0)
  if pointers = none then return (1, heap)
  match allocate (fun i => granted (i + 1)) numAllocations 0 { heap := heap } with
  | (s, some _) => return (1, s.heap)
  | (s, none) =>
      let s ← forBelow Slots.freeSlot numAllocations s
      let heap ← s.heap.free pointers
      return (0, heap)

/-- The iterations of `memleak` from index `i` on; nothing keeps the pointers. -/
def leakFrom (granted : ℕ → Bool) : ℕ → ℕ → Heap → ℕ × Heap
  | 0, _, heap => (0, heap)
  | remaining + 1, i, heap =>
      let (leak, heap) := heap.malloc (granted i)
      if leak = none then (1, heap) else leakFrom granted remaining (i + 1) heap

def memleak (numLeaks : ℕ) (granted : ℕ → Bool) : ℕ × Heap := leakFrom granted numLeaks 0 {}

/-- The call with index `k` is the first one that fails. -/
structure FirstRefused (granted : ℕ → Bool) (k : ℕ) : Prop where
  before : Granted granted k
  refused : granted k = false

section Fill
variable {granted : ℕ → Bool} {n i : ℕ} {s : Slots}

/-- The array is block 0, and the slots below `i` point to the blocks behind it. -/
structure Filled (i : ℕ) (s : Slots) : Prop where
  next : s.heap.next = i + 1
  live : s.heap.live = Finset.range (i + 1)
  ptrs : ∀ j < i, s.ptrs j = .pointer (some (j + 1))

theorem Filled.step (h : Filled i s) :
    Filled (i + 1) ({ s with heap := (s.heap.malloc true).2 }.store i (some s.heap.next)) where
  next := by
    rw [Slots.store_heap, Heap.malloc_true_next, h.next]
  live := by
    rw [Slots.store_heap, Heap.malloc_true_live, h.next, h.live, Finset.range_add_one (n := i + 1)]
  ptrs j hj := by
    rcases Nat.lt_succ_iff_lt_or_eq.mp hj with hj | rfl
    · rw [Slots.store_ptrs_of_ne hj.ne]
      exact h.ptrs j hj
    · rw [Slots.store_ptrs_self, h.next]

/-- The loop runs to its end or stops at the first refusal, with all earlier blocks live. -/
theorem allocate_filled (passes : ℕ) (h : Filled i s) :
    ((∀ k, i ≤ k → k < i + passes → granted k = true) →
      ∃ t, allocate granted passes i s = (t, none) ∧ Filled (i + passes) t) ∧
    ∀ k, i ≤ k → k < i + passes → (∀ j, i ≤ j → j < k → granted j = true) →
      granted k = false → ∃ t, allocate granted passes i s = (t, some k) ∧
        t.heap.live = Finset.range (k + 1) := by
  induction passes generalizing i s with
  | zero => exact ⟨fun _ => ⟨s, rfl, h⟩, fun k hik hki => by omega⟩
  | succ passes ih =>
      have hstep : granted i = true → allocate granted (passes + 1) i s =
          allocate granted passes (i + 1)
            ({ s with heap := (s.heap.malloc true).2 }.store i (some s.heap.next)) := by
        intro hi
        rw [allocate, hi]
        rfl
      constructor
      · intro hall
        rw [hstep (hall i (Nat.le_refl i) (by omega))]
        obtain ⟨t, ht, hfilled⟩ := (ih h.step).1 fun k hik hki => hall k (by omega) (by omega)
        refine ⟨t, ht, ?_⟩
        rw [Nat.add_right_comm] at hfilled
        exact hfilled
      · intro k hik hki hbefore hrefused
        by_cases hk : i = k
        · subst hk
          refine ⟨s.store i none, ?_, h.live⟩
          rw [allocate, hrefused]
          rfl
        · rw [hstep (hbefore i (Nat.le_refl i) (by omega))]
          exact (ih h.step).2 k (by omega) (by omega) (fun j hj => hbefore j (by omega)) hrefused

/-- The array and the blocks of the slots from `k` on. -/
def remaining (n k : ℕ) : Finset ℕ := (Finset.range (n + 1)).filter fun x => x = 0 ∨ k < x

theorem mem_remaining {n k x : ℕ} : x ∈ remaining n k ↔ x < n + 1 ∧ (x = 0 ∨ k < x) := by
  rw [remaining, Finset.mem_filter, Finset.mem_range]

theorem remaining_zero (n : ℕ) : Finset.range (n + 1) = remaining n 0 := by
  ext x
  rw [mem_remaining, Finset.mem_range]
  omega

/-- Every slot is freed once. -/
theorem freeAll_filled (h : Filled n s) :
    ∃ t, forBelow Slots.freeSlot n s = .ok t ∧ t.heap.live = {0} := by
  have hloop := forBelow_iff (n := n) Slots.freeSlot
    (fun k t => t.ptrs = s.ptrs ∧ t.heap.live = remaining n k) (fun _ => True)
    ⟨rfl, by rw [h.live, remaining_zero]⟩ ?ok (fun _ _ _ _ hfalse => absurd trivial hfalse)
  case ok =>
    rintro i hi t ⟨hptrs, hlive⟩ -
    have hslot : t.ptrs i = .pointer (some (i + 1)) := hptrs ▸ h.ptrs i hi
    have hmem : i + 1 ∈ t.heap.live := by
      rw [hlive, mem_remaining]
      omega
    obtain ⟨u, hu, hsame, herase⟩ := Slots.freeSlot_live hslot hmem
    refine ⟨u, hu, hsame.trans hptrs, ?_⟩
    rw [herase, hlive]
    ext x
    rw [Finset.mem_erase, mem_remaining, mem_remaining]
    omega
  obtain ⟨t, ht, -, hlive⟩ := hloop.1 fun _ _ => trivial
  refine ⟨t, ht, ?_⟩
  rw [hlive]
  ext x
  rw [mem_remaining, Finset.mem_singleton]
  omega

theorem filled_init (b : Heap) (hb : b = (Heap.malloc {} true).2) : Filled 0 { heap := b } := by
  subst hb
  exact ⟨rfl, rfl, fun j hj => absurd hj (Nat.not_lt_zero j)⟩

theorem free_singleton {heap : Heap} {b : ℕ} (h : heap.live = {b}) :
    ∃ rest, heap.free (some b) = .ok rest ∧ rest.live = ∅ := by
  refine ⟨_, if_pos (h ▸ Finset.mem_singleton_self b), ?_⟩
  dsimp only
  rw [h, Finset.erase_singleton]

/-- Without a refusal everything is freed, and at the first one the blocks so far are left.
No pointer is freed which is not live. -/
theorem allocatorThroughput_spec (n : ℕ) (granted : ℕ → Bool) :
    (Granted granted (n + 1) → ∃ heap, allocatorThroughput n granted = .ok (0, heap) ∧
      heap.live = ∅) ∧
    ∀ k ≤ n, FirstRefused granted k → ∃ heap, allocatorThroughput n granted = .ok (1, heap) ∧
      heap.live = Finset.range k := by
  have hrest : granted 0 = true → allocatorThroughput n granted =
      match allocate (fun i => granted (i + 1)) n 0 { heap := (Heap.malloc {} true).2 } with
      | (s, some _) => .ok (1, s.heap)
      | (s, none) => do
          let s ← forBelow Slots.freeSlot n s
          let heap ← s.heap.free (some 0)
          return (0, heap) := by
    intro hfirst
    rw [allocatorThroughput, hfirst]
    rfl
  have hloop := @allocate_filled (fun i => granted (i + 1)) 0 _ n (filled_init _ rfl)
  constructor
  · intro hall
    obtain ⟨t, ht, hfilled⟩ := hloop.1 fun k _ hk => hall (k + 1) (by omega)
    rw [Nat.zero_add] at hfilled
    obtain ⟨u, hu, hlive⟩ := freeAll_filled hfilled
    obtain ⟨heap, hfree, hempty⟩ := free_singleton hlive
    refine ⟨heap, ?_, hempty⟩
    rw [hrest (hall 0 (Nat.succ_pos n)), ht]
    dsimp only
    rw [hu]
    change (u.heap.free (some 0)).bind _ = _
    rw [hfree]
    rfl
  · intro k hk hrefused
    cases k with
    | zero =>
        refine ⟨{}, ?_, rfl⟩
        rw [allocatorThroughput, hrefused.refused]
        rfl
    | succ k =>
        have hfirst : granted 0 = true := hrefused.before 0 (Nat.succ_pos k)
        obtain ⟨t, ht, hlive⟩ := hloop.2 k (Nat.zero_le k) (by omega)
          (fun j _ hj => hrefused.before (j + 1) (by omega)) hrefused.refused
        refine ⟨t.heap, ?_, hlive⟩
        rw [hrest hfirst, ht]

end Fill

section Leak
variable {granted : ℕ → Bool} {i : ℕ} {heap : Heap}

theorem leakFrom_spec (passes : ℕ) (hnext : heap.next = i) (hlive : heap.live = Finset.range i) :
    ((∀ k, i ≤ k → k < i + passes → granted k = true) →
      ∃ rest, leakFrom granted passes i heap = (0, rest) ∧
        rest.live = Finset.range (i + passes)) ∧
    ∀ k, i ≤ k → k < i + passes → (∀ j, i ≤ j → j < k → granted j = true) →
      granted k = false → ∃ rest, leakFrom granted passes i heap = (1, rest) ∧
        rest.live = Finset.range k := by
  induction passes generalizing i heap with
  | zero => exact ⟨fun _ => ⟨heap, rfl, hlive⟩, fun k hik hki => by omega⟩
  | succ passes ih =>
      have hstep : granted i = true →
          leakFrom granted (passes + 1) i heap = leakFrom granted passes (i + 1)
            (heap.malloc true).2 := by
        intro hi
        rw [leakFrom, hi]
        rfl
      have hnext' : (heap.malloc true).2.next = i + 1 := by rw [Heap.malloc_true_next, hnext]
      have hlive' : (heap.malloc true).2.live = Finset.range (i + 1) := by
        rw [Heap.malloc_true_live, hnext, hlive, Finset.range_add_one]
      obtain ⟨ihall, ihrefused⟩ := ih hnext' hlive'
      constructor
      · intro hall
        rw [hstep (hall i (Nat.le_refl i) (by omega))]
        obtain ⟨rest, hrest, hleft⟩ := ihall fun k hik hki => hall k (by omega) (by omega)
        refine ⟨rest, hrest, ?_⟩
        rw [hleft, Nat.add_right_comm, Nat.add_assoc]
      · intro k hik hki hbefore hrefused
        by_cases hk : i = k
        · subst hk
          refine ⟨heap, ?_, hlive⟩
          rw [leakFrom, hrefused]
          rfl
        · rw [hstep (hbefore i (Nat.le_refl i) (by omega))]
          exact ihrefused k (by omega) (by omega) (fun j hj => hbefore j (by omega)) hrefused

end Leak

/-- What the two programs have live when they end: nothing after the complete benchmark, and
otherwise every block they have been given. -/
theorem live_at_exit (n : ℕ) (granted : ℕ → Bool) :
    (Granted granted (n + 1) → ∃ heap, allocatorThroughput n granted = .ok (0, heap) ∧
      heap.live = ∅) ∧
    (∀ k ≤ n, FirstRefused granted k → ∃ heap, allocatorThroughput n granted = .ok (1, heap) ∧
      heap.live = Finset.range k) ∧
    (Granted granted n → (memleak n granted).1 = 0 ∧
      (memleak n granted).2.live = Finset.range n) ∧
    ∀ k < n, FirstRefused granted k → (memleak n granted).1 = 1 ∧
      (memleak n granted).2.live = Finset.range k := by
  obtain ⟨hfreed, hleft⟩ := allocatorThroughput_spec n granted
  obtain ⟨hall, hrefused⟩ := @leakFrom_spec granted 0 {} n rfl rfl
  refine ⟨hfreed, hleft, fun hgranted => ?_, fun k hk hfirst => ?_⟩
  · obtain ⟨rest, hrest, hlive⟩ := hall fun k _ hk => hgranted k (by omega)
    rw [memleak, hrest, Nat.zero_add] at *
    exact ⟨rfl, hlive⟩
  · obtain ⟨rest, hrest, hlive⟩ := hrefused k (Nat.zero_le k) (by omega)
      (fun j _ hj => hfirst.before j hj) hfirst.refused
    rw [memleak, hrest]
    exact ⟨rfl, hlive⟩

/-- The third call fails: the array and one block are left. -/
theorem live_at_exit_third : ∃ heap,
    allocatorThroughput 5 (fun k => k ≠ 2) = .ok (1, heap) ∧ heap.live = Finset.range 2 :=
  (live_at_exit 5 fun k => k ≠ 2).2.1 2 (by decide) ⟨by decide, by decide⟩

end MicrokernelBenchmark.AllocatorThroughput
