import MicrokernelBenchmark.TransitionSystem
import Mathlib.Data.List.Infix

/-!
# Delivery of published messages under a quality of service

A message is the number of its publish. At most once may lose a message which is
under way, at least once may deliver a delivered one again, exactly once does
neither. With `ordered` first deliveries keep the order of publishing. A link
which is down delivers nothing.
-/
namespace MicrokernelBenchmark.MessageDelivery
open TransitionSystem

inductive Qos where
  | atMostOnce
  | atLeastOnce
  | exactlyOnce
deriving DecidableEq, Repr

inductive Op where
  | down
  | publish (outcome : Outcome)
  | lose (m : ℕ)
  | deliver (m : ℕ)
  | redeliver (m : ℕ)
deriving DecidableEq, Repr

structure State where
  up : Bool := true
  issued : ℕ := 0
  inFlight : List ℕ := []
  delivered : List ℕ := []
deriving DecidableEq, Repr

def tick (qos : Qos) (ordered : Bool) (op : Op) (u : State) : Option State :=
  match op with
  | .down => some { u with up := false }
  | .publish .success => some { u with
      issued := u.issued + 1, inFlight := u.inFlight ++ [u.issued] }
  | .publish .failure => some { u with issued := u.issued + 1 }
  | .lose m =>
      if qos = .atMostOnce ∧ m ∈ u.inFlight then
        some { u with inFlight := u.inFlight.erase m }
      else none
  | .deliver m =>
      if u.up = true ∧ m ∈ u.inFlight ∧ (ordered = true → u.inFlight.head? = some m) then
        some { u with inFlight := u.inFlight.erase m, delivered := u.delivered ++ [m] }
      else none
  | .redeliver m =>
      if u.up = true ∧ qos = .atLeastOnce ∧ m ∈ u.delivered then some u else none

def delivery (qos : Qos) (ordered : Bool) : System Op State := ⟨{}, tick qos ordered⟩

def State.total (u : State) : ℕ := u.delivered.length + u.inFlight.length

def Op.publishes : Op → ℕ
  | .publish _ => 1
  | _ => 0

/-- The messages which a publish puts under way. -/
def Op.sends : Op → ℕ
  | .publish .success => 1
  | _ => 0

def Op.loses : Op → ℕ
  | .lose _ => 1
  | _ => 0

theorem Op.sends_le (op : Op) : op.sends ≤ op.publishes := by
  cases op with
  | publish o => cases o <;> simp [sends, publishes]
  | _ => exact le_refl 0

/-- First deliveries only. -/
def Op.delivers : Op → List ℕ
  | .deliver m => [m]
  | _ => []

variable {qos : Qos} {ordered : Bool} {op : Op} {u v : State}

theorem tick_issued (h : tick qos ordered op u = some v) : v.issued = u.issued + op.publishes := by
  cases op with
  | down => exact Option.some.inj h ▸ rfl
  | publish o => cases o <;> exact Option.some.inj h ▸ rfl
  | lose m | deliver m | redeliver m =>
      simp only [tick, Option.ite_none_right_eq_some, Option.some.injEq] at h
      exact h.2 ▸ rfl

theorem tick_delivered (h : tick qos ordered op u = some v) :
    v.delivered = u.delivered ++ op.delivers := by
  cases op with
  | down => exact Option.some.inj h ▸ (List.append_nil _).symm
  | publish o => cases o <;> exact Option.some.inj h ▸ (List.append_nil _).symm
  | lose m | redeliver m =>
      simp only [tick, Option.ite_none_right_eq_some, Option.some.injEq] at h
      exact h.2 ▸ (List.append_nil _).symm
  | deliver m =>
      simp only [tick, Option.ite_none_right_eq_some, Option.some.injEq] at h
      exact h.2 ▸ rfl

theorem tick_total (h : tick qos ordered op u = some v) :
    v.total + op.loses = u.total + op.sends := by
  unfold State.total
  cases op with
  | down => exact Option.some.inj h ▸ rfl
  | publish o =>
      cases o <;> obtain rfl := Option.some.inj h
      · simp [Op.loses, Op.sends, Nat.add_assoc]
      · simp [Op.loses, Op.sends]
  | lose m =>
      simp only [tick, Option.ite_none_right_eq_some, Option.some.injEq] at h
      obtain ⟨⟨-, hm⟩, rfl⟩ := h
      have hlen := List.length_erase_add_one hm
      simp only [Op.loses, Op.sends]
      omega
  | deliver m =>
      simp only [tick, Option.ite_none_right_eq_some, Option.some.injEq] at h
      obtain ⟨⟨-, hm, -⟩, rfl⟩ := h
      have hlen := List.length_erase_add_one hm
      simp only [List.length_append, List.length_singleton, Op.loses, Op.sends]
      omega
  | redeliver m =>
      simp only [tick, Option.ite_none_right_eq_some, Option.some.injEq] at h
      exact h.2 ▸ rfl

/-- A link which is down stays down and delivers nothing. -/
theorem tick_down (hu : u.up = false) (h : tick qos ordered op u = some v) :
    v.up = false ∧ v.delivered = u.delivered := by
  cases op with
  | down => exact Option.some.inj h ▸ ⟨rfl, rfl⟩
  | publish o => cases o <;> exact Option.some.inj h ▸ ⟨hu, rfl⟩
  | lose m =>
      simp only [tick, Option.ite_none_right_eq_some, Option.some.injEq] at h
      exact h.2 ▸ ⟨hu, rfl⟩
  | deliver m | redeliver m => simp [tick, hu] at h

/-- Delivered and then waiting messages are published ones, related in that order. -/
def State.Arranged (R : ℕ → ℕ → Prop) (u : State) : Prop :=
  (u.delivered ++ u.inFlight).Pairwise R ∧ ∀ m ∈ u.delivered ++ u.inFlight, m < u.issued

theorem arranged_init (R : ℕ → ℕ → Prop) : State.Arranged R {} := ⟨List.Pairwise.nil, by simp⟩

/-- A delivery in order moves the boundary between the two lists; any other only
permutes them. -/
theorem tick_arranged {R : ℕ → ℕ → Prop} (hlt : ∀ m n, m < n → R m n)
    (ho : ordered = true ∨ ∀ m n, R m n → R n m) (hu : u.Arranged R)
    (h : tick qos ordered op u = some v) : v.Arranged R := by
  obtain ⟨hpair, hmem⟩ := hu
  cases op with
  | down => exact Option.some.inj h ▸ ⟨hpair, hmem⟩
  | publish o =>
      cases o with
      | success =>
          obtain rfl := Option.some.inj h
          unfold State.Arranged
          dsimp only
          rw [← List.append_assoc]
          constructor
          · refine List.pairwise_append.mpr ⟨hpair, List.pairwise_singleton .., ?_⟩
            intro m hm n hn
            rw [List.mem_singleton.mp hn]
            exact hlt _ _ (hmem m hm)
          · rw [List.forall_mem_append]
            exact ⟨fun m hm => Nat.lt_succ_of_lt (hmem m hm), by simp⟩
      | failure =>
          obtain rfl := Option.some.inj h
          exact ⟨hpair, fun m hm => Nat.lt_succ_of_lt (hmem m hm)⟩
  | lose m =>
      simp only [tick, Option.ite_none_right_eq_some, Option.some.injEq] at h
      obtain ⟨-, rfl⟩ := h
      have hsub :=
        List.Sublist.append_left (List.erase_sublist (a := m) (l := u.inFlight)) u.delivered
      exact ⟨hpair.sublist hsub, fun k hk => hmem k (hsub.subset hk)⟩
  | deliver m =>
      simp only [tick, Option.ite_none_right_eq_some, Option.some.injEq] at h
      obtain ⟨⟨-, hm, hhead⟩, rfl⟩ := h
      have hperm : (u.delivered ++ [m] ++ u.inFlight.erase m).Perm (u.delivered ++ u.inFlight) := by
        rw [List.append_assoc]
        exact (List.perm_cons_erase hm).symm.append_left _
      refine ⟨?_, fun k hk => hmem k (hperm.mem_iff.mp hk)⟩
      rcases ho with ho | hsymm
      · obtain ⟨rest, hrest⟩ := List.head?_eq_some_iff.mp (hhead ho)
        simpa [hrest] using hpair
      · exact (hperm.pairwise_iff fun {m n} => hsymm m n).mpr hpair
  | redeliver m =>
      simp only [tick, Option.ite_none_right_eq_some, Option.some.injEq] at h
      exact h.2 ▸ ⟨hpair, hmem⟩

end MicrokernelBenchmark.MessageDelivery
