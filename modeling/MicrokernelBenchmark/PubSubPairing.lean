import MicrokernelBenchmark.PubSubDelivery
import MicrokernelBenchmark.PubSubStatistics

/-!
# Which reception a latency is computed from

The statistics pair receptions and publishes by index. With a monotonic clock
and messages first delivered in order of publishing, the pairs are right exactly
when no message is delivered again among the first `COUNT` deliveries. Without
redelivery, and in whatever order, the arrays are those of an `Exchange`.
-/
namespace MicrokernelBenchmark.PubSubPairing
open TransitionSystem FixedWidth MessageDelivery PubSubTest PubSubDelivery PubSubStatistics

/-- The readings of `now_ns`, in order. -/
def monotonicClock : System ℤ ℤ :=
  ⟨0, fun now last => if last ≤ now ∧ now ≤ longMax then some now else none⟩

def Event.reading : Event → Option ℤ
  | .step (.stamp now) | .step (.store now) => some now
  | _ => none

def timed (count : ℕ) (qos : Qos) (ordered : Bool) (sendTimes recvTimes : ℕ → ℤ) :
    System Event (Config × ℤ) :=
  (pubSub count qos ordered sendTimes recvTimes).sync monotonicClock some Event.reading

/-- The message for which an event invokes the callback. -/
def Event.invoked (e : Event) : List ℕ := e.program.elim [] Action.invoked

def invocations (es : List Event) : List ℕ := es.flatMap Event.invoked

theorem invocations_snoc (es : List Event) (e : Event) :
    invocations (es ++ [e]) = invocations es ++ Event.invoked e := by
  simp [invocations]

/-- The deliveries so far and what the callback has made of them. -/
structure Traced (count : ℕ) (qos : Qos) (R : ℕ → ℕ → Prop) (es : List Event) (p : Config) :
    Prop where
  arranged : p.2.Arranged R
  mem : ∀ m, m ∈ invocations es ↔ m ∈ p.2.delivered
  taken : p.1.taken = (invocations es).take count
  distinct : qos ≠ .atLeastOnce → (invocations es).Nodup
  sorted : ∀ k, ((invocations es).take k).Nodup → ((invocations es).take k).Pairwise R

section Deliveries
variable {count : ℕ} {qos : Qos} {ordered : Bool} {sendTimes recvTimes : ℕ → ℤ}
variable {R : ℕ → ℕ → Prop} {es : List Event} {e : Event} {p q : Config}

theorem traced_init : Traced count qos R []
    (pubSub count qos ordered sendTimes recvTimes).init where
  arranged := arranged_init R
  mem := by simp [invocations, pubSub, System.sync, delivery]
  taken := by simp [invocations, pubSub, System.sync, run, State.taken, CallbackPc.message]
  distinct := by simp [invocations]
  sorted := by simp [invocations]

/-- An invocation is a first delivery of a message under way, or a redelivery. -/
theorem invoked_cases (ht : (pubSub count qos ordered sendTimes recvTimes).tick e p = some q) :
    (Event.invoked e = [] ∧ q.2.delivered = p.2.delivered) ∨
    (∃ m, Event.invoked e = [m] ∧ m ∈ p.2.inFlight ∧ q.2.delivered = p.2.delivered ++ [m]) ∨
    ∃ m, Event.invoked e = [m] ∧ qos = .atLeastOnce ∧ m ∈ p.2.delivered ∧
      q.2.delivered = p.2.delivered := by
  have hshare := System.sync_tick.mp ht
  have hnet := share_network hshare.2
  cases e with
  | lose m =>
      left
      exact ⟨rfl, by simpa [Event.network, Op.delivers] using hnet.2.1⟩
  | redeliver m =>
      right
      right
      have hu := hshare.2
      simp only [Event.network, System.share, delivery, MessageDelivery.tick,
        Option.ite_none_right_eq_some] at hu
      exact ⟨m, rfl, hu.1.2.1, hu.1.2.2, by simpa [Event.network, Op.delivers] using hnet.2.1⟩
  | step a =>
      by_cases ha : ∃ m, a = .invoke m
      · right
        left
        obtain ⟨m, rfl⟩ := ha
        have hu := hshare.2
        simp only [Event.network, System.share, delivery, MessageDelivery.tick,
          Option.ite_none_right_eq_some] at hu
        exact ⟨m, rfl, hu.1.2.1, hnet.2.1⟩
      · left
        have ha : ∀ m, a ≠ .invoke m := fun m hm => ha ⟨m, hm⟩
        refine ⟨?_, by simpa [delivers_step ha] using hnet.2.1⟩
        cases a with
        | invoke m => exact absurd rfl (ha m)
        | _ => rfl

/-- The callback takes a message while its count is incomplete. -/
theorem taken_share (h : Invariant count p.1) (hp : p.1.taken = (invocations es).take count)
    (ht : (pubSub count qos ordered sendTimes recvTimes).tick e p = some q) :
    q.1.taken = (invocations (es ++ [e])).take count := by
  have hs := (System.sync_tick.mp ht).1
  have hlen := h.length_taken
  rw [invocations_snoc]
  cases hprog : e.program with
  | none =>
      rw [hprog] at hs
      have hinvoked : Event.invoked e = [] := by simp [Event.invoked, hprog]
      rw [hinvoked, List.append_nil, ← hp, Option.some.inj hs]
  | some a =>
      rw [hprog] at hs
      have hinvoked : Event.invoked e = a.invoked := by simp [Event.invoked, hprog]
      rw [tick_taken hs, hinvoked]
      by_cases ha : ∃ m, a = .invoke m
      · obtain ⟨m, rfl⟩ := ha
        have haccepted := tick_idle hs
        rw [hp, List.length_take] at hlen
        split_ifs with hlt
        · rw [hp, List.take_of_length_le (by omega), List.take_of_length_le]
          simp only [Action.invoked, List.length_append, List.length_singleton]
          omega
        · rw [hp, List.append_nil, List.take_append_of_le_length (by omega)]
      · have hnil : a.invoked = [] := by
          cases a with
          | invoke m => exact absurd ⟨m, rfl⟩ ha
          | _ => rfl
        simp [hnil, hp]

/-- A prefix without repetition stays arranged when a message comes last. -/
theorem sorted_snoc {ms : List ℕ} {m : ℕ} (h : ∀ k, (ms.take k).Nodup → (ms.take k).Pairwise R)
    (hlast : m ∉ ms → ∀ n ∈ ms, R n m) :
    ∀ k, ((ms ++ [m]).take k).Nodup → ((ms ++ [m]).take k).Pairwise R := by
  intro k hk
  rcases Nat.lt_or_ge ms.length k with hlen | hlen
  · rw [List.take_of_length_le (by rw [List.length_append]; exact hlen)] at hk ⊢
    have hnodup := List.nodup_append.mp hk
    have hall := h ms.length
    rw [List.take_length] at hall
    have hnew : m ∉ ms := fun hm => hnodup.2.2 m hm m List.mem_cons_self rfl
    refine List.pairwise_append.mpr ⟨hall hnodup.1, List.pairwise_singleton .., ?_⟩
    intro n hn l hl
    rw [List.mem_singleton.mp hl]
    exact hlast hnew n hn
  · rw [List.take_append_of_le_length hlen] at hk ⊢
    exact h k hk

theorem Traced.tick (hj : Joined count qos p) (h : Traced count qos R es p)
    (hlt : ∀ m n, m < n → R m n) (hne : ∀ m n, R m n → m ≠ n)
    (ho : ordered = true ∨ ∀ m n, R m n → R n m)
    (ht : (pubSub count qos ordered sendTimes recvTimes).tick e p = some q) :
    Traced count qos R (es ++ [e]) q := by
  have harranged : q.2.Arranged R := by
    have hu := (System.sync_tick.mp ht).2
    cases hn : e.network with
    | none => rw [hn] at hu; exact Option.some.inj hu ▸ h.arranged
    | some op => rw [hn] at hu; exact tick_arranged hlt ho h.arranged hu
  have htaken := taken_share hj.program h.taken ht
  rcases invoked_cases ht with ⟨hnil, hdel⟩ | ⟨m, hm, hflight, hdel⟩ | ⟨m, hm, hqos, hmem, hdel⟩
  · have heq : invocations (es ++ [e]) = invocations es := by
      rw [invocations_snoc, hnil, List.append_nil]
    exact {
      arranged := harranged
      mem := by rw [heq, hdel]; exact h.mem
      taken := htaken
      distinct := by rw [heq]; exact h.distinct
      sorted := by rw [heq]; exact h.sorted }
  · have heq : invocations (es ++ [e]) = invocations es ++ [m] := by rw [invocations_snoc, hm]
    have hbefore (k : ℕ) (hk : k ∈ invocations es) : R k m :=
      (List.pairwise_append.mp h.arranged.1).2.2 k ((h.mem k).mp hk) m hflight
    exact {
      arranged := harranged
      mem := fun k => by
        rw [heq, hdel, List.mem_append, List.mem_append]
        exact or_congr (h.mem k) Iff.rfl
      taken := htaken
      distinct := fun hq => by
        rw [heq]
        refine List.nodup_append.mpr ⟨h.distinct hq, List.nodup_singleton m, ?_⟩
        intro k hk n hn
        rw [List.mem_singleton.mp hn]
        exact hne k m (hbefore k hk)
      sorted := heq ▸ sorted_snoc h.sorted fun _ => hbefore }
  · have heq : invocations (es ++ [e]) = invocations es ++ [m] := by rw [invocations_snoc, hm]
    have hold : m ∈ invocations es := (h.mem m).mpr hmem
    exact {
      arranged := harranged
      mem := fun k => by
        rw [heq, hdel, List.mem_append, List.mem_singleton, ← h.mem k]
        exact or_iff_left_of_imp fun hk => hk ▸ hold
      taken := htaken
      distinct := fun hq => absurd hqos hq
      sorted := heq ▸ sorted_snoc h.sorted fun hnew => absurd hold hnew }

end Deliveries

/-- The stamps and the receptions so far, against the clock. -/
structure Clocked (s : PubSubTest.State) (last : ℤ) : Prop where
  nonneg : 0 ≤ last
  le : last ≤ longMax
  sent : ∀ m < s.stamped, 0 ≤ s.sendTimes m ∧ s.sendTimes m ≤ last
  sentMono : ∀ m k, m ≤ k → k < s.stamped → s.sendTimes m ≤ s.sendTimes k
  arrived : ∀ a ∈ s.arrivals, s.sendTimes a.msg ≤ a.time ∧ a.time ≤ last
  arrivedMono : s.arrivals.Pairwise fun a b => a.time ≤ b.time

section Clock
variable {count : ℕ} {a : Action} {s t : PubSubTest.State} {last now : ℤ}

theorem clocked_init (count : ℕ) (sendTimes recvTimes : ℕ → ℤ) :
    Clocked (run count sendTimes recvTimes).init 0 where
  nonneg := le_refl 0
  le := by decide
  sent := by simp [run, State.stamped]
  sentMono := by simp [run, State.stamped]
  arrived := by simp [run]
  arrivedMono := by simp [run]

/-- The clock moves on. -/
theorem Clocked.advance (h : Clocked s last) (hlast : last ≤ now) (hle : now ≤ longMax) :
    Clocked s now where
  nonneg := h.nonneg.trans hlast
  le := hle
  sent m hm := ⟨(h.sent m hm).1, (h.sent m hm).2.trans hlast⟩
  sentMono := h.sentMono
  arrived a ha := ⟨(h.arrived a ha).1, (h.arrived a ha).2.trans hlast⟩
  arrivedMono := h.arrivedMono

theorem Clocked.stamp (h : Clocked s last) (hmsgs : ∀ a ∈ s.arrivals, a.msg < s.stamped)
    (hstamped : t.stamped = s.stamped + 1)
    (hsend : t.sendTimes = Function.update s.sendTimes s.stamped last)
    (harrivals : t.arrivals = s.arrivals) : Clocked t last where
  nonneg := h.nonneg
  le := h.le
  sent m hm := by
    rw [hsend]
    rcases Nat.lt_succ_iff_lt_or_eq.mp (hstamped ▸ hm) with hm | rfl
    · rw [Function.update_of_ne (Nat.ne_of_lt hm)]
      exact h.sent m hm
    · rw [Function.update_self]
      exact ⟨h.nonneg, le_refl last⟩
  sentMono m k hmk hk := by
    rw [hsend]
    rcases Nat.lt_succ_iff_lt_or_eq.mp (hstamped ▸ hk) with hk | rfl
    · rw [Function.update_of_ne (Nat.ne_of_lt hk),
        Function.update_of_ne (Nat.ne_of_lt (lt_of_le_of_lt hmk hk))]
      exact h.sentMono m k hmk hk
    · rw [Function.update_self]
      rcases hmk.lt_or_eq with hm | rfl
      · rw [Function.update_of_ne (Nat.ne_of_lt hm)]
        exact (h.sent m hm).2
      · rw [Function.update_self]
  arrived a ha := by
    rw [harrivals] at ha
    rw [hsend, Function.update_of_ne (Nat.ne_of_lt (hmsgs a ha))]
    exact h.arrived a ha
  arrivedMono := harrivals ▸ h.arrivedMono

theorem Clocked.receive {i msg : ℕ} (h : Clocked s last) (hmsg : msg < s.stamped)
    (hstamped : t.stamped = s.stamped) (hsend : t.sendTimes = s.sendTimes)
    (harrivals : t.arrivals = s.arrivals ++ [⟨i, msg, last⟩]) : Clocked t last where
  nonneg := h.nonneg
  le := h.le
  sent := by rw [hstamped, hsend]; exact h.sent
  sentMono := by rw [hstamped, hsend]; exact h.sentMono
  arrived := by
    rw [harrivals, hsend, List.forall_mem_append]
    refine ⟨h.arrived, ?_⟩
    intro a ha
    rw [List.mem_singleton.mp ha]
    exact ⟨(h.sent msg hmsg).2, le_refl last⟩
  arrivedMono := by
    rw [harrivals]
    refine List.pairwise_append.mpr ⟨h.arrivedMono, List.pairwise_singleton .., ?_⟩
    intro a ha b hb
    rw [List.mem_singleton.mp hb]
    exact (h.arrived a ha).2

theorem Clocked.tick (h : Clocked s last) (hmsgs : ∀ m ∈ s.taken, m < s.stamped)
    (ht : PubSubTest.tick count a s = some t)
    (hnow : ∀ now, a = .stamp now ∨ a = .store now → now = last) : Clocked t last := by
  have harrived (b : Arrival) (hb : b ∈ s.arrivals) : b.msg < s.stamped :=
    hmsgs b.msg (List.mem_append_left _ (List.mem_map_of_mem hb))
  rcases tick_arrivals ht with harrivals | ⟨now, i, msg, rfl, hmsg, harrivals⟩
  · rcases tick_stamped ht with ⟨now, rfl, hstamped, hsend⟩ | ⟨hstamped, hsend⟩
    · rw [hnow now (.inl rfl)] at hsend
      exact h.stamp harrived hstamped hsend harrivals
    · exact {
        nonneg := h.nonneg
        le := h.le
        sent := by rw [hstamped, hsend]; exact h.sent
        sentMono := by rw [hstamped, hsend]; exact h.sentMono
        arrived := by rw [harrivals, hsend]; exact h.arrived
        arrivedMono := by rw [harrivals]; exact h.arrivedMono }
  · rw [hnow now (.inr rfl)] at harrivals
    rcases tick_stamped ht with ⟨_, hstore, -⟩ | ⟨hstamped, hsend⟩
    · cases hstore
    · exact h.receive (hmsgs msg (List.mem_append_right _ hmsg)) hstamped hsend harrivals

end Clock

section Runs
variable {count : ℕ} {qos : Qos} {ordered : Bool} {sendTimes recvTimes : ℕ → ℤ}
variable {R : ℕ → ℕ → Prop} {es : List Event} {p : Config × ℤ}

theorem Traced.taken_lt {c : Config} (hj : Joined count qos c) (h : Traced count qos R es c) :
    ∀ m ∈ c.1.taken, m < c.1.i := by
  intro m hm
  rw [h.taken] at hm
  have hdelivered := (h.mem m).mp (List.mem_of_mem_take hm)
  rw [← hj.issued]
  exact h.arranged.2 m (List.mem_append_left _ hdelivered)

/-- What a clock reading of an event says about the clock. -/
theorem reading_tick {e : Event} {u v : Config × ℤ} {now : ℤ}
    (ht : (timed count qos ordered sendTimes recvTimes).tick e u = some v)
    (hread : Event.reading e = some now) : now = v.2 ∧ u.2 ≤ now ∧ now ≤ longMax := by
  have hr := (System.sync_tick.mp ht).2
  rw [hread] at hr
  simp only [System.share, monotonicClock, Option.ite_none_right_eq_some, Option.some.injEq] at hr
  exact ⟨hr.2, hr.1.1, hr.1.2⟩

theorem clocked_tick {e : Event} {u v : Config × ℤ} (hj : Joined count qos u.1)
    (htraced : Traced count qos R es u.1) (h : Clocked u.1.1 u.2)
    (ht : (timed count qos ordered sendTimes recvTimes).tick e u = some v) :
    Clocked v.1.1 v.2 := by
  have hshare := System.sync_tick.mp ht
  have hs := (System.sync_tick.mp hshare.1).1
  have hclock : Clocked u.1.1 v.2 := by
    cases hread : Event.reading e with
    | none =>
        have hr := hshare.2
        rw [hread] at hr
        exact Option.some.inj hr ▸ h
    | some now =>
        obtain ⟨hnow, hlast, hle⟩ := reading_tick ht hread
        exact hnow ▸ h.advance hlast hle
  have hmsgs : ∀ m ∈ u.1.1.taken, m < u.1.1.stamped := by
    intro m hm
    have hi := htraced.taken_lt hj m hm
    unfold State.stamped
    split_ifs <;> omega
  cases e with
  | lose m => exact Option.some.inj hs ▸ hclock
  | redeliver m => exact Clocked.tick (a := .invoke m) hclock hmsgs hs (by simp)
  | step a =>
      apply hclock.tick hmsgs hs
      intro now ha
      exact (reading_tick ht (by rcases ha with rfl | rfl <;> rfl)).1

theorem run_facts (hlt : ∀ m n, m < n → R m n) (hne : ∀ m n, R m n → m ≠ n)
    (ho : ordered = true ∨ ∀ m n, R m n → R n m)
    (h : (timed count qos ordered sendTimes recvTimes).Run es
      (timed count qos ordered sendTimes recvTimes).init p) :
    Joined count qos p.1 ∧ Traced count qos R es p.1 ∧ Clocked p.1.1 p.2 := by
  apply h.history (P := fun es p =>
    Joined count qos p.1 ∧ Traced count qos R es p.1 ∧ Clocked p.1.1 p.2)
  · exact ⟨joined_init .., traced_init, clocked_init count sendTimes recvTimes⟩
  · intro es e u v hu ht
    obtain ⟨hj, htraced, hclocked⟩ := hu
    have hshare := System.sync_tick.mp ht
    exact ⟨hj.tick hshare.1, htraced.tick hj hlt hne ho hshare.1,
      clocked_tick hj htraced hclocked ht⟩

/-- At the statistics every slot has been stored, from the first deliveries. -/
theorem statistics_facts {c : Config} (hj : Joined count qos c)
    (htraced : Traced count qos R es c) (hs : c.1.main = .statistics) :
    c.1.i = count ∧ c.1.arrivals.map Arrival.slot = List.range count ∧
      c.1.arrivals.map Arrival.msg = (invocations es).take count := by
  have hidle := hj.program.stopped (hj.program.quiet hs)
  have hn := hj.program.passed (by simp [hs, MainPc.passed])
  refine ⟨hj.program.allPublished (by simp [hs, MainPc.published]), ?_, ?_⟩
  · rw [hj.program.slots, State.stored, hidle, hn]
  · rw [← htraced.taken, State.taken, hidle]
    simp [CallbackPc.message]

theorem eq_range_of_pairwise_lt {ms : List ℕ} {n : ℕ} (hs : ms.Pairwise (· < ·))
    (hlt : ∀ m ∈ ms, m < n) (hlen : n ≤ ms.length) : ms = List.range n := by
  have hsub : ms ⊆ List.range n := fun m hm => List.mem_range.mpr (hlt m hm)
  have hperm : ms.Perm (List.range n) :=
    (List.Nodup.subperm (hs.imp Nat.ne_of_lt) hsub).perm_of_length_le (by simpa using hlen)
  exact hperm.eq_of_pairwise (fun a b _ _ hab hba => absurd hab (Nat.lt_asymm hba)) hs
    List.pairwise_lt_range

/-- Each latency is that of its own message, and not negative. -/
def Paired (count : ℕ) (s : PubSubTest.State) : Prop :=
  ∀ i < count, (∃ time, ⟨i, i, time⟩ ∈ s.arrivals ∧ s.recvTimes i = time) ∧
    0 ≤ latency s.sendTimes s.recvTimes i

theorem Clocked.latency_eq {t : PubSubTest.State} {last : ℤ} (h : Clocked t last) {i : ℕ}
    {time : ℤ} (ha : ⟨i, i, time⟩ ∈ t.arrivals) (hi : i < t.stamped)
    (hrecv : t.recvTimes i = time) :
    latency t.sendTimes t.recvTimes i = time - t.sendTimes i ∧ 0 ≤ time - t.sendTimes i := by
  have hsent := (h.sent i hi).1
  have harrived := h.arrived _ ha
  have hle := h.le
  unfold longMax at hle
  dsimp only at harrived
  refine ⟨?_, by omega⟩
  rw [latency, hrecv]
  apply long_of_fits
  unfold Fits
  omega

theorem Paired.nodup {t : PubSubTest.State} (h : Paired count t)
    (hslots : t.arrivals.map Arrival.slot = List.range count) :
    (t.arrivals.map Arrival.msg).Nodup := by
  have hnodup : (t.arrivals.map Arrival.slot).Nodup := hslots ▸ List.nodup_range
  have heq : t.arrivals.map Arrival.msg = t.arrivals.map Arrival.slot := by
    apply List.map_congr_left
    intro a ha
    have hslot : a.slot < count := List.mem_range.mp (hslots ▸ List.mem_map_of_mem ha)
    obtain ⟨time, hmem, -⟩ := (h a.slot hslot).1
    have hsame := List.inj_on_of_nodup_map hnodup ha hmem rfl
    rw [hsame]
  rwa [heq]

/-- Messages which arrive in the order of their slots are paired with themselves. -/
theorem Clocked.paired {t : PubSubTest.State} {last : ℤ} (h : Clocked t last)
    (hinv : Invariant count t) (hi : t.i = count)
    (hslots : t.arrivals.map Arrival.slot = List.range count)
    (hmsgs : t.arrivals.map Arrival.msg = List.range count) : Paired count t := by
  have hsame (a : Arrival) (ha : a ∈ t.arrivals) : a.msg = a.slot :=
    List.map_inj_left.mp (hmsgs.trans hslots.symm) a ha
  intro i hlt
  obtain ⟨a, ha, rfl⟩ := List.mem_map.mp (hslots ▸ List.mem_range.mpr hlt :
    i ∈ t.arrivals.map Arrival.slot)
  have hrecv := hinv.recorded a ha
  have hmem : (⟨a.slot, a.slot, a.time⟩ : Arrival) ∈ t.arrivals := by
    have heta : (⟨a.slot, a.slot, a.time⟩ : Arrival) = a := by
      conv_rhs => rw [show a = ⟨a.slot, a.msg, a.time⟩ from rfl, hsame a ha]
    rwa [heta]
  have hstamped : a.slot < t.stamped := by
    unfold State.stamped
    split_ifs <;> omega
  have hlat := h.latency_eq hmem hstamped hrecv
  exact ⟨⟨a.time, hmem, hrecv⟩, by rw [hlat.1]; exact hlat.2⟩

/-- At the statistics every latency is that of its own message exactly when no
message came again among the deliveries which were counted. -/
theorem pairing_iff (h : (timed count qos true sendTimes recvTimes).Run es
      (timed count qos true sendTimes recvTimes).init p) (hs : p.1.1.main = .statistics) :
    (Paired count p.1.1 ↔ ((invocations es).take count).Nodup) ∧
      (qos ≠ .atLeastOnce → ((invocations es).take count).Nodup) := by
  obtain ⟨hj, htraced, hclocked⟩ := run_facts (R := (· < ·)) (fun _ _ hlt => hlt)
    (fun _ _ hlt => Nat.ne_of_lt hlt) (.inl rfl) h
  obtain ⟨hi, hslots, hmsgs⟩ := statistics_facts hj htraced hs
  refine ⟨⟨fun hpaired => hmsgs ▸ hpaired.nodup hslots, fun hnodup => ?_⟩, fun hq => ?_⟩
  · apply hclocked.paired hj.program hi hslots
    have hlen := congrArg List.length hslots
    rw [List.length_map, List.length_range] at hlen
    rw [hmsgs]
    apply eq_range_of_pairwise_lt (htraced.sorted count hnodup)
    · intro m hm
      rw [← htraced.taken] at hm
      exact hi ▸ htraced.taken_lt hj m hm
    · rw [← hmsgs, List.length_map, hlen]
  · exact (htraced.distinct hq).sublist (List.take_sublist count _)

theorem pairing_of_exactlyOnce : ∃ s : PubSubTest.State, Paired 2 s ∧ s.recvTimes 1 = 40 := by
  have h : ∃ p, (timed 2 .exactlyOnce true cleared cleared).Run [.step (.new .success),
      .step (.connect .success), .step (.subscribe .success), .step (.loopStart .success),
      .step (.stamp 10), .step (.publish .success), .step (.stamp 20), .step (.publish .success),
      .step .lock, .step .check, .step .wait, .step (.invoke 0), .step .increment,
      .step (.store 30), .step .compare, .step (.invoke 1), .step (.store 40), .step .increment,
      .step .compare, .step .callbackLock, .step .callbackSignal, .step .callbackUnlock,
      .step .relock, .step .check, .step .unlock, .step .loopStop]
      (timed 2 .exactlyOnce true cleared cleared).init p ∧ p.1.1.main = .statistics ∧
      p.1.1.recvTimes 1 = 40 := ⟨_, rfl, by decide, by decide⟩
  obtain ⟨p, hrun, hs, ht⟩ := h
  exact ⟨p.1.1, (pairing_iff hrun hs).1.mpr (by decide), ht⟩

/-- Message 0 comes twice before message 1 is sent, and then the run is complete. -/
def duplicated : List Event :=
  [.step (.new .success), .step (.connect .success), .step (.subscribe .success),
    .step (.loopStart .success), .step (.stamp 10), .step (.publish .success), .step (.invoke 0),
    .step .increment, .step (.store 20), .step .compare, .redeliver 0, .step .increment,
    .step (.store 30), .step .compare, .step .callbackLock, .step .callbackSignal,
    .step .callbackUnlock, .step (.stamp 40), .step (.publish .success), .step .lock,
    .step .check, .step .unlock, .step .loopStop]

theorem duplicate_shifts_pairs : ¬ ∀ (count : ℕ) (qos : Qos) (es : List Event) (p : Config × ℤ),
    (timed count qos true cleared cleared).Run es (timed count qos true cleared cleared).init p →
      p.1.1.main = .statistics →
      ∀ i < count, 0 ≤ latency p.1.1.sendTimes p.1.1.recvTimes i := by
  intro h
  have hneg := h 2 .atLeastOnce duplicated _ rfl rfl 1 (by decide)
  revert hneg
  decide

/-- Slots are stored in order and the clock does not go back. -/
theorem Clocked.time_le {t : PubSubTest.State} {last : ℤ} {n : ℕ} (h : Clocked t last)
    (hslots : t.arrivals.map Arrival.slot = List.range n) :
    ∀ a ∈ t.arrivals, ∀ b ∈ t.arrivals, a.slot ≤ b.slot → a.time ≤ b.time := by
  have hlt : t.arrivals.Pairwise fun a b => a.slot < b.slot := by
    rw [← List.pairwise_map (f := Arrival.slot), hslots]
    exact List.pairwise_lt_range
  apply List.Pairwise.forall_of_forall_of_flip (R := fun a b : Arrival =>
    a.slot ≤ b.slot → a.time ≤ b.time)
  · exact fun a _ _ => le_refl a.time
  · apply h.arrivedMono.imp
    intro a b hab _
    exact hab
  · apply hlt.imp
    intro a b hab hba
    exact absurd hab (not_lt.mpr hba)

/-- Without redelivery the statistics are those of an exchange, in whatever
order the messages come. -/
theorem exchange_of_run (hq : qos ≠ .atLeastOnce)
    (h : (timed count qos ordered sendTimes recvTimes).Run es
      (timed count qos ordered sendTimes recvTimes).init p) (hs : p.1.1.main = .statistics) :
    ∃ x : Exchange count, x.sendTimes = p.1.1.sendTimes ∧ x.recvTimes = p.1.1.recvTimes ∧
      ∀ i : Fin count, ∃ a ∈ p.1.1.arrivals, a.slot = i ∧ a.msg = x.arrival i := by
  obtain ⟨hj, htraced, hclocked⟩ := run_facts (R := (· ≠ ·)) (fun _ _ hlt => Nat.ne_of_lt hlt)
    (fun _ _ hne => hne) (.inr fun _ _ hne => hne.symm) h
  obtain ⟨hi, hslots, hmsgs⟩ := statistics_facts hj htraced hs
  have hnodup : (p.1.1.arrivals.map Arrival.msg).Nodup := by
    rw [hmsgs]
    exact (htraced.distinct hq).sublist (List.take_sublist count _)
  have hmsg (a : Arrival) (ha : a ∈ p.1.1.arrivals) : a.msg < count := by
    have htaken : a.msg ∈ p.1.1.taken := List.mem_append_left _ (List.mem_map_of_mem ha)
    exact hi ▸ htraced.taken_lt hj a.msg htaken
  have hstamped : count ≤ p.1.1.stamped := by
    unfold State.stamped
    split_ifs <;> omega
  have hslot (i : Fin count) : ∃ a ∈ p.1.1.arrivals, a.slot = i :=
    List.mem_map.mp (hslots ▸ List.mem_range.mpr i.isLt)
  choose a ha haslot using hslot
  have hrecv (i : Fin count) : p.1.1.recvTimes i = (a i).time :=
    haslot i ▸ hj.program.recorded (a i) (ha i)
  let f (i : Fin count) : Fin count := ⟨(a i).msg, hmsg (a i) (ha i)⟩
  have hinj : Function.Injective f := by
    intro i j hij
    have hsame := List.inj_on_of_nodup_map hnodup (ha i) (ha j) (Fin.mk.inj hij)
    apply Fin.ext
    rw [← haslot i, ← haslot j, hsame]
  exact ⟨{
    sendTimes := p.1.1.sendTimes
    recvTimes := p.1.1.recvTimes
    arrival := Equiv.ofBijective f (Finite.injective_iff_bijective.mp hinj)
    send_nonneg := fun i => (hclocked.sent i (lt_of_lt_of_le i.isLt hstamped)).1
    recv_le := fun i => by
      rw [hrecv]
      exact (hclocked.arrived (a i) (ha i)).2.trans hclocked.le
    send_mono := fun i j hij => hclocked.sentMono i j hij (lt_of_lt_of_le j.isLt hstamped)
    recv_mono := fun i j hij => by
      dsimp only
      rw [hrecv, hrecv]
      apply hclocked.time_le hslots (a i) (ha i) (a j) (ha j)
      rw [haslot, haslot]
      exact hij
    causal := fun i => by
      rw [hrecv]
      exact (hclocked.arrived (a i) (ha i)).1 }, rfl, rfl, fun i => ⟨a i, ha i, haslot i, rfl⟩⟩

end Runs

end MicrokernelBenchmark.PubSubPairing
