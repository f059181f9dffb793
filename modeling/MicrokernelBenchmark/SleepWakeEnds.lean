import MicrokernelBenchmark.SleepWakeProcess

/-!
# The pipe ends of the sleeping processes

Which processes exist and which of them hold which pipe ends, in every state of a run
in which the parent's calls succeed. A child keeps the ends of the earlier pipes until
it exits, so a write end is held by the parent before it has closed it, or by a living
child; the parent keeps every read end until it has read.
-/
namespace MicrokernelBenchmark.SleepWakeProcess

variable {capacity : ℕ}

def State.ChildAlive (s : State capacity) : Process → Prop
  | .parent => False
  | .sleep i => ∃ c ∈ s.sleeps i, c.pc.alive
  | .load j => ∃ l ∈ s.loads j, l.alive

section Alive
variable {s : State capacity} {i j : ℕ} {c c' : SleepProc} {l l' : LoadPc} {q : Process}

theorem childAlive_setSleep : (s.setSleep i c').ChildAlive q ↔
    if q = .sleep i then c'.pc.alive = true else s.ChildAlive q := by
  cases q with
  | parent => simp [State.ChildAlive]
  | sleep k =>
      by_cases hk : k = i
      · subst hk
        simp [State.ChildAlive, State.setSleep]
      · simp [State.ChildAlive, State.setSleep, hk]
  | load j => simp [State.ChildAlive, State.setSleep]

theorem childAlive_setLoad : (s.setLoad j l').ChildAlive q ↔
    if q = .load j then l'.alive = true else s.ChildAlive q := by
  cases q with
  | parent => simp [State.ChildAlive]
  | sleep i => simp [State.ChildAlive, State.setLoad]
  | load k =>
      by_cases hk : k = j
      · subst hk
        simp [State.ChildAlive, State.setLoad]
      · simp [State.ChildAlive, State.setLoad, hk]

theorem childAlive_setSleep_of_eq (hc : s.sleeps i = some c) (h : c'.pc.alive = c.pc.alive) :
    (s.setSleep i c').ChildAlive q ↔ s.ChildAlive q := by
  rw [childAlive_setSleep]
  split
  case isTrue hq => simp [hq, State.ChildAlive, hc, h]
  case isFalse => rfl

theorem childAlive_setLoad_of_eq (hl : s.loads j = some l) (h : l'.alive = l.alive) :
    (s.setLoad j l').ChildAlive q ↔ s.ChildAlive q := by
  rw [childAlive_setLoad]
  split
  case isTrue hq => simp [hq, State.ChildAlive, hl, h]
  case isFalse => rfl

end Alive

/-- What the step of a child does to the pipe ends and to the other processes: no one gets
a write end, a child that does not live on has none left, and the parent keeps its ends. -/
structure ChildStep (s t : State capacity) : Prop where
  parent : t.parent = s.parent
  reports : t.reports = s.reports
  pipes : ∀ k, (t.pipes k).isSome = (s.pipes k).isSome
  sleeps : ∀ i, (t.sleeps i).isSome = (s.sleeps i).isSome
  loads : ∀ j, (t.loads j).isSome = (s.loads j).isSome
  alive : ∀ q, t.ChildAlive q → s.ChildAlive q
  ends : ∀ k, ∀ p' ∈ t.pipes k, ∃ p ∈ s.pipes k,
    (∀ q ∈ p'.writers, q ∈ p.writers ∧ (s.ChildAlive q → t.ChildAlive q)) ∧
      (.parent ∈ p.readers → .parent ∈ p'.readers)

section ChildSteps
variable {s t : State capacity} {i j k : ℕ} {c c' : SleepProc} {l l' : LoadPc}

theorem isSome_setSleep (hc : s.sleeps i = some c) :
    ((s.setSleep i c').sleeps k).isSome = (s.sleeps k).isSome := by
  by_cases hk : k = i
  · simp [State.setSleep, hk, hc]
  · simp [State.setSleep, hk]

theorem isSome_setLoad (hl : s.loads j = some l) :
    ((s.setLoad j l').loads k).isSome = (s.loads k).isSome := by
  by_cases hk : k = j
  · simp [State.setLoad, hk, hl]
  · simp [State.setLoad, hk]

theorem mem_mapPipe {f : Channel capacity → Channel capacity} {p' : Channel capacity}
    (h : p' ∈ (s.mapPipe i f).pipes k) : ∃ p ∈ s.pipes k, p' = f p ∨ p' = p := by
  obtain ⟨p, hp, rfl⟩ := Option.map_eq_some_iff.mp h
  refine ⟨p, hp, ?_⟩
  dsimp only
  split
  · exact .inl rfl
  · exact .inr rfl

/-- A sleep process lives on, with one pipe changed or none. -/
theorem ChildStep.setSleep (hc : s.sleeps i = some c) (h : c'.pc.alive = c.pc.alive)
    (f : ℕ → Option (Channel capacity)) (hsome : ∀ k, (f k).isSome = (s.pipes k).isSome)
    (hends : ∀ k, ∀ p' ∈ f k, ∃ p ∈ s.pipes k,
      p'.writers ⊆ p.writers ∧ (.parent ∈ p.readers → .parent ∈ p'.readers)) :
    ChildStep s ({ s with pipes := f }.setSleep i c') where
  parent := rfl
  reports := rfl
  pipes := hsome
  sleeps k := isSome_setSleep (s := { s with pipes := f }) hc
  loads k := rfl
  alive q hq := (childAlive_setSleep_of_eq (s := { s with pipes := f }) hc h).mp hq
  ends k p' hp' := by
    obtain ⟨p, hp, hwriters, hreaders⟩ := hends k p' hp'
    exact ⟨p, hp, fun q hq => ⟨hwriters hq, fun halive =>
      (childAlive_setSleep_of_eq (s := { s with pipes := f }) hc h).mpr halive⟩, hreaders⟩

theorem ChildStep.setLoad (hl : s.loads j = some l) (h : l'.alive = l.alive) :
    ChildStep s (s.setLoad j l') where
  parent := rfl
  reports := rfl
  pipes _ := rfl
  sleeps _ := rfl
  loads _ := isSome_setLoad hl
  alive _ hq := (childAlive_setLoad_of_eq hl h).mp hq
  ends _ p hp := ⟨p, hp, fun _ hq =>
    ⟨hq, fun halive => (childAlive_setLoad_of_eq hl h).mpr halive⟩, id⟩

/-- A child exits, and with it go its ends of all pipes. -/
theorem ChildStep.exit {q : Process} (hq : q ≠ .parent) (hparent : t.parent = s.parent)
    (hreports : t.reports = s.reports) (hpipes : t.pipes = (s.exit q).pipes)
    (hsleeps : ∀ i, (t.sleeps i).isSome = (s.sleeps i).isSome)
    (hloads : ∀ j, (t.loads j).isSome = (s.loads j).isSome)
    (halive : ∀ r, t.ChildAlive r ↔ r ≠ q ∧ s.ChildAlive r) : ChildStep s t where
  parent := hparent
  reports := hreports
  pipes k := by
    rw [hpipes]
    exact Option.isSome_map
  sleeps := hsleeps
  loads := hloads
  alive r hr := ((halive r).mp hr).2
  ends k p' hp' := by
    rw [hpipes] at hp'
    obtain ⟨p, hp, rfl⟩ := Option.map_eq_some_iff.mp hp'
    refine ⟨p, hp, fun r hr => ?_, fun hmem => Finset.mem_erase.mpr ⟨hq.symm, hmem⟩⟩
    obtain ⟨hne, hmem⟩ := Finset.mem_erase.mp hr
    exact ⟨hmem, fun hold => (halive r).mpr ⟨hne, hold⟩⟩

theorem SleepMove.childStep (h : SleepMove s i c t) (hc : s.sleeps i = some c) :
    ChildStep s t := by
  cases h with
  | silent c' halive halive' =>
      exact .setSleep hc (halive'.trans halive.symm) s.pipes (fun _ => rfl)
        fun k p hp => ⟨p, hp, subset_rfl, id⟩
  | closeRead hpc =>
      apply ChildStep.setSleep hc (by rw [hpc]; rfl) _ fun k => Option.isSome_map
      intro k p' hp'
      obtain ⟨p, hp, rfl | rfl⟩ := mem_mapPipe hp'
      · exact ⟨p, hp, subset_rfl, fun hmem => Finset.mem_erase.mpr ⟨by simp, hmem⟩⟩
      · exact ⟨p', hp, subset_rfl, id⟩
  | write p p' hpc hp hwrite =>
      obtain ⟨-, hreaders, hwriters⟩ := Pipe.writeAll_eq_done hwrite
      apply ChildStep.setSleep hc (by rw [hpc]; rfl) (Function.update s.pipes i (some p'))
      · intro k
        by_cases hk : k = i
        · simp [hk, hp]
        · simp [hk]
      · intro k r hr
        by_cases hk : k = i
        · subst hk
          rw [Function.update_self, Option.mem_some_iff] at hr
          subst hr
          exact ⟨p, hp, hwriters.subset, fun hmem => hreaders ▸ hmem⟩
        · rw [Function.update_of_ne hk] at hr
          exact ⟨r, hr, subset_rfl, id⟩
  | close hpc =>
      apply ChildStep.setSleep hc (by rw [hpc]; rfl) _ fun k => Option.isSome_map
      intro k p' hp'
      obtain ⟨p, hp, rfl | rfl⟩ := mem_mapPipe hp'
      · exact ⟨p, hp, Finset.erase_subset _ _, id⟩
      · exact ⟨p', hp, subset_rfl, id⟩
  | exit e halive =>
      refine .exit (q := .sleep i) nofun rfl rfl rfl
        (fun k => isSome_setSleep (s := s.exit _) hc) (fun _ => rfl) fun r => ?_
      rw [State.exitSleep, childAlive_setSleep]
      split
      case isTrue hr => exact iff_of_false Bool.false_ne_true fun h => h.1 hr
      case isFalse hr => exact (and_iff_right hr).symm

theorem LoadMove.childStep (h : LoadMove s j l t) (hl : s.loads j = some l) :
    ChildStep s t := by
  cases h with
  | silent l' halive halive' => exact .setLoad hl (halive'.trans halive.symm)
  | exit e halive =>
      refine .exit (q := .load j) nofun rfl rfl rfl (fun _ => rfl)
        (fun k => isSome_setLoad (s := s.exit _) hl) fun r => ?_
      rw [State.exitLoad, childAlive_setLoad]
      split
      case isTrue hr => exact iff_of_false Bool.false_ne_true fun h => h.1 hr
      case isFalse hr => exact (and_iff_right hr).symm

theorem childStep_reapSleep {e : Exit} (hc : s.sleeps i = some c) (hpc : c.pc = .exited e) :
    ChildStep s (s.setSleep i { c with pc := .reaped }) :=
  .setSleep hc (by rw [hpc]; rfl) s.pipes (fun _ => rfl) fun _ p hp => ⟨p, hp, subset_rfl, id⟩

theorem childStep_reapLoad {e : Exit} (hl : s.loads j = some (.exited e)) :
    ChildStep s (s.setLoad j .reaped) := by
  have heq : LoadPc.reaped.alive = (LoadPc.exited e).alive := rfl
  exact .setLoad hl heq

end ChildSteps

namespace ParentPc

def InRange (n m : ℕ) : ParentPc → Prop
  | .pipe i | .closeWrite i | .read i => i ≤ n
  | .forkSleep i | .closeRead i => i < n
  | .forkLoad j => j ≤ m
  | .wait | .exited _ => True

/-- The number of pipes made so far. -/
def piped (n : ℕ) : ParentPc → ℕ
  | .pipe i => i
  | .forkSleep i => i + 1
  | _ => n

def forkedSleeps (n : ℕ) : ParentPc → ℕ
  | .pipe i | .forkSleep i => i
  | _ => n

def forkedLoads (m : ℕ) : ParentPc → ℕ
  | .pipe _ | .forkSleep _ => 0
  | .forkLoad j => j
  | _ => m

def holdsWrite (k : ℕ) : ParentPc → Bool
  | .pipe _ | .forkSleep _ | .forkLoad _ => true
  | .closeWrite i => i ≤ k
  | _ => false

def holdsRead (k : ℕ) : ParentPc → Bool
  | .read i | .closeRead i => i ≤ k
  | .exited _ => false
  | _ => true

def waited : ParentPc → Bool
  | .read _ | .closeRead _ | .exited _ => true
  | _ => false

def unread (k : ℕ) : ParentPc → Bool
  | .read i => i ≤ k
  | .closeRead i => i < k
  | .exited _ => false
  | _ => true

/-- The number of slots reported so far. -/
def reported (n : ℕ) : ParentPc → ℕ
  | .read i => i
  | .closeRead i => i + 1
  | .exited _ => n
  | _ => 0

end ParentPc

/-- Who exists and who holds which end. Only children that are alive hold write ends which
they got by inheritance, so none is left when the parent reads. -/
structure Ends (n m : ℕ) (s : State capacity) : Prop where
  inRange : s.parent.InRange n m
  pipes : ∀ k, (s.pipes k).isSome ↔ k < s.parent.piped n
  sleeps : ∀ i, (s.sleeps i).isSome ↔ i < s.parent.forkedSleeps n
  loads : ∀ j, (s.loads j).isSome ↔ j < s.parent.forkedLoads m
  writers : ∀ k, ∀ p ∈ s.pipes k, ∀ q ∈ p.writers,
    q = .parent ∧ s.parent.holdsWrite k ∨ s.ChildAlive q
  readers : ∀ k, ∀ p ∈ s.pipes k, s.parent.holdsRead k → .parent ∈ p.readers
  waited : s.parent.waited → ∀ q, ¬ s.ChildAlive q

section EndsSteps
variable {n m : ℕ} {s t : State capacity}

theorem ends_init (n m : ℕ) : Ends n m ({} : State capacity) where
  inRange := Nat.zero_le n
  pipes k := by simp [ParentPc.piped]
  sleeps i := by simp [ParentPc.forkedSleeps]
  loads j := by simp [ParentPc.forkedLoads]
  writers := by simp
  readers := by simp
  waited := by simp [ParentPc.waited]

theorem Ends.childStep (h : Ends n m s) (hstep : ChildStep s t) : Ends n m t where
  inRange := hstep.parent ▸ h.inRange
  pipes k := by rw [hstep.pipes, hstep.parent, h.pipes]
  sleeps i := by rw [hstep.sleeps, hstep.parent, h.sleeps]
  loads j := by rw [hstep.loads, hstep.parent, h.loads]
  writers k p' hp' q hq := by
    obtain ⟨p, hp, hwriters, -⟩ := hstep.ends k p' hp'
    obtain ⟨hmem, halive⟩ := hwriters q hq
    rw [hstep.parent]
    exact (h.writers k p hp q hmem).imp_right halive
  readers k p' hp' hholds := by
    obtain ⟨p, hp, -, hreaders⟩ := hstep.ends k p' hp'
    exact hreaders (h.readers k p hp (hstep.parent ▸ hholds))
  waited hwaited q hq := h.waited (hstep.parent ▸ hwaited) q (hstep.alive q hq)

/-- The parent goes on after the fork loops, with its own ends closed or kept. -/
theorem Ends.advance (h : Ends n m s) {pc : ParentPc} {f : ℕ → Option (Channel capacity)}
    {reports : List Report} (hrange : pc.InRange n m) (hpiped : pc.piped n = s.parent.piped n)
    (hsleeps : pc.forkedSleeps n = s.parent.forkedSleeps n)
    (hloads : pc.forkedLoads m = s.parent.forkedLoads m)
    (hsome : ∀ k, (f k).isSome = (s.pipes k).isSome)
    (hends : ∀ k < s.parent.piped n, ∀ p' ∈ f k, ∃ p ∈ s.pipes k, p'.writers ⊆ p.writers ∧
      (.parent ∈ p'.writers → s.parent.holdsWrite k → pc.holdsWrite k) ∧
      (pc.holdsRead k → s.parent.holdsRead k ∧ (.parent ∈ p.readers → .parent ∈ p'.readers)))
    (hwaited : pc.waited → ∀ q, ¬ s.ChildAlive q) :
    Ends n m { s with pipes := f, parent := pc, reports := reports } := by
  have hlt : ∀ {k p}, p ∈ f k → k < s.parent.piped n := by
    intro k p hp
    rw [← h.pipes, ← hsome, hp]
    rfl
  refine ⟨hrange, fun k => ?_, fun i => ?_, fun j => ?_, ?_, ?_, hwaited⟩
  · rw [hsome, h.pipes, hpiped]
  · rw [h.sleeps, hsleeps]
  · rw [h.loads, hloads]
  · intro k p' hp' q hq
    obtain ⟨p, hp, hwriters, hwrite, -⟩ := hends k (hlt hp') p' hp'
    rcases h.writers k p hp q (hwriters hq) with ⟨rfl, hholds⟩ | halive
    · exact .inl ⟨rfl, hwrite hq hholds⟩
    · exact .inr halive
  · intro k p' hp' hholds
    obtain ⟨p, hp, -, -, hread⟩ := hends k (hlt hp') p' hp'
    obtain ⟨hold, hkeep⟩ := hread hholds
    exact hkeep (h.readers k p hp hold)

theorem Ends.not_childAlive (h : Ends n m s) (hwait : s.parent = .wait) (hnone : s.NoChild n m)
    (q : Process) : ¬ s.ChildAlive q := by
  obtain ⟨hsleeps, hloads⟩ := hnone
  cases q with
  | parent => exact id
  | sleep i =>
      rintro ⟨c, hc, halive⟩
      have hi : i < n := by
        have hsome := (h.sleeps i).mp (Option.isSome_of_mem hc)
        rwa [hwait] at hsome
      rw [hsleeps i hi c hc] at halive
      cases halive
  | load j =>
      rintro ⟨l, hl, halive⟩
      have hj : j < m := by
        have hsome := (h.loads j).mp (Option.isSome_of_mem hl)
        rwa [hwait] at hsome
      rw [hloads j hj l hl] at halive
      cases halive

theorem Ends.pipe (h : Ends n m s) {i : ℕ} (hp : s.parent = .pipe i) (hi : i < n) :
    Ends n m { s.setPipe i { readers := {.parent}, writers := {.parent} } with
      parent := .forkSleep i } := by
  obtain ⟨-, hpipes, hsleeps, hloads, hwriters, hreaders, -⟩ := h
  rw [hp] at hpipes hsleeps hloads hwriters hreaders
  refine ⟨hi, fun k => ?_, hsleeps, hloads, ?_, ?_, nofun⟩
  · by_cases hk : k = i
    · simp [State.setPipe, ParentPc.piped, hk]
    · have hold := hpipes k
      simp only [ParentPc.piped] at hold ⊢
      simp only [State.setPipe, Function.update_of_ne hk, hold]
      omega
  · intro k p hpipe q hq
    by_cases hk : k = i
    · subst hk
      simp only [State.setPipe, Function.update_self, Option.mem_some_iff] at hpipe
      subst hpipe
      exact .inl ⟨Finset.mem_singleton.mp hq, rfl⟩
    · simp only [State.setPipe, Function.update_of_ne hk] at hpipe
      exact hwriters k p hpipe q hq
  · intro k p hpipe hholds
    by_cases hk : k = i
    · subst hk
      simp only [State.setPipe, Function.update_self, Option.mem_some_iff] at hpipe
      subst hpipe
      exact Finset.mem_singleton_self _
    · simp only [State.setPipe, Function.update_of_ne hk] at hpipe
      exact hreaders k p hpipe rfl

/-- A fork adds one living child, which gets a copy of every end of the parent. -/
theorem Ends.fork (h : Ends n m s) {q : Process} (hpipes : t.pipes = (s.inherit q).pipes)
    (hrange : t.parent.InRange n m) (hpiped : t.parent.piped n = s.parent.piped n)
    (hsleeps : ∀ i, (t.sleeps i).isSome ↔ i < t.parent.forkedSleeps n)
    (hloads : ∀ j, (t.loads j).isSome ↔ j < t.parent.forkedLoads m)
    (hwrite : ∀ k, t.parent.holdsWrite k = true) (hread : ∀ k, s.parent.holdsRead k = true)
    (hwaited : t.parent.waited = false)
    (halive : ∀ r, r = q ∨ s.ChildAlive r → t.ChildAlive r) : Ends n m t := by
  refine ⟨hrange, fun k => ?_, hsleeps, hloads, ?_, ?_, fun hw => ?_⟩
  · rw [hpipes, hpiped, ← h.pipes]
    simp [State.inherit, State.mapPipes]
  · intro k p' hp' r hr
    rw [hpipes] at hp'
    obtain ⟨p, hp, rfl⟩ := Option.map_eq_some_iff.mp hp'
    rcases Pipe.of_mem_inherit_writers hr with hmem | rfl
    · rcases h.writers k p hp r hmem with ⟨hparent, -⟩ | hold
      · exact .inl ⟨hparent, hwrite k⟩
      · exact .inr (halive r (.inr hold))
    · exact .inr (halive _ (.inl rfl))
  · intro k p' hp' _
    rw [hpipes] at hp'
    obtain ⟨p, hp, rfl⟩ := Option.map_eq_some_iff.mp hp'
    exact Pipe.mem_inherit_readers (h.readers k p hp (hread k))
  · rw [hwaited] at hw
    cases hw

theorem Ends.forkSleep (h : Ends n m s) {i : ℕ} (hp : s.parent = .forkSleep i) (c : SleepProc)
    (hc : c.pc.alive) : Ends n m { (s.inherit (.sleep i)).setSleep i c with
      parent := .pipe (i + 1) } := by
  have hrange := h.inRange
  have hsleeps := h.sleeps
  have hloads := h.loads
  rw [hp] at hrange hsleeps hloads
  refine h.fork (q := .sleep i) rfl hrange (by rw [hp]; rfl) (fun k => ?_) hloads (fun _ => rfl)
    (fun _ => by rw [hp]; rfl) rfl fun r hr => ?_
  · by_cases hk : k = i
    · simp [State.setSleep, ParentPc.forkedSleeps, hk]
    · have hold := hsleeps k
      simp only [ParentPc.forkedSleeps] at hold ⊢
      simp only [State.setSleep, State.inherit, State.mapPipes, Function.update_of_ne hk, hold]
      omega
  · have halive : ((s.inherit (.sleep i)).setSleep i c).ChildAlive r := by
      rw [childAlive_setSleep]
      split
      case isTrue => exact hc
      case isFalse hne => exact hr.resolve_left hne
    exact halive

theorem Ends.forkLoad (h : Ends n m s) {j : ℕ} (hp : s.parent = .forkLoad j) (hj : j < m) :
    Ends n m { (s.inherit (.load j)).setLoad j .start with parent := .forkLoad (j + 1) } := by
  have hsleeps := h.sleeps
  have hloads := h.loads
  rw [hp] at hsleeps hloads
  refine h.fork (q := .load j) rfl hj (by rw [hp]; rfl) hsleeps (fun k => ?_) (fun _ => rfl)
    (fun _ => by rw [hp]; rfl) rfl fun r hr => ?_
  · by_cases hk : k = j
    · simp [State.setLoad, ParentPc.forkedLoads, hk]
    · have hold := hloads k
      simp only [ParentPc.forkedLoads] at hold ⊢
      simp only [State.setLoad, State.inherit, State.mapPipes, Function.update_of_ne hk, hold]
      omega
  · have halive : ((s.inherit (.load j)).setLoad j .start).ChildAlive r := by
      rw [childAlive_setLoad]
      split
      case isTrue => rfl
      case isFalse hne => exact hr.resolve_left hne
    exact halive

theorem Ends.parentMove (h : Ends n m s) (hmove : ParentMove n m s t) : Ends n m t := by
  have hpipes := h.pipes
  have hdead : s.parent.waited = true → ∀ q, ¬ s.ChildAlive q := h.waited
  cases hmove with
  | pipe i hp hi => exact h.pipe hp hi
  | forkSleep i hp => exact h.forkSleep hp _ rfl
  | forkLoad j hp hj => exact h.forkLoad hp hj
  | piped i hp hi =>
      have hrange : i ≤ n := by simpa [hp, ParentPc.InRange] using h.inRange
      have hin : i = n := by omega
      refine h.advance (Nat.zero_le m) (by rw [hp, hin]; rfl) (by rw [hp, hin]; rfl)
        (by rw [hp]; rfl) (fun _ => rfl) (fun k _ p hpipe => ⟨p, hpipe, subset_rfl, ?_⟩) nofun
      exact ⟨fun _ _ => rfl, fun _ => ⟨by rw [hp]; rfl, id⟩⟩
  | forked j hp hj =>
      have hrange : j ≤ m := by simpa [hp, ParentPc.InRange] using h.inRange
      have hjm : j = m := by omega
      refine h.advance (Nat.zero_le n) (by rw [hp]; rfl) (by rw [hp]; rfl)
        (by rw [hp, hjm]; rfl) (fun _ => rfl) (fun k _ p hpipe => ⟨p, hpipe, subset_rfl, ?_⟩) nofun
      exact ⟨fun _ _ => by simp [ParentPc.holdsWrite], fun _ => ⟨by rw [hp]; rfl, id⟩⟩
  | closeWrite i hp hi =>
      refine h.advance hi (by rw [hp]; rfl) (by rw [hp]; rfl) (by rw [hp]; rfl)
        (fun _ => Option.isSome_map) (fun k _ p' hp' => ?_) nofun
      obtain ⟨p, hpipe, rfl⟩ := Option.map_eq_some_iff.mp hp'
      refine ⟨p, hpipe, ?_⟩
      rw [hp]
      by_cases hk : k = i
      · simp [hk, ParentPc.holdsRead, Finset.erase_subset]
      · simp only [hk, if_false, id, ParentPc.holdsWrite, ParentPc.holdsRead, decide_eq_true_eq]
        exact ⟨subset_rfl, fun _ hik => by omega, fun _ => ⟨trivial, fun hmem => hmem⟩⟩
  | closed i hp hi =>
      refine h.advance trivial (by rw [hp]; rfl) (by rw [hp]; rfl) (by rw [hp]; rfl)
        (fun _ => rfl) (fun k hk p hpipe => ⟨p, hpipe, subset_rfl, ?_⟩) nofun
      rw [hp] at hk ⊢
      refine ⟨fun _ hik => ?_, fun _ => ⟨rfl, id⟩⟩
      simp only [ParentPc.piped, ParentPc.holdsWrite, decide_eq_true_eq] at hk hik
      omega
  | waited hp hnone =>
      refine h.advance (Nat.zero_le n) (by rw [hp]; rfl) (by rw [hp]; rfl) (by rw [hp]; rfl)
        (fun _ => rfl) (fun k _ p hpipe => ⟨p, hpipe, subset_rfl, ?_⟩)
        fun _ => h.not_childAlive hp hnone
      rw [hp]
      exact ⟨fun _ => nofun, fun _ => ⟨rfl, id⟩⟩
  | readNone i p hp hi hpipe hread =>
      refine h.advance hi (by rw [hp]; rfl) (by rw [hp]; rfl) (by rw [hp]; rfl)
        (fun _ => rfl) (fun k _ p hpipe => ⟨p, hpipe, subset_rfl, ?_⟩)
        fun _ => hdead (by rw [hp]; rfl)
      rw [hp]
      exact ⟨fun _ => nofun, fun hholds => ⟨hholds, id⟩⟩
  | read i p p' buf r hp hi hpipe hread hr =>
      obtain ⟨hreaders, hwriters⟩ := Pipe.readUpTo_eq_done hread
      refine h.advance (f := Function.update s.pipes i (some p')) hi (by rw [hp]; rfl)
        (by rw [hp]; rfl) (by rw [hp]; rfl) (fun k => ?_) (fun k _ u hu => ?_)
        fun _ => hdead (by rw [hp]; rfl)
      · by_cases hk : k = i
        · simp [hk, hpipe]
        · simp [hk]
      · rw [hp]
        by_cases hk : k = i
        · subst hk
          rw [Function.update_self, Option.mem_some_iff] at hu
          subst hu
          exact ⟨p, hpipe, hwriters.subset, fun _ => nofun,
            fun hholds => ⟨hholds, fun hmem => hreaders ▸ hmem⟩⟩
        · rw [Function.update_of_ne hk] at hu
          exact ⟨u, hu, subset_rfl, fun _ => nofun, fun hholds => ⟨hholds, id⟩⟩
  | collected i hp hi =>
      refine h.advance trivial (by rw [hp]; rfl) (by rw [hp]; rfl) (by rw [hp]; rfl)
        (fun _ => Option.isSome_map) (fun k _ p' hp' => ?_) fun _ => hdead (by rw [hp]; rfl)
      obtain ⟨p, hpipe, rfl⟩ := Option.map_eq_some_iff.mp hp'
      exact ⟨p, hpipe, Finset.erase_subset _ _, by rw [hp]; exact fun _ => nofun, nofun⟩
  | closeRead i hp =>
      have hi : i < n := by simpa [hp, ParentPc.InRange] using h.inRange
      refine h.advance hi (by rw [hp]; rfl) (by rw [hp]; rfl) (by rw [hp]; rfl)
        (fun _ => Option.isSome_map) (fun k _ p' hp' => ?_) fun _ => hdead (by rw [hp]; rfl)
      obtain ⟨p, hpipe, rfl⟩ := Option.map_eq_some_iff.mp hp'
      refine ⟨p, hpipe, ?_⟩
      rw [hp]
      by_cases hk : k = i
      · simp [hk, ParentPc.holdsRead, ParentPc.holdsWrite]
      · simp only [hk, if_false, id, ParentPc.holdsWrite, ParentPc.holdsRead, decide_eq_true_eq]
        exact ⟨subset_rfl, fun _ => nofun, fun hik => ⟨by omega, fun hmem => hmem⟩⟩

end EndsSteps

end MicrokernelBenchmark.SleepWakeProcess
