import MicrokernelBenchmark.SleepWakeEnds

/-!
# The collection is complete

A pipe holds the text of its child from the write to the parent's read and nothing
else, so the write finds room, the read finds the text or the end of the file, and
the parent reports the triple which the child has written.
-/
namespace MicrokernelBenchmark.SleepWakeProcess
open TransitionSystem FixedWidth

variable {capacity : ℕ}

structure SleepProc.Valid (i : ℕ) (c : SleepProc) : Prop where
  data : c.data.Valid i
  writing : c.pc.writing → c.wrote = none
  wrote : ∀ d ∈ c.wrote, d.Valid i

theorem SleepProc.Valid.of_not_writing {i : ℕ} {c : SleepProc} (hdata : c.data.Valid i)
    (hpc : c.pc.writing = false) (hwrote : ∀ d ∈ c.wrote, d.Valid i) : c.Valid i :=
  ⟨hdata, fun h => absurd (hpc.symm.trans h) Bool.false_ne_true, hwrote⟩

/-- What child `k` has written. -/
def State.written (s : State capacity) (k : ℕ) : Option SleepProcData :=
  (s.sleeps k).bind SleepProc.wrote

/-- What is to be reported for slot `k`. -/
def State.expected (s : State capacity) (k : ℕ) : Report :=
  match s.written k with
  | some d => .result d
  | none => .noData k

/-- A pipe holds what its child has written until the parent reads it. -/
structure Contents (n : ℕ) (s : State capacity) : Prop where
  valid : ∀ i, ∀ c ∈ s.sleeps i, c.Valid i
  buffers : ∀ k, ∀ p ∈ s.pipes k,
    p.buffer.items = if s.parent.unread k then ((s.written k).map text).getD [] else []
  reports : s.reports = (List.range (s.parent.reported n)).map s.expected

section ContentsSteps
variable {n m i j : ℕ} {s t : State capacity} {c : SleepProc}

theorem ParentPc.unread_eq_true {pc : ParentPc} (h : pc.waited = false) (k : ℕ) :
    pc.unread k = true := by
  cases pc with
  | pipe | forkSleep | forkLoad | closeWrite | wait => rfl
  | read | closeRead | exited => cases h

theorem ParentPc.reported_eq_zero {pc : ParentPc} (h : pc.waited = false) (n : ℕ) :
    pc.reported n = 0 := by
  cases pc with
  | pipe | forkSleep | forkLoad | closeWrite | wait => rfl
  | read | closeRead | exited => cases h

theorem contents_init (n : ℕ) : Contents n ({} : State capacity) where
  valid := by simp
  buffers := by simp
  reports := rfl

theorem Contents.written_valid (h : Contents n s) {d : SleepProcData} (hd : d ∈ s.written i) :
    d.Valid i := by
  obtain ⟨c, hc, hwrote⟩ := Option.bind_eq_some_iff.mp hd
  exact (h.valid i c hc).wrote d hwrote

/-- Before the end of the wait, nothing is read and nothing reported. -/
theorem Contents.of_not_waited (h : Contents n s) (hwaited : t.parent.waited = false)
    (hreports : t.reports = s.reports) (hold : s.parent.waited = false)
    (hvalid : ∀ i, ∀ c ∈ t.sleeps i, c.Valid i)
    (hbuffers : ∀ k, ∀ p ∈ t.pipes k, p.buffer.items = ((t.written k).map text).getD []) :
    Contents n t where
  valid := hvalid
  buffers k p hp := by rw [if_pos (ParentPc.unread_eq_true hwaited k), hbuffers k p hp]
  reports := by
    rw [hreports, h.reports, ParentPc.reported_eq_zero hwaited, ParentPc.reported_eq_zero hold]
    rfl

theorem Contents.buffer_eq (h : Contents n s) (hwaited : s.parent.waited = false) {k : ℕ}
    {p : Channel capacity} (hp : p ∈ s.pipes k) :
    p.buffer.items = ((s.written k).map text).getD [] := by
  rw [h.buffers k p hp, if_pos (ParentPc.unread_eq_true hwaited k)]

/-- A step which changes no buffer and no history. -/
theorem Contents.keep (h : Contents n s) (hparent : t.parent = s.parent)
    (hreports : t.reports = s.reports) (hvalid : ∀ i, ∀ c ∈ t.sleeps i, c.Valid i)
    (hwritten : ∀ k, t.written k = s.written k)
    (hbuffers : ∀ k, ∀ p' ∈ t.pipes k, ∃ p ∈ s.pipes k, p'.buffer = p.buffer) :
    Contents n t where
  valid := hvalid
  buffers k p' hp' := by
    obtain ⟨p, hp, hbuffer⟩ := hbuffers k p' hp'
    rw [hbuffer, h.buffers k p hp, hwritten, hparent]
  reports := by
    have hexpected : t.expected = s.expected := by
      funext k
      rw [State.expected, State.expected, hwritten]
    rw [hreports, h.reports, hparent, hexpected]

theorem valid_setSleep (h : ∀ i, ∀ c ∈ s.sleeps i, c.Valid i) (hc : c.Valid i) :
    ∀ k, ∀ c' ∈ (s.setSleep i c).sleeps k, c'.Valid k := by
  intro k c' hc'
  by_cases hk : k = i
  · subst hk
    simp only [State.setSleep, Function.update_self, Option.mem_some_iff] at hc'
    exact hc' ▸ hc
  · simp only [State.setSleep, Function.update_of_ne hk] at hc'
    exact h k c' hc'

theorem written_setSleep (c : SleepProc) (k : ℕ) :
    (s.setSleep i c).written k = if k = i then c.wrote else s.written k := by
  by_cases hk : k = i
  · simp [State.written, State.setSleep, hk]
  · simp [State.written, State.setSleep, hk]

theorem written_setSleep_of_eq {c' : SleepProc} (hc : s.sleeps i = some c)
    (h : c'.wrote = c.wrote) (k : ℕ) : (s.setSleep i c').written k = s.written k := by
  rw [written_setSleep]
  split
  case isTrue hk => simp [hk, State.written, hc, h]
  case isFalse => rfl

/-- A sleep process moves without writing. -/
theorem Contents.setSleep (h : Contents n s) (c' : SleepProc) (hc : s.sleeps i = some c)
    (hvalid : c'.Valid i) (hwrote : c'.wrote = c.wrote) {f : ℕ → Option (Channel capacity)}
    (hbuffers : ∀ k, ∀ p' ∈ f k, ∃ p ∈ s.pipes k, p'.buffer = p.buffer) :
    Contents n ({ s with pipes := f }.setSleep i c') :=
  h.keep rfl rfl (valid_setSleep (s := { s with pipes := f }) h.valid hvalid)
    (written_setSleep_of_eq (s := { s with pipes := f }) hc hwrote) hbuffers

theorem Contents.sleepMove (h : Contents n s) (hends : Ends n m s) (hc : s.sleeps i = some c)
    (hmove : SleepMove s i c t) : Contents n t := by
  obtain ⟨hdata, hwriting, hwrote⟩ := h.valid i c hc
  cases hmove with
  | silent c' halive halive' hpc hsame hnew =>
      have hdata' : c'.data.Valid i := by
        rcases hnew with hold | ⟨x, y, hnew⟩
        · rwa [hold]
        · rw [hnew]
          exact hdata.sample x y
      refine h.setSleep c' hc ⟨hdata', fun hpc' => ?_, ?_⟩ hsame fun k p hp => ⟨p, hp, rfl⟩
      · rw [hsame, hwriting (hpc hpc')]
      · rwa [hsame]
  | closeRead hpc =>
      refine h.setSleep { c with pc := .testStart } hc
        ⟨hdata, fun _ => hwriting (by rw [hpc]; rfl), hwrote⟩ rfl ?_
      intro k p' hp'
      obtain ⟨p, hp, rfl | rfl⟩ := mem_mapPipe hp'
      · exact ⟨p, hp, rfl⟩
      · exact ⟨p', hp, rfl⟩
  | write p p' hpc hp hwrite =>
      have hwaited : s.parent.waited = false := by
        by_contra hwaited
        exact hends.waited (by simpa using hwaited) (.sleep i) ⟨c, hc, by rw [hpc]; rfl⟩
      have hnone : s.written i = none := by
        rw [State.written, hc, Option.bind_some, hwriting (by rw [hpc]; rfl)]
      obtain ⟨hbuffer, -, -⟩ := Pipe.writeAll_eq_done hwrite
      have hvalid : ({ c with pc := .close, wrote := some c.data } : SleepProc).Valid i :=
        .of_not_writing hdata rfl fun d hd => Option.mem_some_iff.mp hd ▸ hdata
      refine h.of_not_waited hwaited rfl hwaited
        (valid_setSleep (s := s.setPipe i p') h.valid hvalid) fun k r hr => ?_
      rw [written_setSleep]
      by_cases hk : k = i
      · subst hk
        simp only [State.setSleep, State.setPipe, Function.update_self, Option.mem_some_iff] at hr
        rw [← hr, hbuffer, h.buffer_eq hwaited hp, hnone]
        simp
      · simp only [State.setSleep, State.setPipe, Function.update_of_ne hk] at hr
        rw [if_neg hk, h.buffer_eq hwaited hr]
        rfl
  | close hpc =>
      refine h.setSleep { c with pc := .exit } hc (.of_not_writing hdata rfl hwrote) rfl ?_
      intro k p' hp'
      obtain ⟨p, hp, rfl | rfl⟩ := mem_mapPipe hp'
      · exact ⟨p, hp, rfl⟩
      · exact ⟨p', hp, rfl⟩
  | exit e halive =>
      refine h.setSleep { c with pc := .exited e } hc (.of_not_writing hdata rfl hwrote) rfl ?_
      intro k p' hp'
      obtain ⟨p, hp, rfl⟩ := Option.map_eq_some_iff.mp hp'
      exact ⟨p, hp, rfl⟩

theorem Contents.loadMove (h : Contents n s) {l : LoadPc} (hmove : LoadMove s j l t) :
    Contents n t := by
  cases hmove with
  | silent l' => exact h.keep rfl rfl h.valid (fun _ => rfl) fun k p hp => ⟨p, hp, rfl⟩
  | exit e =>
      refine h.keep rfl rfl h.valid (fun _ => rfl) fun k p' hp' => ?_
      obtain ⟨p, hp, rfl⟩ := Option.map_eq_some_iff.mp hp'
      exact ⟨p, hp, rfl⟩

theorem Contents.reapSleep (h : Contents n s) (hc : s.sleeps i = some c) :
    Contents n (s.setSleep i { c with pc := .reaped }) := by
  obtain ⟨hdata, -, hwrote⟩ := h.valid i c hc
  exact h.setSleep { c with pc := .reaped } hc (.of_not_writing hdata rfl hwrote) rfl
    fun _ p hp => ⟨p, hp, rfl⟩

theorem Contents.reapLoad (h : Contents n s) : Contents n (s.setLoad j .reaped) :=
  h.keep rfl rfl h.valid (fun _ => rfl) fun _ p hp => ⟨p, hp, rfl⟩

theorem Contents.pipe (h : Contents n s) (hends : Ends n m s) (hp : s.parent = .pipe i) :
    Contents n { s.setPipe i { readers := {.parent}, writers := {.parent} } with
      parent := .forkSleep i } := by
  have hwaited : s.parent.waited = false := by rw [hp]; rfl
  have hnone : s.sleeps i = none := by
    rw [← Option.not_isSome_iff_eq_none, hends.sleeps, hp]
    exact lt_irrefl i
  refine h.of_not_waited rfl rfl hwaited h.valid fun k p hpipe => ?_
  by_cases hk : k = i
  · subst hk
    simp only [State.setPipe, Function.update_self, Option.mem_some_iff] at hpipe
    have hwritten : s.written k = none := by rw [State.written, hnone, Option.bind_none]
    have hitems : ([] : List UInt8) = ((s.written k).map text).getD [] := by rw [hwritten]; rfl
    rw [← hpipe]
    exact hitems
  · simp only [State.setPipe, Function.update_of_ne hk] at hpipe
    exact h.buffer_eq hwaited hpipe

theorem Contents.forkSleep (h : Contents n s) (hends : Ends n m s) (hp : s.parent = .forkSleep i)
    (hc : c.Valid i) (hwrote : c.wrote = none) :
    Contents n { (s.inherit (.sleep i)).setSleep i c with parent := .pipe (i + 1) } := by
  have hwaited : s.parent.waited = false := by rw [hp]; rfl
  have hnone : s.sleeps i = none := by
    rw [← Option.not_isSome_iff_eq_none, hends.sleeps, hp]
    exact lt_irrefl i
  have hwritten : ∀ k, ((s.inherit (.sleep i)).setSleep i c).written k = s.written k := by
    intro k
    rw [written_setSleep]
    split
    case isTrue hk => simp [hk, hwrote, State.written, hnone]
    case isFalse => rfl
  refine h.of_not_waited rfl rfl hwaited (valid_setSleep (s := s.inherit _) h.valid hc)
    fun k p' hp' => ?_
  obtain ⟨p, hpipe, rfl⟩ := Option.map_eq_some_iff.mp hp'
  have hk := hwritten k
  rw [State.written] at hk ⊢
  have hitems := h.buffer_eq hwaited hpipe
  rw [hk]
  exact hitems

/-- The pipe which is read next has not been read. -/
theorem Contents.items_of_read (h : Contents n s) (hp : s.parent = .read i)
    {p : Channel capacity} (hpipe : p ∈ s.pipes i) :
    p.buffer.items = ((s.written i).map text).getD [] := by
  have hunread : s.parent.unread i = true := by
    rw [hp]
    exact decide_eq_true le_rfl
  rw [h.buffers i p hpipe, if_pos hunread]

/-- The other pipes are read or unread as before. -/
theorem Contents.buffers_of_ne (h : Contents n s) (hp : s.parent = .read i) {k : ℕ} (hk : k ≠ i)
    {p : Channel capacity} (hpipe : p ∈ s.pipes k) : p.buffer.items =
      if ParentPc.unread k (.closeRead i) then ((s.written k).map text).getD [] else [] := by
  have hsame : ParentPc.unread k (.read i) = ParentPc.unread k (.closeRead i) :=
    decide_eq_decide.mpr (by omega)
  rw [h.buffers k p hpipe, hp, hsame]

/-- What is read from pipe `i` is reported as expected. -/
theorem Contents.report_eq (h : Contents n s) (hi : i ≤ 2147483647) (hp : s.parent = .read i)
    {p p' : Channel capacity} {buf : List UInt8} (hpipe : p ∈ s.pipes i)
    (hread : p.readUpTo (bufferSize - 1) = .done (buf, p')) :
    report i buf = some (s.expected i) ∧ p'.buffer.items = [] := by
  have hitems := h.items_of_read hp hpipe
  rw [State.expected]
  cases hwritten : s.written i with
  | none =>
      rw [hwritten] at hitems
      rw [Pipe.readUpTo_nil hitems] at hread
      split at hread <;> cases hread
  | some d =>
      rw [hwritten, Option.map_some, Option.getD_some] at hitems
      have hd := h.written_valid hwritten
      have hlength : p.buffer.items.length ≤ bufferSize - 1 := by
        rw [hitems]
        exact Nat.le_sub_one_of_lt (length_text_lt hi hd)
      rw [Pipe.readUpTo_all (hitems ▸ text_ne_nil d) hlength] at hread
      obtain ⟨hbuf, hp'⟩ := Prod.mk.inj (Transfer.done.inj hread)
      rw [← hbuf, hitems, ← hp']
      exact ⟨report_text hi hd i, rfl⟩

theorem Contents.expected_of_closed (h : Contents n s) (hp : s.parent = .read i)
    {p : Channel capacity} (hpipe : p ∈ s.pipes i)
    (hread : p.readUpTo (bufferSize - 1) = .closed) :
    s.expected i = .noData i ∧ p.buffer.items = [] := by
  have hnil := Pipe.readUpTo_eq_closed hread
  have hitems := h.items_of_read hp hpipe
  rw [hnil] at hitems
  refine ⟨?_, hnil⟩
  rw [State.expected]
  cases hwritten : s.written i with
  | none => rfl
  | some d =>
      rw [hwritten] at hitems
      exact absurd hitems.symm (text_ne_nil d)

/-- The report for slot `i` follows those for the slots before it. -/
theorem Contents.reports_succ (h : Contents n s) (hp : s.parent = .read i) :
    s.reports ++ [s.expected i] = (List.range (i + 1)).map s.expected := by
  rw [h.reports, hp, List.range_succ, List.map_append]
  rfl

theorem Contents.parentMove (h : Contents n s) (hn : n ≤ 2147483647) (hends : Ends n m s)
    (hmove : ParentMove n m s t) : Contents n t := by
  cases hmove with
  | pipe i hp hi => exact h.pipe hends hp
  | forkSleep i hp =>
      have hfits : Fits 0 := by decide
      exact h.forkSleep hends hp ⟨⟨rfl, hfits, hfits⟩, fun _ => rfl, nofun⟩ rfl
  | forkLoad j hp hj =>
      have hwaited : s.parent.waited = false := by rw [hp]; rfl
      refine h.of_not_waited rfl rfl hwaited h.valid fun k p' hp' => ?_
      obtain ⟨p, hpipe, rfl⟩ := Option.map_eq_some_iff.mp hp'
      have hitems := h.buffer_eq hwaited hpipe
      exact hitems
  | piped i hp | forked j hp | closed i hp =>
      have hwaited : s.parent.waited = false := by rw [hp]; rfl
      exact h.of_not_waited rfl rfl hwaited h.valid fun k p => h.buffer_eq hwaited
  | closeWrite i hp =>
      have hwaited : s.parent.waited = false := by rw [hp]; rfl
      refine h.of_not_waited rfl rfl hwaited h.valid fun k p' hp' => ?_
      obtain ⟨p, hpipe, rfl | rfl⟩ := mem_mapPipe hp'
      all_goals
        have hitems := h.buffer_eq hwaited hpipe
        exact hitems
  | waited hp hnone =>
      have hreports := h.reports
      rw [hp] at hreports
      refine ⟨h.valid, fun k p hpipe => ?_, hreports⟩
      rw [h.buffers k p hpipe, hp]
      simp [ParentPc.unread]
      rfl
  | readNone i p hp hi hpipe hread =>
      obtain ⟨hexpected, hnil⟩ := h.expected_of_closed hp hpipe hread
      refine ⟨h.valid, fun k u hu => ?_, hexpected ▸ h.reports_succ hp⟩
      by_cases hk : k = i
      · subst hk
        have hup : u = p := Option.some.inj (hu.symm.trans hpipe)
        simp [hup, hnil, ParentPc.unread]
      · exact h.buffers_of_ne hp hk hu
  | read i p p' buf r hp hi hpipe hread hr =>
      obtain ⟨hreport, hnil⟩ := h.report_eq (by omega) hp hpipe hread
      have hr' : s.expected i = r := Option.some.inj (hreport.symm.trans hr)
      refine ⟨h.valid, fun k u hu => ?_, hr' ▸ h.reports_succ hp⟩
      by_cases hk : k = i
      · subst hk
        simp only [State.setPipe, Function.update_self, Option.mem_some_iff] at hu
        simp [← hu, hnil, ParentPc.unread]
      · simp only [State.setPipe, Function.update_of_ne hk] at hu
        exact h.buffers_of_ne hp hk hu
  | collected i hp hi =>
      have hrange : i ≤ n := by simpa [hp, ParentPc.InRange] using hends.inRange
      have hin : i = n := by omega
      have hreports := h.reports
      rw [hp, hin] at hreports
      refine ⟨h.valid, fun k p' hp' => ?_, hreports⟩
      obtain ⟨p, hpipe, rfl⟩ := Option.map_eq_some_iff.mp hp'
      have hk : k < n := by
        have hsome := (hends.pipes k).mp (Option.isSome_of_mem hpipe)
        rwa [hp] at hsome
      have hread : ¬ i ≤ k := by omega
      have hitems := h.buffers k p hpipe
      rw [hp] at hitems
      simp only [ParentPc.unread, hread, decide_false, Bool.false_eq_true, if_false] at hitems
      exact hitems
  | closeRead i hp =>
      have hreports := h.reports
      rw [hp] at hreports
      refine ⟨h.valid, fun k p' hp' => ?_, hreports⟩
      have hitems : ∀ p ∈ s.pipes k, p.buffer.items =
          if ParentPc.unread k (.read (i + 1)) then ((s.written k).map text).getD [] else [] := by
        intro p hpipe
        rw [h.buffers k p hpipe, hp]
        rfl
      obtain ⟨p, hpipe, rfl | rfl⟩ := mem_mapPipe hp'
      · exact hitems p hpipe
      · exact hitems p' hpipe

end ContentsSteps

structure Invariant (n m : ℕ) (s : State capacity) : Prop where
  ends : Ends n m s
  contents : Contents n s

section Runs
variable {expired : Timespec → Timespec → Bool} {n m i : ℕ} {s t : State capacity}

theorem Invariant.move (h : Invariant n m s) (hn : n ≤ 2147483647) (hmove : Move n m s t) :
    Invariant n m t := by
  obtain ⟨hends, hcontents⟩ := h
  cases hmove with
  | parent hmove => exact ⟨hends.parentMove hmove, hcontents.parentMove hn hends hmove⟩
  | sleep i c hc hmove =>
      exact ⟨hends.childStep (hmove.childStep hc), hcontents.sleepMove hends hc hmove⟩
  | load j l hl hmove =>
      exact ⟨hends.childStep (hmove.childStep hl), hcontents.loadMove hmove⟩
  | reapSleep i c e hc hpc ht =>
      rw [ht]
      exact ⟨hends.childStep (childStep_reapSleep hc hpc), hcontents.reapSleep hc⟩
  | reapLoad j e hl ht =>
      rw [ht]
      exact ⟨hends.childStep (childStep_reapLoad hl), hcontents.reapLoad⟩

theorem invariant_run (hn : n ≤ 2147483647) {as : List Action}
    (h : (main capacity expired n m).Run as (main capacity expired n m).init s)
    (hok : ∀ a ∈ as, a ≠ .call .parent .failure) : Invariant n m s :=
  h.invariant (fun a => a ≠ .call .parent .failure) hok ⟨ends_init n m, contents_init n⟩
    fun _ _ _ ha hinv hstep => hinv.move hn (tick_move ha hstep)

/-- Process `q` has a step of its own in which no call fails. -/
def Proceeds (expired : Timespec → Timespec → Bool) (n m : ℕ) (s : State capacity)
    (q : Process) : Prop :=
  ∃ a : Action, a.process = q ∧ a.succeeds ∧ (main capacity expired n m).Enabled a s

theorem Ends.not_waited (h : Ends n m s) {q : Process} (hq : s.ChildAlive q) :
    s.parent.waited = false := by
  by_contra hwaited
  exact h.waited (by simpa using hwaited) q hq

theorem ParentPc.holdsRead_eq_true {pc : ParentPc} (h : pc.waited = false) (k : ℕ) :
    pc.holdsRead k = true := by
  cases pc with
  | pipe | forkSleep | forkLoad | closeWrite | wait => rfl
  | read | closeRead | exited => cases h

theorem ParentPc.forkedSleeps_le_piped (pc : ParentPc) (n : ℕ) :
    pc.forkedSleeps n ≤ pc.piped n := by
  cases pc with
  | forkSleep i => exact Nat.le_succ i
  | _ => exact le_rfl

/-- The pipe of a process which comes to its `write` is empty and has a reader. -/
theorem Invariant.writes (h : Invariant n m s) (hcapacity : 512 ≤ capacity)
    (hn : n ≤ 2147483647) {c : SleepProc} (hc : c ∈ s.sleeps i) (hpc : c.pc = .write) :
    (text c.data).length < bufferSize ∧
      ∃ p ∈ s.pipes i, ∃ q, p.writeAll (text c.data) = .done q := by
  obtain ⟨hends, hcontents⟩ := h
  obtain ⟨hdata, hwriting, -⟩ := hcontents.valid i c hc
  have hwaited := hends.not_waited (q := .sleep i) ⟨c, hc, by rw [hpc]; rfl⟩
  have hforked : i < s.parent.forkedSleeps n := (hends.sleeps i).mp (Option.isSome_of_mem hc)
  have hin : i ≤ 2147483647 := by
    have hrange := hends.inRange
    cases hp : s.parent <;> rw [hp] at hforked hrange <;>
      simp only [ParentPc.forkedSleeps, ParentPc.InRange] at hforked hrange <;> omega
  have hlength := length_text_lt hin hdata
  have hpiped : (s.pipes i).isSome :=
    (hends.pipes i).mpr (hforked.trans_le (s.parent.forkedSleeps_le_piped n))
  obtain ⟨p, hp⟩ := Option.isSome_iff_exists.mp hpiped
  have hnone : s.written i = none := by
    rw [State.written, hc, Option.bind_some, hwriting (by rw [hpc]; rfl)]
  have hempty : p.buffer.items = [] := by
    rw [hcontents.buffer_eq hwaited hp, hnone]
    rfl
  have hreader := hends.readers i p hp (ParentPc.holdsRead_eq_true hwaited i)
  refine ⟨hlength, p, hp, Pipe.exists_writeAll (Finset.ne_empty_of_mem hreader) ?_⟩
  rw [hempty, List.length_nil]
  rw [bufferSize] at hlength
  omega

/-- When the parent reads, no write end is left. -/
theorem Invariant.reads (h : Invariant n m s) (hi : i < n) (hp : s.parent = .read i) :
    ∃ p ∈ s.pipes i, p.readUpTo (bufferSize - 1) ≠ .blocked := by
  obtain ⟨hends, hcontents⟩ := h
  have hpiped : (s.pipes i).isSome := by
    rw [hends.pipes, hp]
    exact hi
  obtain ⟨p, hpipe⟩ := Option.isSome_iff_exists.mp hpiped
  refine ⟨p, hpipe, ?_⟩
  have hwriters : p.writers = ∅ := by
    rw [Finset.eq_empty_iff_forall_notMem]
    intro q hq
    rcases hends.writers i p hpipe q hq with ⟨-, hholds⟩ | halive
    · rw [hp] at hholds
      cases hholds
    · exact hends.waited (by rw [hp]; rfl) q halive
  exact Pipe.readUpTo_ne_blocked hwriters (bufferSize - 1)

theorem Invariant.child_proceeds (h : Invariant n m s) (hcapacity : 512 ≤ capacity)
    (hn : n ≤ 2147483647) {q : Process} (hq : s.ChildAlive q) : Proceeds expired n m s q := by
  cases q with
  | parent => exact hq.elim
  | sleep i =>
      obtain ⟨c, hc, halive⟩ := hq
      have hcall : ∀ t, sleepCall s i c .success = some t →
          Proceeds expired n m s (.sleep i) := by
        intro t ht
        refine ⟨.call (.sleep i) .success, rfl, rfl, ?_⟩
        simp [System.Enabled, main, tick, Option.mem_def.mp hc, ht]
      have hclock : ∀ t, sleepClock expired s i c (some ⟨0, 0⟩) = some t →
          Proceeds expired n m s (.sleep i) := by
        intro t ht
        refine ⟨.clock (.sleep i) (some ⟨0, 0⟩), rfl, rfl, ?_⟩
        simp [System.Enabled, main, tick, Option.mem_def.mp hc, ht]
      cases hpc : c.pc with
      | closeRead | close | exit =>
          apply hcall
          rw [sleepCall, hpc]
      | testStart | before | after | now =>
          apply hclock
          rw [sleepClock, hpc]
      | write =>
          obtain ⟨hlength, p, hp, p', hwrite⟩ := h.writes hcapacity hn hc hpc
          apply hcall
          rw [sleepCall, hpc, message_eq.mpr ⟨hlength, rfl⟩, Option.bind_some,
            Option.mem_def.mp hp, Option.bind_some, hwrite]
      | exited | reaped =>
          rw [hpc] at halive
          cases halive
  | load j =>
      obtain ⟨l, hl, halive⟩ := hq
      have hclock : ∀ t, loadClock expired s j l (some ⟨0, 0⟩) = some t →
          Proceeds expired n m s (.load j) := by
        intro t ht
        refine ⟨.clock (.load j) (some ⟨0, 0⟩), rfl, rfl, ?_⟩
        simp [System.Enabled, main, tick, Option.mem_def.mp hl, ht]
      cases l with
      | start => exact hclock _ rfl
      | now start counter =>
          cases hexpired : expired start ⟨0, 0⟩ with
          | true => exact hclock _ (by rw [loadClock, hexpired]; rfl)
          | false => exact hclock _ (by rw [loadClock, hexpired]; rfl)
      | loop start counter =>
          refine ⟨.call (.load j) .success, rfl, rfl, ?_⟩
          rw [System.Enabled, main]
          dsimp only
          rw [tick, Option.mem_def.mp hl, Option.bind_some, loadCall]
          split <;> rfl
      | exited | reaped => cases halive

/-- While a child is left, one is alive or one can be reaped. -/
theorem wait_proceeds (hp : s.parent = .wait) (hchild : ¬ s.NoChild n m) :
    (∃ q, s.ChildAlive q) ∨ Proceeds expired n m s .parent := by
  have hreap : ∀ q t, reap s q = some t → Proceeds expired n m s .parent := by
    intro q t ht
    refine ⟨.reap q, rfl, rfl, ?_⟩
    simp [System.Enabled, main, tick, hp, ht]
  rw [State.NoChild, not_and_or] at hchild
  rcases hchild with hchild | hchild
  · push Not at hchild
    obtain ⟨i, -, c, hc, hpc⟩ := hchild
    cases hcase : c.pc with
    | reaped => exact absurd hcase hpc
    | exited e =>
        refine .inr (hreap (.sleep i) (s.setSleep i { c with pc := .reaped }) ?_)
        rw [reap, Option.mem_def.mp hc, Option.bind_some, hcase]
    | _ => exact .inl ⟨.sleep i, c, hc, by rw [hcase]; rfl⟩
  · push Not at hchild
    obtain ⟨j, -, l, hl, hne⟩ := hchild
    cases l with
    | reaped => exact absurd rfl hne
    | exited e =>
        refine .inr (hreap (.load j) (s.setLoad j .reaped) ?_)
        rw [reap, Option.mem_def.mp hl, Option.bind_some]
    | _ => exact .inl ⟨.load j, _, hl, rfl⟩

theorem Invariant.parent_proceeds (h : Invariant n m s) (hn : n ≤ 2147483647)
    (hlive : ∀ e, s.parent ≠ .exited e) :
    s.parent = .wait ∧ (∃ q, s.ChildAlive q) ∨ Proceeds expired n m s .parent := by
  have hcall : (parentStep n m s .success).isSome → Proceeds expired n m s .parent :=
    fun hsome => ⟨.call .parent .success, rfl, rfl, hsome⟩
  cases hp : s.parent with
  | pipe i | forkLoad i | closeWrite i =>
      refine .inr (hcall ?_)
      rw [parentStep, hp]
      dsimp only
      split <;> rfl
  | forkSleep i | closeRead i =>
      refine .inr (hcall ?_)
      rw [parentStep, hp]
      rfl
  | wait =>
      by_cases hchild : s.NoChild n m
      · refine .inr (hcall ?_)
        rw [parentStep, hp]
        dsimp only
        rw [if_pos hchild]
        rfl
      · exact (wait_proceeds hp hchild).imp_left fun halive => ⟨rfl, halive⟩
  | read i =>
      refine .inr (hcall ?_)
      rw [parentStep, hp]
      dsimp only
      split
      case isTrue hi =>
        obtain ⟨p, hpipe, hblocked⟩ := h.reads hi hp
        rw [Option.mem_def.mp hpipe, Option.bind_some]
        cases hread : p.readUpTo (bufferSize - 1) with
        | blocked => exact absurd hread hblocked
        | closed => rfl
        | done r =>
            obtain ⟨buf, p'⟩ := r
            obtain ⟨hreport, -⟩ := h.contents.report_eq (by omega) hp hpipe hread
            dsimp only
            rw [hreport]
            rfl
      case isFalse => rfl
  | exited e => exact absurd hp (hlive e)

end Runs

/-- No child waits and none gets a broken pipe, the parent waits for living children only
and never in `read`, and it reports what each child has written. -/
structure Collects (expired : Timespec → Timespec → Bool) (n m : ℕ) (s : State capacity) :
    Prop where
  writes : ∀ i, ∀ c ∈ s.sleeps i, c.pc = .write →
    ∃ p ∈ s.pipes i, ∃ q, p.writeAll (text c.data) = .done q
  reads : ∀ i < n, s.parent = .read i →
    ∃ p ∈ s.pipes i, p.readUpTo (bufferSize - 1) ≠ .blocked
  child : ∀ q, s.ChildAlive q → Proceeds expired n m s q
  parent : (∀ e, s.parent ≠ .exited e) →
    s.parent = .wait ∧ (∃ q, s.ChildAlive q) ∨ Proceeds expired n m s .parent
  live : (∀ e, s.parent ≠ .exited e) →
    ∃ a : Action, a.succeeds ∧ (main capacity expired n m).Enabled a s
  procId : ∀ i, ∀ d ∈ s.written i, d.procId = i
  reports : s.reports = (List.range (s.parent.reported n)).map s.expected

/-- In every run in which the parent's calls succeed; `num_sleep_procs` is an `int`. -/
theorem collects {expired : Timespec → Timespec → Bool} {n m : ℕ} (hn : n ≤ 2147483647)
    (hcapacity : 512 ≤ capacity) {as : List Action} {s : State capacity}
    (h : (main capacity expired n m).Run as (main capacity expired n m).init s)
    (hok : ∀ a ∈ as, a ≠ .call .parent .failure) : Collects expired n m s := by
  have hinv := invariant_run hn h hok
  have hchild : ∀ q, s.ChildAlive q → Proceeds expired n m s q :=
    fun q hq => hinv.child_proceeds hcapacity hn hq
  have hproceeds : ∀ {q}, Proceeds expired n m s q →
      ∃ a : Action, a.succeeds ∧ (main capacity expired n m).Enabled a s :=
    fun ⟨a, _, hsucceeds, henabled⟩ => ⟨a, hsucceeds, henabled⟩
  refine ⟨fun i c hc hpc => (hinv.writes hcapacity hn hc hpc).2, fun i hi hp => hinv.reads hi hp,
    hchild, hinv.parent_proceeds hn, fun hlive => ?_,
    fun i d hd => (hinv.contents.written_valid hd).procId, hinv.contents.reports⟩
  rcases hinv.parent_proceeds hn hlive with ⟨-, q, hq⟩ | hparent
  · exact hproceeds (hchild q hq)
  · exact hproceeds hparent

/-- Five seconds, at readings a nanosecond apart. -/
def fiveSeconds (start now : Timespec) : Bool := 5 * nsecPerSec ≤ now.instant - start.instant

/-- The second sleep process and the load process have no clock. -/
def oneWrites : List Action :=
  List.replicate 10 (.call .parent .success) ++
  [.call (.sleep 0) .success, .clock (.sleep 0) (some ⟨0, 0⟩), .clock (.sleep 0) (some ⟨0, 0⟩),
    .clock (.sleep 0) (some ⟨0, 10000500⟩), .clock (.load 0) none,
    .clock (.sleep 0) (some ⟨6, 0⟩), .call (.sleep 0) .success, .call (.sleep 1) .success,
    .call (.sleep 0) .success, .clock (.sleep 1) none, .call (.sleep 0) .success,
    .reap (.sleep 1), .reap (.load 0), .reap (.sleep 0)] ++
  List.replicate 6 (.call .parent .success)

theorem collects_oneWrites :
    ∃ s, (main 512 fiveSeconds 2 1).Run oneWrites (main 512 fiveSeconds 2 1).init s ∧
      s.parent = .exited .success ∧ s.reports = [.result ⟨0, 500, 1⟩, .noData 1] ∧
      Collects fiveSeconds 2 1 s := by
  have hend : ((main 512 fiveSeconds 2 1).exec oneWrites (main 512 fiveSeconds 2 1).init).map
      (fun s => (s.parent, s.reports)) =
        some (.exited .success, [.result ⟨0, 500, 1⟩, .noData 1]) := by
    decide +kernel
  obtain ⟨s, hrun, hs⟩ := Option.map_eq_some_iff.mp hend
  obtain ⟨hparent, hreports⟩ := Prod.mk.inj hs
  exact ⟨s, hrun, hparent, hreports, collects (by decide) le_rfl hrun (by decide)⟩

end MicrokernelBenchmark.SleepWakeProcess
