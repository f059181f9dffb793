import MicrokernelBenchmark.NetworkAndSecurity

/-!
# Runs of the network and security program

A log follows every run: the stream that is open, and a record of the answers about
the effective user, the files and the paths, of the commands which `system` ran, of
what the streams had to deliver and of the printed values. One stream at most is open, it is
read only then and closed by the call that fits it, and no command that names
`/etc/shadow` is run by the superuser himself.

Every function is described by the record which it adds, in terms of the answers it
got: its values are those of the function which describes the check on a text.
-/
namespace MicrokernelBenchmark.SecurityRuns
open CString hiding fgets
open CallTrees NetworkAndSecurity
open LineScans (string)
open PortScan (Scan Detected)
open UploadCommand (FullPath)
open UploadFiles (maxOsLen filename Os osOf)

structure Record where
  uids : List ℕ := []
  accessed : List (Text × AccessMode × Bool) := []
  resolved : List (Text × Option Text) := []
  ran : List (Text × ℤ) := []
  delivered : List (Source × Option Text) := []
  values : List Line := []
deriving DecidableEq

namespace Record

def append (x y : Record) : Record where
  uids := x.uids ++ y.uids
  accessed := x.accessed ++ y.accessed
  resolved := x.resolved ++ y.resolved
  ran := x.ran ++ y.ran
  delivered := x.delivered ++ y.delivered
  values := x.values ++ y.values

instance : Append Record := ⟨append⟩

theorem append_assoc (x y z : Record) : x ++ y ++ z = x ++ (y ++ z) := by
  change append (append x y) z = append x (append y z)
  simp only [append, List.append_assoc]

@[simp] theorem uids_append (x y : Record) : (x ++ y).uids = x.uids ++ y.uids := rfl

@[simp] theorem accessed_append (x y : Record) :
    (x ++ y).accessed = x.accessed ++ y.accessed := rfl

@[simp] theorem resolved_append (x y : Record) :
    (x ++ y).resolved = x.resolved ++ y.resolved := rfl

@[simp] theorem ran_append (x y : Record) : (x ++ y).ran = x.ran ++ y.ran := rfl

@[simp] theorem delivered_append (x y : Record) :
    (x ++ y).delivered = x.delivered ++ y.delivered := rfl

@[simp] theorem values_append (x y : Record) : (x ++ y).values = x.values ++ y.values := rfl

end Record

structure Log where
  stream : Option Source := none
  record : Record := {}
deriving DecidableEq

/-- What `su` is asked to run as another user. -/
def asUser1 : List Text :=
  [bytes "su", bytes "-", bytes "user1", bytes "-c", shadowScript ++ bytes ";"]

/-- A command that names the file is not run by the superuser, unless it only lets `su`
run a script as another user. -/
def Spares (uid : Option ℕ) (command : Text) : Prop :=
  strstr command shadowPath = true →
    (∃ u ≠ 0, uid = some u) ∨ ShellWords.simpleCommand command = some asUser1

/-- The last answer about the effective user. -/
def Log.uid (s : Log) : Option ℕ := s.record.uids.getLast?

def Log.add (s : Log) (x : Record) : Log := { s with record := s.record ++ x }

def Log.deliver (s : Log) (fp : Source) : Option Text → Log
  | none => s.add { delivered := [(fp, none)] }
  | some text => { s.add { delivered := [(fp, some text)] } with stream := some fp }

def Log.value (s : Log) : Line → Log
  | .text _ => s
  | line => s.add { values := [line] }

def log (pathMax : ℕ) : Contract (Answer pathMax) Log where
  allows s
    | .popen _ => s.stream = none
    | .fopen _ => s.stream = none
    | .fgets fp => s.stream = some fp
    | .pclose fp => s.stream = some fp ∧ ∃ c, fp = .command c
    | .fclose fp => s.stream = some fp ∧ ∃ p, fp = .file p
    | .system c => s.stream = none ∧ Spares s.uid c
    | _ => True
  answers _ _ _ := True
  next s
    | .geteuid, u => s.add { uids := [u] }
    | .access path mode, granted => s.add { accessed := [(path, mode, granted)] }
    | .realpath path, answer => s.add { resolved := [(path, answer.map FullPath.text)] }
    | .popen c, answer => s.deliver (.command c) answer
    | .fopen p, answer => s.deliver (.file p) answer
    | .pclose _, _ => { s with stream := none }
    | .fclose _, _ => { s with stream := none }
    | .system c, status => s.add { ran := [(c, status)] }
    | .printf line, _ => s.value line
    | _, _ => s

section Calls
variable {pathMax : ℕ} {s : Log} {α : Type}

theorem wp_ask {c : Call} {Q : Answer pathMax c → Log → Prop} :
    (log pathMax).wp (ask c) s Q ↔
      (log pathMax).allows s c ∧ ∀ r, Q r ((log pathMax).next s c r) :=
  and_congr_right fun _ => forall_congr' fun _ => true_imp_iff

@[simp] theorem wp_geteuid {Q : ℕ → Log → Prop} :
    (log pathMax).wp geteuid s Q ↔ ∀ u, Q u (s.add { uids := [u] }) :=
  wp_ask.trans (iff_of_eq (true_and _))

@[simp] theorem wp_access (path : Text) (mode : AccessMode) {Q : Bool → Log → Prop} :
    (log pathMax).wp (access path mode) s Q ↔
      ∀ granted, Q granted (s.add { accessed := [(path, mode, granted)] }) :=
  wp_ask.trans (iff_of_eq (true_and _))

@[simp] theorem wp_popen (command : Text) {Q : Option Stream → Log → Prop} :
    (log pathMax).wp (popen command) s Q ↔ s.stream = none ∧ ∀ answer,
      Q (answer.map (Stream.mk (.command command))) (s.deliver (.command command) answer) := by
  rw [popen, Contract.wp_bind, wp_ask]
  rfl

@[simp] theorem wp_fopen (path : Text) {Q : Option Stream → Log → Prop} :
    (log pathMax).wp (fopen path) s Q ↔ s.stream = none ∧ ∀ answer,
      Q (answer.map (Stream.mk (.file path))) (s.deliver (.file path) answer) := by
  rw [fopen, Contract.wp_bind, wp_ask]
  rfl

@[simp] theorem wp_fgets (size : ℕ) (fp : Stream) {Q : Option (Text × Stream) → Log → Prop} :
    (log pathMax).wp (fgets size fp) s Q ↔ s.stream = some fp.source ∧
      Q ((CString.fgets size fp.text).map fun x => (string x.1, ⟨fp.source, x.2⟩)) s := by
  rw [fgets, Contract.wp_bind, wp_ask]
  exact and_congr_right fun _ => ⟨fun h => h (), fun h _ => h⟩

@[simp] theorem wp_pclose (fp : Stream) {Q : Unit → Log → Prop} :
    (log pathMax).wp (pclose fp) s Q ↔
      (s.stream = some fp.source ∧ ∃ c, fp.source = .command c) ∧
        Q () { s with stream := none } :=
  wp_ask.trans (and_congr_right fun _ => ⟨fun h => h (), fun h _ => h⟩)

@[simp] theorem wp_fclose (fp : Stream) {Q : Unit → Log → Prop} :
    (log pathMax).wp (fclose fp) s Q ↔
      (s.stream = some fp.source ∧ ∃ p, fp.source = .file p) ∧ Q () { s with stream := none } :=
  wp_ask.trans (and_congr_right fun _ => ⟨fun h => h (), fun h _ => h⟩)

@[simp] theorem wp_system (command : Text) {Q : ℤ → Log → Prop} :
    (log pathMax).wp (system command) s Q ↔ (s.stream = none ∧ Spares s.uid command) ∧
      ∀ status, Q status (s.add { ran := [(command, status)] }) :=
  wp_ask

@[simp] theorem wp_realpath (path : Text) {Q : Option (FullPath pathMax) → Log → Prop} :
    (log pathMax).wp (realpath path) s Q ↔
      ∀ answer, Q answer (s.add { resolved := [(path, answer.map FullPath.text)] }) :=
  wp_ask.trans (iff_of_eq (true_and _))

@[simp] theorem wp_remove (path : Text) {Q : Unit → Log → Prop} :
    (log pathMax).wp (remove path) s Q ↔ Q () s :=
  wp_ask.trans ⟨fun h => h.2 (), fun h => ⟨trivial, fun _ => h⟩⟩

@[simp] theorem wp_printf (line : Line) {Q : Unit → Log → Prop} :
    (log pathMax).wp (printf line) s Q ↔ Q () (s.value line) :=
  wp_ask.trans ⟨fun h => h.2 (), fun h => ⟨trivial, fun _ => h⟩⟩

@[simp] theorem wp_puts (text : String) {Q : Unit → Log → Prop} :
    (log pathMax).wp (puts text) s Q ↔ Q () s :=
  wp_printf (.text (bytes text))

@[simp] theorem wp_perror (text : String) {Q : Unit → Log → Prop} :
    (log pathMax).wp (perror text) s Q ↔ Q () s :=
  wp_ask.trans ⟨fun h => h.2 (), fun h => ⟨trivial, fun _ => h⟩⟩

@[simp] theorem wp_defined (a : Option α) {Q : α → Log → Prop} :
    (log pathMax).wp (defined a) s Q ↔ ∀ b, a = some b → Q b s := by
  cases a with
  | none => exact ⟨fun _ _ => nofun, fun _ => ⟨trivial, fun r => nomatch r⟩⟩
  | some a => exact ⟨fun h b hb => Option.some.inj hb ▸ h, fun h => h a rfl⟩

/-- A loop over the lines of an open stream keeps an invariant on the pieces left. -/
theorem wp_eachLine {size : ℕ} (hsize : 2 ≤ size) {fp : Stream}
    {body : α → Text → Prog pathMax (ForInStep α)} (inv : List Text → α → Log → Prop)
    {Q : α → Log → Prop} (hopen : ∀ ps a s, inv ps a s → s.stream = some fp.source)
    (hbody : ∀ p ps a s, inv (p :: ps) a s → (log pathMax).wp (body a (string p)) s fun r t =>
      match r with
      | .done b => Q b t
      | .yield b => inv ps b t)
    (hend : ∀ a s, inv [] a s → Q a s) {a : α} (hs : inv (pieces size fp.text) a s) :
    (log pathMax).wp (eachLine size fp a body) s Q := by
  have hloop : ∀ (fuel : ℕ) (text : Text) (a : α) (s : Log), text.length < fuel →
      inv (pieces size text) a s →
      (log pathMax).wp (whileFgets size body fuel ⟨fp.source, text⟩ a) s Q := by
    intro fuel
    induction fuel with
    | zero => exact fun _ _ _ h => absurd h (Nat.not_lt_zero _)
    | succ fuel ih =>
        intro text a s hfuel hinv
        rw [whileFgets, Contract.wp_bind, wp_fgets]
        refine ⟨hopen _ _ _ hinv, ?_⟩
        cases hget : CString.fgets size text with
        | none =>
            have htext : text = [] := by simpa [CString.fgets] using hget
            subst htext
            exact hend a s hinv
        | some x =>
            obtain ⟨line, rest⟩ := x
            rw [pieces_of_fgets hsize hget] at hinv
            have hlt := length_fgets_lt hsize hget
            change (log pathMax).wp (body a (string line) >>= _) s Q
            rw [Contract.wp_bind]
            refine Contract.wp_mono (hbody line _ a s hinv) fun r t ht => ?_
            cases r with
            | done b => exact ht
            | yield b => exact ih rest b t (by omega) ht
  exact hloop _ fp.text a s (Nat.lt_succ_self _) hs

end Calls

/-- No stream is left open, and the record has grown by `x`. -/
def Follows (s : Log) (x : Record) (t : Log) : Prop :=
  t.stream = none ∧ t.record = s.record ++ x

theorem Follows.trans {s t u : Log} {x y : Record} (h : Follows s x t) (h' : Follows t y u) :
    Follows s (x ++ y) u := by
  refine ⟨h'.1, ?_⟩
  rw [h'.2, h.2, Record.append_assoc]

theorem Follows.add {s t : Log} {x : Record} (h : Follows s x t) (y : Record) :
    Follows s (x ++ y) (t.add y) :=
  h.trans ⟨h.1, rfl⟩

theorem Record.append_empty (x : Record) : x ++ ({} : Record) = x := by
  change append x {} = x
  simp [append]

theorem Follows.refl {s : Log} (h : s.stream = none) : Follows s {} s :=
  ⟨h, s.record.append_empty.symm⟩

theorem Follows.single {s : Log} (h : s.stream = none) (x : Record) : Follows s x (s.add x) :=
  ⟨h, rfl⟩

theorem Follows.record_eq {t : Log} {x : Record} (h : Follows {} x t) : t.record = x := h.2

section Checks
variable {pathMax : ℕ} {s : Log}

theorem wp_getOsName (hs : s.stream = none) : (log pathMax).wp getOsName s fun name t =>
    ∃ uname, name = UploadFiles.getOsName uname ∧
      Follows s { delivered := [(.command unameCommand, uname)] } t := by
  rw [getOsName, Contract.wp_bind, wp_popen]
  refine ⟨hs, fun uname => ?_⟩
  cases uname with
  | none =>
      simp only [Option.map_none, Contract.wp_bind, wp_perror, Contract.wp_pure]
      exact ⟨none, rfl, hs, rfl⟩
  | some text =>
      simp only [Option.map_some, Contract.wp_bind, wp_fgets]
      refine ⟨rfl, ?_⟩
      cases hget : CString.fgets maxOsLen text with
      | none =>
          simp only [Option.map_none, Contract.wp_bind, Contract.wp_pure, wp_pclose]
          refine ⟨⟨rfl, _, rfl⟩, some text, ?_, rfl, rfl⟩
          rw [UploadFiles.getOsName, hget]
      | some x =>
          simp only [Option.map_some, Contract.wp_bind, Contract.wp_pure, wp_pclose]
          refine ⟨⟨rfl, _, rfl⟩, some text, ?_, rfl, rfl⟩
          rw [UploadFiles.getOsName, hget]
          rfl

/-- The record of a check that prints what it was answered. -/
def checked (path : Text) (granted : Bool) : Record where
  accessed := [(path, .rOk, granted)]
  values := [.access path granted]

theorem wp_checkFileAccess (path : Text) (hs : s.stream = none) :
    (log pathMax).wp (checkFileAccess path) s fun _ t => ∃ granted,
      Follows s (checked path granted) t := by
  simp only [checkFileAccess, Contract.wp_bind, wp_access, wp_printf]
  exact fun granted => ⟨granted, hs, Record.append_assoc _ _ _⟩

theorem wp_checkAdminPrivileges (hs : s.stream = none) :
    (log pathMax).wp checkAdminPrivileges s fun _ t => ∃ uid,
      Follows s { uids := [uid], values := [.euid uid] } t := by
  simp only [checkAdminPrivileges, Contract.wp_bind, wp_geteuid, wp_printf]
  intro uid
  split <;> exact (wp_puts _).mpr ⟨uid, hs, Record.append_assoc _ _ _⟩

/-- How many of the statuses are failures. -/
def failures (statuses : List ℤ) : ℕ := statuses.countP (· ≠ 0)

/-- The record of a password test. -/
def attempted (command : Text) (statuses : List ℤ) : Record :=
  { ran := statuses.map (command, ·) } ++
    { values := [.failed (failures statuses) statuses.length] }

theorem wp_countFailures (command : Text) (hcommand : ∀ uid, Spares uid command) (n : ℕ)
    (hs : s.stream = none) : (log pathMax).wp (countFailures command n) s fun failed t =>
      ∃ statuses : List ℤ, statuses.length = n ∧ failed = failures statuses ∧
        Follows s { ran := statuses.map (command, ·) } t := by
  apply Contract.wp_foldlM_range fun i failed t => ∃ statuses : List ℤ,
    statuses.length = i ∧ failed = failures statuses ∧
      Follows s { ran := statuses.map (command, ·) } t
  · rintro i - failed t ⟨statuses, rfl, rfl, ht, hrecord⟩
    simp only [Contract.wp_bind, wp_system, Contract.wp_pure]
    refine ⟨⟨ht, hcommand t.uid⟩, fun status => ⟨statuses ++ [status], ?_, ?_, ht, ?_⟩⟩
    · rw [List.length_append, List.length_singleton]
    · rw [failures, failures, List.countP_append, List.countP_singleton]
      by_cases hzero : status = 0 <;> simp [hzero]
    · rw [Log.add, hrecord, List.map_append]
      exact Record.append_assoc _ _ _
  · exact ⟨[], rfl, rfl, .refl hs⟩

theorem Spares.of_not {command : Text} (h : strstr command shadowPath = false) (uid : Option ℕ) :
    Spares uid command := by
  intro hnames
  rw [h] at hnames
  cases hnames

theorem spares_sudo : ∀ uid, Spares uid sudoCommand := Spares.of_not (by decide +kernel)

theorem spares_login : ∀ uid, Spares uid (loginCommand (bytes "user1")) :=
  Spares.of_not (by decide +kernel)

/-- The whole script is one argument of `su`. -/
theorem simpleCommand_user1 : ShellWords.simpleCommand user1Command = some asUser1 := by
  have hsplit : user1Command =
      bytes "su - user1 -c '" ++ ((shadowScript ++ bytes ";") ++ bytes "'") := by
    have hend : bytes ";'" = bytes ";" ++ bytes "'" := by decide
    rw [user1Command, hend, List.append_assoc, List.append_assoc]
  have hstart : ShellWords.read {} (bytes "su - user1 -c '") =
      some ⟨[.word (bytes "su"), .word (bytes "-"), .word (bytes "user1"), .word (bytes "-c")],
        some [], .single⟩ := by
    decide +kernel
  have hquote : ∀ b ∈ shadowScript ++ bytes ";", b ∉ bytes "'" := by decide +kernel
  have hend : ∀ ts w, (ShellWords.read ⟨ts, some w, .single⟩ (bytes "'")).bind ShellWords.finish =
      some (ts ++ [.word w]) := fun _ _ => rfl
  rw [ShellWords.simpleCommand_eq_some, ShellWords.tokenize, hsplit, ShellWords.read_append,
    hstart, Option.bind_some, ShellWords.read_append, ShellWords.read_single _ _ _ hquote,
    Option.bind_some, hend]
  simp only [asUser1, List.map_cons, List.map_nil, List.nil_append, List.cons_append]

theorem spares_user1 (uid : Option ℕ) : Spares uid user1Command :=
  fun _ => .inr simpleCommand_user1

theorem wp_testFailedSudoAttempts (n : ℕ) (hs : s.stream = none) :
    (log pathMax).wp (testFailedSudoAttempts n) s fun _ t => ∃ statuses : List ℤ,
      statuses.length = n ∧ Follows s (attempted sudoCommand statuses) t := by
  simp only [testFailedSudoAttempts, Contract.wp_bind, wp_puts, wp_printf]
  refine Contract.wp_mono (wp_countFailures _ spares_sudo n hs) ?_
  rintro failed t ⟨statuses, rfl, rfl, ht⟩
  exact ⟨statuses, rfl, ht.add _⟩

theorem wp_qnxTestFailedLoginAttempts (n : ℕ) (hs : s.stream = none) :
    (log pathMax).wp (qnxTestFailedLoginAttempts n (bytes "user1")) s fun _ t =>
      ∃ statuses : List ℤ, statuses.length = n ∧
        Follows s (attempted (loginCommand (bytes "user1")) statuses) t := by
  simp only [qnxTestFailedLoginAttempts, Contract.wp_bind, wp_puts, wp_printf]
  refine Contract.wp_mono (wp_countFailures _ spares_login n hs) ?_
  rintro failed t ⟨statuses, rfl, rfl, ht⟩
  exact ⟨statuses, rfl, ht.add _⟩

/-- The superuser skips the test. -/
theorem wp_testShadowAccessAsCurrentUser (hs : s.stream = none) :
    (log pathMax).wp testShadowAccessAsCurrentUser s fun _ t => ∃ uid status,
      Follows s { uids := [uid], ran := if uid = 0 then [] else [(shadowScript, status)] } t := by
  simp only [testShadowAccessAsCurrentUser, Contract.wp_bind, wp_puts, wp_geteuid]
  intro uid
  split
  case isTrue hroot =>
    rw [wp_puts]
    refine ⟨uid, 0, ?_⟩
    rw [if_pos hroot]
    exact ⟨hs, rfl⟩
  case isFalse hroot =>
    rw [Contract.wp_bind, wp_system]
    refine ⟨⟨hs, fun _ => .inl ⟨uid, hroot, List.getLast?_concat⟩⟩, fun status => ?_⟩
    refine ⟨uid, status, hs, ?_⟩
    rw [if_neg hroot]
    exact Record.append_assoc _ _ _

theorem wp_testShadowAccessAsUser1 (hs : s.stream = none) :
    (log pathMax).wp testShadowAccessAsUser1 s fun _ t => ∃ status : ℤ,
      Follows s { ran := [(user1Command, status)] } t := by
  simp only [testShadowAccessAsUser1, Contract.wp_bind, wp_puts, wp_system, Contract.wp_pure]
  exact ⟨⟨hs, spares_user1 s.uid⟩, fun status => ⟨status, hs, rfl⟩⟩

/-- The lines that a port check prints, with each piece of a line cut off at a NUL. -/
def portLines (checkLine : Scan → Text → Option Scan) (protocol : String) :
    Option Text → Option (List Detected)
  | none => some []
  | some text =>
      (((pieces lineSize text).map string).foldlM checkLine {}).map fun s =>
        s.printed.map (Detected.mk protocol)

/-- A line adds ports behind those already printed. -/
def Extends (checkLine : Scan → Text → Option Scan) : Prop :=
  ∀ s line t, checkLine s line = some t → s.printed <+: t.printed

theorem checkToken_extends {separator : UInt8} {token : Text} {s t : Scan}
    (h : PortScan.checkToken separator token s = some t) : s.printed <+: t.printed := by
  rw [PortScan.checkToken] at h
  split at h
  · rw [Option.some.inj h]
  · split at h
    · rw [Option.some.inj h]
    · obtain ⟨port, -, rfl⟩ := Option.map_eq_some_iff.mp h
      rw [PortScan.Scan.report]
      split
      · exact List.prefix_append _ _
      · exact List.prefix_rfl

theorem ubuntu_extends : Extends UbuntuPorts.checkLine := by
  intro s line t h
  rw [UbuntuPorts.checkLine] at h
  split at h
  · rw [← Option.some.inj h]
  · split at h
    · rw [Option.some.inj h]
    · exact checkToken_extends h

theorem qnx_extends : Extends QnxPorts.checkLine := by
  intro s line t h
  rw [QnxPorts.checkLine] at h
  split at h
  · rw [Option.some.inj h]
  · exact checkToken_extends h

def printedPorts (protocol : String) (ports : List ℤ) : Record :=
  { values := ports.map fun port => .port ⟨protocol, port⟩ }

theorem printedPorts_append (protocol : String) (ports rest : List ℤ) :
    printedPorts protocol (ports ++ rest) =
      printedPorts protocol ports ++ printedPorts protocol rest := by
  rw [printedPorts, List.map_append]
  rfl

theorem wp_ports (protocol : String) (ports : List ℤ) {s : Log} {Q : Unit → Log → Prop}
    (hQ : Q () (s.add (printedPorts protocol ports))) :
    (log pathMax).wp (ports.forM fun port => printf (.port ⟨protocol, port⟩)) s Q := by
  induction ports generalizing s with
  | nil =>
      rw [printedPorts, List.map_nil, Log.add, Record.append_empty] at hQ
      exact hQ
  | cons port ports ih =>
      change (log pathMax).wp (printf _ >>= fun _ => _) s _
      rw [Contract.wp_bind, wp_printf]
      rw [← List.singleton_append, printedPorts_append, Log.add, ← Record.append_assoc] at hQ
      exact ih hQ

theorem wp_checkPorts (heading command program protocol : String)
    {checkLine : Scan → Text → Option Scan} (hextends : Extends checkLine)
    (hs : s.stream = none) :
    (log pathMax).wp (checkPorts heading command program protocol checkLine) s fun _ t =>
      ∃ output ports, portLines checkLine protocol output = some ports ∧
        Follows s ({ delivered := [(.command (bytes command), output)] } ++
          { values := ports.map .port }) t := by
  simp only [checkPorts, Contract.wp_bind, wp_puts, wp_popen]
  refine ⟨hs, fun output => ?_⟩
  cases output with
  | none =>
      simp only [Option.map_none, wp_perror]
      exact ⟨none, [], rfl, hs, rfl⟩
  | some text =>
      simp only [Option.map_some, Contract.wp_bind]
      apply wp_eachLine (by decide) fun ps scan t =>
        t.stream = some (.command (bytes command)) ∧
          t.record = s.record ++ { delivered := [(.command (bytes command), some text)] } ++
            printedPorts protocol scan.printed ∧
          (ps.map string).foldlM checkLine scan =
            ((pieces lineSize text).map string).foldlM checkLine {}
      · exact fun _ _ _ h => h.1
      · rintro p ps scan t ⟨hstream, hrecord, hscan⟩
        simp only [Contract.wp_bind, wp_defined, Contract.wp_pure]
        intro scan' hline
        refine wp_ports protocol _ ⟨hstream, ?_, ?_⟩
        · have hsplit := (List.prefix_append_drop (hextends _ _ _ hline)).symm
          rw [Log.add, hrecord, Record.append_assoc, ← printedPorts_append, hsplit]
        · rw [← hscan, List.map_cons, List.foldlM_cons, hline]
          rfl
      · rintro scan t ⟨hstream, hrecord, hscan⟩
        rw [wp_pclose]
        refine ⟨⟨hstream, _, rfl⟩, some text, scan.printed.map (.mk protocol), ?_, rfl, ?_⟩
        · rw [portLines, ← hscan]
          rfl
        · rw [List.map_map]
          exact hrecord.trans (Record.append_assoc _ _ _)
      · refine ⟨rfl, ?_, rfl⟩
        exact (Record.append_empty _).symm

/-- What the copying loops print of a text. -/
def copies (size : ℕ) (text : Text) : List Line :=
  (pieces size text).map fun p => .copied (string p)

theorem wp_copyLines {size : ℕ} (hsize : 2 ≤ size) {fp : Stream}
    (hs : s.stream = some fp.source) :
    (log pathMax).wp (copyLines size fp) s fun _ t =>
      t.stream = some fp.source ∧ t.record = s.record ++ { values := copies size fp.text } := by
  apply wp_eachLine hsize fun ps _ t => t.stream = some fp.source ∧
    t.record ++ { values := ps.map fun p => .copied (string p) } =
      s.record ++ { values := copies size fp.text }
  · exact fun _ _ _ h => h.1
  · rintro p ps _ t ⟨hstream, hrecord⟩
    simp only [Contract.wp_bind, wp_printf, Contract.wp_pure]
    refine ⟨hstream, ?_⟩
    rw [← hrecord]
    exact Record.append_assoc _ _ _
  · rintro _ t ⟨hstream, hrecord⟩
    exact ⟨hstream, t.record.append_empty.symm.trans hrecord⟩
  · exact ⟨hs, rfl⟩

/-- The record of a check that copies the output of a command. -/
def copied (size : ℕ) (command : Text) (output : Option Text) : Record :=
  { delivered := [(.command command, output)] } ++
    { values := output.elim [] (copies size) }

theorem wp_checkOpensslVersion (hs : s.stream = none) :
    (log pathMax).wp checkOpensslVersion s fun _ t => ∃ output,
      Follows s (copied 256 opensslVersionCommand output) t := by
  simp only [checkOpensslVersion, Contract.wp_bind, wp_puts, wp_popen]
  refine ⟨hs, fun output => ?_⟩
  cases output with
  | none =>
      simp only [Option.map_none, wp_puts]
      exact ⟨none, hs, rfl⟩
  | some text =>
      simp only [Option.map_some, Contract.wp_bind]
      refine Contract.wp_mono (wp_copyLines (by decide) rfl) fun _ t ht => ?_
      rw [wp_pclose]
      exact ⟨⟨ht.1, _, rfl⟩, some text, rfl, ht.2.trans (Record.append_assoc _ _ _)⟩

/-- The record of the cipher count. -/
def counted (output : Option Text) (summary : LineScans.CipherReport) : Record :=
  { delivered := [(.command opensslCiphersCommand, output)] } ++
    { values := match summary with
        | .failed => []
        | .summary s => [.ciphers s] }

theorem wp_checkOpensslCiphers (hs : s.stream = none) :
    (log pathMax).wp checkOpensslCiphers s fun _ t => ∃ output report,
      LineScans.checkOpensslCiphers output = some report ∧
        Follows s (counted output report) t := by
  simp only [checkOpensslCiphers, Contract.wp_bind, wp_puts, wp_popen]
  refine ⟨hs, fun output => ?_⟩
  cases output with
  | none =>
      simp only [Option.map_none, wp_puts]
      exact ⟨none, .failed, rfl, hs, rfl⟩
  | some text =>
      simp only [Option.map_some, Contract.wp_bind]
      apply wp_eachLine (by decide) fun ps summary t =>
        t.stream = some (.command opensslCiphersCommand) ∧
          t.record = s.record ++ { delivered := [(.command opensslCiphersCommand, some text)] } ∧
          (ps.map string).foldlM LineScans.countCipher summary =
            ((pieces lineSize text).map string).foldlM LineScans.countCipher {}
      · exact fun _ _ _ h => h.1
      · rintro p ps summary t ⟨hstream, hrecord, hsummary⟩
        simp only [Contract.wp_bind, wp_defined, Contract.wp_pure]
        intro summary' hline
        refine ⟨hstream, hrecord, ?_⟩
        rw [← hsummary, List.map_cons, List.foldlM_cons, hline]
        rfl
      · rintro summary t ⟨hstream, hrecord, hsummary⟩
        simp only [wp_pclose, wp_printf]
        refine ⟨⟨hstream, _, rfl⟩, some text, .summary summary, ?_, rfl, ?_⟩
        · rw [LineScans.checkOpensslCiphers, ← hsummary]
          rfl
        · change t.record ++ _ = _
          rw [hrecord]
          exact Record.append_assoc _ _ _
      · exact ⟨rfl, rfl, rfl⟩

/-- What is printed of the first of the pieces that starts like the entry of root. -/
def entry (ps : List Text) : Record :=
  { values := ((((ps.map string).find? LineScans.startsRoot).map
      (LineScans.rootEntry ++ ·)).map .rootEntry).toList }

/-- The record of the search for the entry of root. -/
def searched (shadow : Option Text) : Record :=
  { delivered := [(.file shadowPath, shadow)] } ++
    { values := ((LineScans.printShadowRootLine shadow).map .rootEntry).toList }

theorem wp_printShadowRootLine (hs : s.stream = none) :
    (log pathMax).wp printShadowRootLine s fun _ t => ∃ shadow, Follows s (searched shadow) t := by
  simp only [printShadowRootLine, Contract.wp_bind, wp_puts, wp_fopen]
  refine ⟨hs, fun shadow => ?_⟩
  cases shadow with
  | none =>
      simp only [Option.map_none, wp_perror]
      exact ⟨none, hs, rfl⟩
  | some text =>
      simp only [Option.map_some, Contract.wp_bind]
      apply wp_eachLine (by decide) fun ps _ t => t.stream = some (.file shadowPath) ∧
        t.record ++ entry ps = s.record ++ searched (some text)
      · exact fun _ _ _ h => h.1
      · rintro p ps _ t ⟨hstream, hrecord⟩
        cases hroot : LineScans.startsRoot (string p) with
        | true =>
            have hentry : entry (p :: ps) =
                { values := [.rootEntry (LineScans.rootEntry ++ string p)] } := by
              rw [entry, List.map_cons, List.find?_cons, hroot]
              rfl
            rw [if_pos rfl, Contract.wp_bind, wp_printf, Contract.wp_pure, wp_fclose]
            rw [hentry] at hrecord
            exact ⟨⟨hstream, _, rfl⟩, some text, rfl, hrecord⟩
        | false =>
            have hentry : entry (p :: ps) = entry ps := by
              rw [entry, List.map_cons, List.find?_cons, hroot]
              rfl
            rw [hentry] at hrecord
            rw [if_neg Bool.false_ne_true]
            exact ⟨hstream, hrecord⟩
      · rintro _ t ⟨hstream, hrecord⟩
        rw [wp_fclose]
        exact ⟨⟨hstream, _, rfl⟩, some text, rfl, t.record.append_empty.symm.trans hrecord⟩
      · exact ⟨rfl, Record.append_assoc _ _ _⟩

/-- The record of the search for the modules, which looks for a library only where neither
the directory nor the file is there. -/
def pamRecord (pamD pamConf : Bool) (libpam : Option Text) : Record :=
  { accessed := [(bytes "/etc/pam.d", .fOk, pamD)] } ++
    if pamD then { values := [.pam true] }
    else { accessed := [(bytes "/etc/pam.conf", .fOk, pamConf)] } ++
      if pamConf then { values := [.pam true] }
      else { delivered := [(.command findPamCommand, libpam)] } ++
        { values := [.pam (libpam.any (· ≠ []))] }

theorem wp_pamFound (hs : s.stream = none) :
    (log pathMax).wp pamFound s fun found t => ∃ pamD pamConf libpam,
      Follows s (pamRecord pamD pamConf libpam) (t.value (.pam found)) := by
  simp only [pamFound, Contract.wp_bind, wp_access]
  intro pamD
  cases pamD with
  | true =>
      exact ⟨true, false, none, (Follows.single hs _).add { values := [.pam true] }⟩
  | false =>
      simp only [Bool.false_eq_true, if_false, Contract.wp_bind, wp_access]
      intro pamConf
      have hasked := fun conf => (Follows.single hs
        { accessed := [(bytes "/etc/pam.d", .fOk, false)] }).add
          { accessed := [(bytes "/etc/pam.conf", .fOk, conf)] }
      cases pamConf with
      | true =>
          refine ⟨false, true, none, ?_⟩
          have hfound := (hasked true).add { values := [.pam true] }
          rwa [Record.append_assoc] at hfound
      | false =>
          simp only [Bool.false_eq_true, if_false, Contract.wp_bind, wp_popen]
          refine ⟨hs, fun libpam => ?_⟩
          have hsearched := fun found => ((hasked false).add
            { delivered := [(.command findPamCommand, libpam)] }).add { values := [.pam found] }
          simp only [Record.append_assoc] at hsearched
          cases libpam with
          | none => exact ⟨false, false, none, hsearched false⟩
          | some text =>
              simp only [Option.map_some, Contract.wp_bind, wp_fgets, wp_pclose,
                Contract.wp_pure]
              refine ⟨rfl, ⟨rfl, _, rfl⟩, false, false, some text, ?_⟩
              have hfound : (CString.fgets 256 text).isSome = decide (text ≠ []) := by
                rw [CString.fgets]
                split <;> simp_all
              simp only [Option.isSome_map, hfound]
              exact ⟨rfl, (hsearched (decide (text ≠ []))).2⟩

/-- What is answered to the checks of the log. -/
structure AuthLog where
  readable : Bool
  head : Option Text
  pamD : Bool
  pamConf : Bool
  libpam : Option Text

/-- A log that can be read but not by the command ends the check early. -/
def AuthLog.record (a : AuthLog) : Record :=
  { accessed := [(logPath, .rOk, a.readable)] } ++
    if a.readable then
      copied 512 headCommand a.head ++
        if a.head = none then {} else pamRecord a.pamD a.pamConf a.libpam
    else pamRecord a.pamD a.pamConf a.libpam

theorem wp_checkAuthLog (hs : s.stream = none) :
    (log pathMax).wp checkAuthLog s fun _ t => ∃ a : AuthLog, Follows s a.record t := by
  simp only [checkAuthLog, Contract.wp_bind, wp_puts, wp_access]
  intro readable
  have hasked := Follows.single hs { accessed := [(logPath, .rOk, readable)] }
  cases readable with
  | false =>
      simp only [Bool.false_eq_true, if_false, Contract.wp_bind, wp_puts, Contract.wp_pure,
        wp_printf]
      refine Contract.wp_mono (wp_pamFound hasked.1) ?_
      rintro _ t ⟨pamD, pamConf, libpam, ht⟩
      exact ⟨⟨false, none, pamD, pamConf, libpam⟩, hasked.trans ht⟩
  | true =>
      simp only [if_true, Contract.wp_bind, wp_puts, wp_popen]
      refine ⟨hs, fun head => ?_⟩
      cases head with
      | none =>
          simp only [Option.map_none, Contract.wp_bind, wp_perror, Contract.wp_pure, if_true]
          exact ⟨⟨true, none, false, false, none⟩,
            hasked.trans (.single hasked.1 (copied 512 headCommand none))⟩
      | some text =>
          simp only [Option.map_some, Contract.wp_bind, wp_pclose, Contract.wp_pure]
          refine Contract.wp_mono (wp_copyLines (by decide) rfl) fun _ t ht => ?_
          refine ⟨⟨ht.1, _, rfl⟩, ?_⟩
          simp only [Bool.false_eq_true, if_false, Contract.wp_bind, wp_puts, wp_printf]
          refine Contract.wp_mono (wp_pamFound rfl) ?_
          rintro _ u ⟨pamD, pamConf, libpam, hu⟩
          have hclosed : Follows (s.add { accessed := [(logPath, .rOk, true)] })
              (copied 512 headCommand (some text)) { t with stream := none } :=
            ⟨rfl, ht.2.trans (Record.append_assoc _ _ _)⟩
          exact ⟨⟨true, some text, pamD, pamConf, libpam⟩, hasked.trans (hclosed.trans hu)⟩

end Checks

section Throughput
open Throughput hiding testNetworkDownloadThroughput testHttpsUploadThroughput
variable {pathMax : ℕ} {s : Log} {α β : Type}

/-- What a run takes from the output of its command. -/
def sampled (read : Text → β) : Option Text → Run β
  | none => .popenFailed
  | some text =>
      match CString.fgets 128 text with
      | none => .fgetsFailed
      | some (buffer, _) => .sample (read (string buffer))

def oneRun (step : α → ℕ → β → α) (a : α) (i : ℕ) : Run β → α
  | .popenFailed => a
  | .fgetsFailed => a
  | .sample b => step a i b

def runsTotal (read : Text → β) (step : α → ℕ → β → α) (a : α) (outputs : ℕ → Option Text)
    (n : ℕ) : α :=
  (List.range n).foldl (fun a i => oneRun step a i (sampled read (outputs i))) a

theorem runsTotal_ten (read : Text → β) (step : α → ℕ → β → α) (a : α)
    (outputs : ℕ → Option Text) :
    runsTotal read step a outputs 10 = eachRun (fun i => sampled read (outputs i)) step a := by
  refine List.foldl_ext _ _ a fun a i _ => ?_
  dsimp only
  cases sampled read (outputs i) <;> rfl

theorem runsTotal_update (read : Text → β) (step : α → ℕ → β → α) (a : α)
    (outputs : ℕ → Option Text) (n : ℕ) (output : Option Text) :
    runsTotal read step a (Function.update outputs n output) (n + 1) =
      oneRun step (runsTotal read step a outputs n) n (sampled read output) := by
  have hbefore : ∀ (a : α), ∀ i ∈ List.range n,
      oneRun step a i (sampled read (Function.update outputs n output i)) =
        oneRun step a i (sampled read (outputs i)) := by
    intro a i hi
    rw [Function.update_of_ne (List.mem_range.mp hi).ne]
  rw [runsTotal, List.range_succ, List.foldl_append, List.foldl_ext _ _ a hbefore]
  simp only [List.foldl_cons, List.foldl_nil, Function.update_self]
  rfl

/-- The record of the first `n` runs, where the total knows the lines printed so far. -/
def runsRecord (command : Text) (outputs : ℕ → Option Text) (n : ℕ) (lines : List Line) :
    Record where
  delivered := (List.range n).map fun i => (.command command, outputs i)
  values := lines

theorem runsRecord_update (command : Text) (outputs : ℕ → Option Text) (n : ℕ)
    (lines more : List Line) (output : Option Text) :
    runsRecord command (Function.update outputs n output) (n + 1) (lines ++ more) =
      runsRecord command outputs n lines ++
        ({ delivered := [(.command command, output)] } ++ { values := more }) := by
  have hbefore : ∀ i ∈ List.range n,
      (Source.command command, Function.update outputs n output i) =
        (.command command, outputs i) := by
    intro i hi
    rw [Function.update_of_ne (List.mem_range.mp hi).ne]
  rw [runsRecord, List.range_succ, List.map_append, List.map_congr_left hbefore]
  simp only [List.map_cons, List.map_nil, Function.update_self]
  rfl

theorem wp_tenRuns (command : Text) (read : Text → β) (step : α → ℕ → β → α)
    (lines : α → List Line) {popenFailed : Prog pathMax Unit}
    {body : α → ℕ → Text → Prog pathMax α} {a : α}
    (hfailed : ∀ s (Q : Unit → Log → Prop), Q () s → (log pathMax).wp popenFailed s Q)
    (hbody : ∀ a i buffer s, (log pathMax).wp (body a i buffer) s fun b t =>
      b = step a i (read buffer) ∧ ∃ ls, lines b = lines a ++ ls ∧ t = s.add { values := ls })
    (hlines : lines a = []) (hs : s.stream = none) :
    (log pathMax).wp (tenRuns command popenFailed body a) s fun b t => ∃ outputs,
      b = eachRun (fun i => sampled read (outputs i)) step a ∧
        Follows s (runsRecord command outputs 10 (lines b)) t := by
  simp only [← runsTotal_ten]
  refine Contract.wp_foldlM_range (fun n b t => ∃ outputs,
    b = runsTotal read step a outputs n ∧
      Follows s (runsRecord command outputs n (lines b)) t) ?_ ?_
  · rintro n - b t ⟨outputs, hb, ht⟩
    simp only [Contract.wp_bind, wp_popen]
    refine ⟨ht.1, fun output => ?_⟩
    have hrun : ∀ c u ls, c = oneRun step b n (sampled read output) →
        lines c = lines b ++ ls → u.stream = none →
        u.record = t.record ++ ({ delivered := [(.command command, output)] } ++ { values := ls }) →
        ∃ outputs, c = runsTotal read step a outputs (n + 1) ∧
          Follows s (runsRecord command outputs (n + 1) (lines c)) u := by
      intro c u ls hc hlines hstream hrecord
      have hupdate := runsTotal_update read step a outputs n output
      rw [← hb, ← hc] at hupdate
      refine ⟨Function.update outputs n output, hupdate.symm, hstream, ?_⟩
      rw [hlines, runsRecord_update, hrecord, ht.2, Record.append_assoc]
    cases output with
    | none =>
        simp only [Option.map_none, Contract.wp_bind]
        exact hfailed _ _ (hrun b _ [] rfl (List.append_nil _).symm ht.1 rfl)
    | some text =>
        simp only [Option.map_some, Contract.wp_bind, wp_fgets]
        refine ⟨rfl, ?_⟩
        cases hget : CString.fgets 128 text with
        | none =>
            simp only [Option.map_none, Contract.wp_bind, Contract.wp_pure, wp_pclose]
            refine ⟨⟨rfl, _, rfl⟩, hrun b _ [] ?_ (List.append_nil _).symm rfl rfl⟩
            rw [sampled, hget]
            rfl
        | some x =>
            simp only [Option.map_some, Contract.wp_bind, Contract.wp_pure, wp_pclose]
            refine Contract.wp_mono (hbody b n (string x.1) _) ?_
            rintro c u ⟨hc, ls, hls, rfl⟩
            refine ⟨⟨rfl, _, rfl⟩, hrun c _ ls ?_ hls rfl (Record.append_assoc _ _ _)⟩
            rw [hc, sampled, hget]
            rfl
  · refine ⟨fun _ => none, rfl, hs, ?_⟩
    rw [hlines]
    exact s.record.append_empty.symm

variable (sscanf : Text → Download) (atof : Text → ℚ≥0)

def downloadTotals (outputs : ℕ → Option Text) : DownloadTotals :=
  eachRun (fun i => sampled sscanf (outputs i)) downloadRun {}

def downloadsRecord (command : Text) (outputs : ℕ → Option Text) : Record :=
  runsRecord command outputs 10 ((downloadTotals sscanf outputs).lines.map .download)

theorem wp_downloads (command : Text) (hs : s.stream = none) :
    (log pathMax).wp (downloads sscanf command) s fun total t => ∃ outputs,
      total = downloadTotals sscanf outputs ∧
        Follows s (downloadsRecord sscanf command outputs) t := by
  refine Contract.wp_mono (wp_tenRuns command sscanf downloadRun
    (fun total => total.lines.map .download) (fun _ _ h => h) ?_ rfl hs) ?_
  · intro total i buffer t
    simp only [Contract.wp_bind, wp_printf, Contract.wp_pure]
    exact ⟨trivial, _, List.map_append, rfl⟩
  · rintro total t ⟨outputs, rfl, ht⟩
    exact ⟨outputs, rfl, ht⟩

/-- The record of both downloads and of the averages behind them. -/
def downloadRecord (http https : ℕ → Option Text) : Record :=
  downloadsRecord sscanf httpCommand http ++ downloadsRecord sscanf httpsCommand https ++
    { values := [.downloads (Throughput.testNetworkDownloadThroughput
        (fun i => sampled sscanf (http i)) fun i => sampled sscanf (https i))] }

theorem wp_testNetworkDownloadThroughput (hs : s.stream = none) :
    (log pathMax).wp (testNetworkDownloadThroughput sscanf) s fun _ t => ∃ http https,
      Follows s (downloadRecord sscanf http https) t := by
  simp only [testNetworkDownloadThroughput, Contract.wp_bind, wp_puts, wp_printf]
  refine Contract.wp_mono (wp_downloads sscanf httpCommand hs) ?_
  rintro _ t ⟨http, rfl, ht⟩
  refine Contract.wp_mono (wp_downloads sscanf httpsCommand ht.1) ?_
  rintro _ u ⟨https, rfl, hu⟩
  exact ⟨http, https, (ht.trans hu).add _⟩

def uploadTotals (outputs : ℕ → Option Text) : UploadTotals :=
  eachRun (fun i => sampled atof (outputs i)) uploadRun {}

/-- What is answered to the upload test. Where the file is there, `dd` is not run. -/
structure UploadAnswers (pathMax : ℕ) where
  dd : Option ℤ
  path : Option (FullPath pathMax)
  outputs : ℕ → Option Text
  uname : Option Text
  find : ℤ

theorem uploadAverage_eq (outputs : ℕ → Option Text) :
    uploadAverage (uploadTotals atof outputs).time =
      Throughput.testHttpsUploadThroughput fun i => sampled atof (outputs i) := by
  rw [uploadAverage, Throughput.testHttpsUploadThroughput, uploadTotals, Nat.cast_ofNat]
  norm_num

namespace UploadAnswers
variable (a : UploadAnswers pathMax)

def created : Record where
  accessed := [(filename, .fOk, a.dd.isNone)]
  ran := (a.dd.map fun status => (ddCommand, status)).toList

def cleaned : Record :=
  { delivered := [(.command unameCommand, a.uname)] } ++
    { ran := if osOf (UploadFiles.getOsName a.uname) = .qnx then [(findCommand, a.find)] else [] }

theorem cleaned_of_qnx {a : UploadAnswers pathMax}
    (h : osOf (UploadFiles.getOsName a.uname) = .qnx) :
    a.cleaned = { delivered := [(.command unameCommand, a.uname)] } ++
      { ran := [(findCommand, a.find)] } := by
  rw [cleaned, if_pos h]

theorem cleaned_of_ne {a : UploadAnswers pathMax}
    (h : osOf (UploadFiles.getOsName a.uname) ≠ .qnx) :
    a.cleaned = { delivered := [(.command unameCommand, a.uname)] } := by
  rw [cleaned, if_neg h]
  exact Record.append_empty _

def uploaded (path : FullPath pathMax) : Record :=
  runsRecord (UploadCommand.cmd pathMax path.text) a.outputs 10
      ((uploadTotals atof a.outputs).lines.map fun l => .upload l.1 l.2) ++ a.cleaned ++
    { values := [.uploads (Throughput.testHttpsUploadThroughput
        fun i => sampled atof (a.outputs i))] }

/-- The test ends where `dd` fails and where there is no path. -/
def record : Record :=
  a.created ++
    if ∃ status ∈ a.dd, status ≠ 0 then {}
    else { resolved := [(filename, a.path.map FullPath.text)] } ++
      a.path.elim {} (a.uploaded atof)

end UploadAnswers

theorem spares_dd : ∀ uid, Spares uid ddCommand := Spares.of_not (by decide +kernel)

theorem spares_find : ∀ uid, Spares uid findCommand := Spares.of_not (by decide +kernel)

theorem wp_uploads (path : FullPath pathMax) (hs : s.stream = none) :
    (log pathMax).wp (uploads atof path) s fun total t => ∃ outputs,
      total = uploadTotals atof outputs ∧
        Follows s (runsRecord (UploadCommand.cmd pathMax path.text) outputs 10
          ((uploadTotals atof outputs).lines.map fun l => .upload l.1 l.2)) t := by
  refine Contract.wp_mono (wp_tenRuns _ atof uploadRun
    (fun total => total.lines.map fun l => .upload l.1 l.2)
    (fun s Q h => (wp_perror _).mpr h) ?_ rfl hs) ?_
  · intro total i buffer t
    simp only [Contract.wp_bind, wp_printf, Contract.wp_pure]
    exact ⟨trivial, _, List.map_append, rfl⟩
  · rintro total t ⟨outputs, rfl, ht⟩
    exact ⟨outputs, rfl, ht⟩

/-- Whatever was done to create the file, the uploads and the cleanup follow. -/
theorem wp_uploadAndCleanup (path : FullPath pathMax) (dd : Option ℤ) (hs : s.stream = none) :
    (log pathMax).wp (uploadAndCleanup atof path) s fun _ t =>
      ∃ a : UploadAnswers pathMax, a.dd = dd ∧ a.path = some path ∧
        Follows s (a.uploaded atof path) t := by
  simp only [uploadAndCleanup, Contract.wp_bind]
  refine Contract.wp_mono (wp_uploads atof path hs) ?_
  rintro _ t ⟨outputs, rfl, ht⟩
  refine Contract.wp_mono (wp_getOsName ht.1) ?_
  rintro _ u ⟨uname, rfl, hu⟩
  have haverage := uploadAverage_eq atof outputs
  let answers (find : ℤ) : UploadAnswers pathMax := ⟨dd, some path, outputs, uname, find⟩
  have hkept : osOf (UploadFiles.getOsName uname) ≠ .qnx →
      Follows s ((answers 0).uploaded atof path) (u.add { values := [.uploads
        (Throughput.testHttpsUploadThroughput fun i => sampled atof (outputs i))] }) := by
    intro hos
    have hcleaned : (answers 0).cleaned = _ := UploadAnswers.cleaned_of_ne hos
    rw [UploadAnswers.uploaded, hcleaned]
    exact (ht.trans hu).add _
  cases hos : osOf (UploadFiles.getOsName uname) with
  | ubuntu =>
      simp only [Contract.wp_bind, wp_remove, wp_puts, wp_printf, haverage]
      exact ⟨answers 0, rfl, rfl, hkept (by rw [hos]; decide)⟩
  | qnx =>
      simp only [Contract.wp_bind, wp_system, wp_puts, wp_printf, haverage]
      refine ⟨⟨hu.1, spares_find u.uid⟩, fun find => ⟨answers find, rfl, rfl, ?_⟩⟩
      have hcleaned : (answers find).cleaned = _ := UploadAnswers.cleaned_of_qnx hos
      rw [UploadAnswers.uploaded, hcleaned]
      exact (ht.trans (hu.add _)).add _
  | other =>
      simp only [Contract.wp_bind, wp_puts, wp_printf, haverage]
      exact ⟨answers 0, rfl, rfl, hkept (by rw [hos]; decide)⟩

/-- From the path on, when the file is there. -/
theorem wp_resolve (dd : Option ℤ) (hdd : ¬ ∃ status ∈ dd, status ≠ 0) {t : Log}
    (ht : ∀ a : UploadAnswers pathMax, a.dd = dd → Follows s a.created t) :
    (log pathMax).wp (do
      match ← realpath filename with
      | none => perror "Failed to resolve full path to test file"
      | some path => uploadAndCleanup atof path) t fun _ u =>
      ∃ a : UploadAnswers pathMax, Follows s (a.record atof) u := by
  simp only [Contract.wp_bind, wp_realpath]
  intro path
  have hcreated := ht ⟨dd, path, fun _ => none, none, 0⟩ rfl
  have hresolved := Follows.single hcreated.1
    { resolved := [(filename, path.map FullPath.text)] }
  cases path with
  | none =>
      rw [wp_perror]
      refine ⟨⟨dd, none, fun _ => none, none, 0⟩, ?_⟩
      rw [UploadAnswers.record, if_neg hdd]
      exact hcreated.trans (hresolved.trans (.refl hresolved.1))
  | some path =>
      refine Contract.wp_mono (wp_uploadAndCleanup atof path dd hresolved.1) ?_
      rintro _ u ⟨a, rfl, hpath, hu⟩
      refine ⟨a, ?_⟩
      rw [UploadAnswers.record, if_neg hdd, hpath]
      exact (ht a rfl).trans (hresolved.trans hu)

theorem wp_testHttpsUploadThroughput (hs : s.stream = none) :
    (log pathMax).wp (testHttpsUploadThroughput atof) s fun _ t =>
      ∃ a : UploadAnswers pathMax, Follows s (a.record atof) t := by
  simp only [testHttpsUploadThroughput, Contract.wp_bind, wp_puts, wp_access]
  intro found
  cases found with
  | true =>
      refine wp_resolve atof none (by simp) fun a hdd => ?_
      rw [UploadAnswers.created, hdd]
      exact .single hs _
  | false =>
      simp only [Bool.false_eq_true, if_false, Contract.wp_bind, wp_puts, wp_system]
      refine ⟨⟨hs, spares_dd _⟩, fun status => ?_⟩
      have hcreated : ∀ a : UploadAnswers pathMax, a.dd = some status → Follows s a.created
          ((s.add { accessed := [(filename, .fOk, false)] }).add
            { ran := [(ddCommand, status)] }) := by
        intro a hdd
        rw [UploadAnswers.created, hdd]
        exact (Follows.single hs _).add _
      by_cases hstatus : status = 0
      · rw [if_neg (not_not_intro hstatus)]
        exact wp_resolve atof (some status) (by simpa using hstatus) hcreated
      · rw [if_pos hstatus, Contract.wp_bind, wp_perror]
        refine ⟨⟨some status, none, fun _ => none, none, 0⟩, ?_⟩
        rw [UploadAnswers.record, if_pos ⟨status, rfl, hstatus⟩, Record.append_empty]
        exact hcreated _ rfl

end Throughput

end MicrokernelBenchmark.SecurityRuns
