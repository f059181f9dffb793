import MicrokernelBenchmark.SecurityRuns

/-!
# The report of the network and security program

What a whole run of `network_and_security` does, for all surroundings. The text of
`uname` decides which tests are run, and the record of a run that comes to its end is
that of the answers it got. On texts without a NUL byte the ports it prints are those
of the port checks, and what it copies is what the commands delivered.
-/
namespace MicrokernelBenchmark.SecurityReport
open CString hiding fgets
open CallTrees NetworkAndSecurity SecurityRuns
open LineScans (string)
open PortScan (Scan Detected)
open UploadFiles (Os osOf)

/-- The record of a port check. -/
def portRecord (command : String) (output : Option Text) (ports : List Detected) : Record :=
  { delivered := [(.command (bytes command), output)] } ++ { values := ports.map .port }

/-- What is answered to the tests for one system only. -/
structure OsAnswers where
  statuses : List ℤ := []
  uid : ℕ := 0
  status : ℤ := 0
  tcp : Option Text := none
  udp : Option Text := none
  tcpPorts : List Detected := []
  udpPorts : List Detected := []

namespace OsAnswers
variable (a : OsAnswers)

def record : Os → Record
  | .ubuntu =>
      attempted sudoCommand a.statuses ++
        { uids := [a.uid], ran := if a.uid = 0 then [] else [(shadowScript, a.status)] } ++
        portRecord "ss -tuln | grep LISTEN" a.tcp a.tcpPorts ++
        portRecord "ss -uln" a.udp a.udpPorts
  | .qnx =>
      attempted (loginCommand (bytes "user1")) a.statuses ++
        { ran := [(user1Command, a.status)] } ++
        portRecord "netstat -an | grep LISTEN" a.tcp a.tcpPorts ++
        portRecord "netstat -an | grep udp" a.udp a.udpPorts
  | .other => {}

/-- The number of the attempts, and that the printed ports are those of the listings. -/
def Valid : Os → Prop
  | .ubuntu => a.statuses.length = 10 ∧
      portLines UbuntuPorts.checkLine "TCP" a.tcp = some a.tcpPorts ∧
      portLines UbuntuPorts.checkLine "UDP" a.udp = some a.udpPorts
  | .qnx => a.statuses.length = 5 ∧
      portLines QnxPorts.checkLine "TCP" a.tcp = some a.tcpPorts ∧
      portLines QnxPorts.checkLine "UDP" a.udp = some a.udpPorts
  | .other => True

end OsAnswers

/-- What is answered to the whole program. -/
structure Answers (pathMax : ℕ) where
  uname : Option Text
  euid : ℕ
  passwd : Bool
  shadow : Bool
  authLog : AuthLog
  tests : OsAnswers
  version : Option Text
  ciphers : Option Text
  report : LineScans.CipherReport
  shadowFile : Option Text
  http : ℕ → Option Text
  https : ℕ → Option Text
  upload : UploadAnswers pathMax

section Run
variable {pathMax : ℕ} (sscanf : Text → Throughput.Download) (atof : Text → ℚ≥0)

namespace Answers
variable (A : Answers pathMax)

def osName : Text := UploadFiles.getOsName A.uname

def os : Os := osOf A.osName

def record : Record :=
  { delivered := [(.command unameCommand, A.uname)] } ++ { values := [.osName A.osName] } ++
    { uids := [A.euid], values := [.euid A.euid] } ++
    checked (bytes "/etc/passwd") A.passwd ++ checked shadowPath A.shadow ++
    A.authLog.record ++ A.tests.record A.os ++
    copied 256 opensslVersionCommand A.version ++ counted A.ciphers A.report ++
    searched A.shadowFile ++ downloadRecord sscanf A.http A.https ++ A.upload.record atof

def Valid : Prop :=
  A.tests.Valid A.os ∧ LineScans.checkOpensslCiphers A.ciphers = some A.report

end Answers

theorem wp_osTests (os : Os) {s : Log} (hs : s.stream = none) :
    (log pathMax).wp (osTests os) s fun _ t => ∃ a : OsAnswers, a.Valid os ∧
      Follows s (a.record os) t := by
  cases os with
  | ubuntu =>
      simp only [osTests, Contract.wp_bind]
      refine Contract.wp_mono (wp_testFailedSudoAttempts 10 hs) ?_
      rintro _ t ⟨statuses, hlength, ht⟩
      refine Contract.wp_mono (wp_testShadowAccessAsCurrentUser ht.1) ?_
      rintro _ u ⟨uid, status, hu⟩
      refine Contract.wp_mono (wp_checkPorts _ _ _ _ ubuntu_extends hu.1) ?_
      rintro _ v ⟨tcp, tcpPorts, htcp, hv⟩
      refine Contract.wp_mono (wp_checkPorts _ _ _ _ ubuntu_extends hv.1) ?_
      rintro _ w ⟨udp, udpPorts, hudp, hw⟩
      exact ⟨⟨statuses, uid, status, tcp, udp, tcpPorts, udpPorts⟩, ⟨hlength, htcp, hudp⟩,
        ((ht.trans hu).trans hv).trans hw⟩
  | qnx =>
      simp only [osTests, Contract.wp_bind]
      refine Contract.wp_mono (wp_qnxTestFailedLoginAttempts 5 hs) ?_
      rintro _ t ⟨statuses, hlength, ht⟩
      refine Contract.wp_mono (wp_testShadowAccessAsUser1 ht.1) ?_
      rintro _ u ⟨status, hu⟩
      refine Contract.wp_mono (wp_checkPorts _ _ _ _ qnx_extends hu.1) ?_
      rintro _ v ⟨tcp, tcpPorts, htcp, hv⟩
      refine Contract.wp_mono (wp_checkPorts _ _ _ _ qnx_extends hv.1) ?_
      rintro _ w ⟨udp, udpPorts, hudp, hw⟩
      exact ⟨⟨statuses, 0, status, tcp, udp, tcpPorts, udpPorts⟩, ⟨hlength, htcp, hudp⟩,
        ((ht.trans hu).trans hv).trans hw⟩
  | other =>
      rw [osTests, wp_puts]
      exact ⟨{}, trivial, .refl hs⟩

theorem wp_main {s : Log} (hs : s.stream = none) :
    (log pathMax).wp (main sscanf atof) s fun result t => result = 0 ∧
      ∃ A : Answers pathMax, A.Valid ∧ Follows s (A.record sscanf atof) t := by
  simp only [main, Contract.wp_bind, wp_printf, Contract.wp_pure]
  refine Contract.wp_mono (wp_getOsName hs) ?_
  rintro _ t ⟨uname, rfl, ht⟩
  have ht := ht.add { values := [.osName (UploadFiles.getOsName uname)] }
  refine Contract.wp_mono (wp_checkAdminPrivileges ht.1) ?_
  rintro _ u ⟨euid, hu⟩
  replace hu := ht.trans hu
  refine Contract.wp_mono (wp_checkFileAccess _ hu.1) ?_
  rintro _ t ⟨passwd, ht⟩
  replace ht := hu.trans ht
  refine Contract.wp_mono (wp_checkFileAccess _ ht.1) ?_
  rintro _ u ⟨shadow, hu⟩
  replace hu := ht.trans hu
  refine Contract.wp_mono (wp_checkAuthLog hu.1) ?_
  rintro _ t ⟨authLog, ht⟩
  replace ht := hu.trans ht
  refine Contract.wp_mono (wp_osTests _ ht.1) ?_
  rintro _ u ⟨tests, htests, hu⟩
  replace hu := ht.trans hu
  refine Contract.wp_mono (wp_checkOpensslVersion hu.1) ?_
  rintro _ t ⟨version, ht⟩
  replace ht := hu.trans ht
  refine Contract.wp_mono (wp_checkOpensslCiphers ht.1) ?_
  rintro _ u ⟨ciphers, report, hreport, hu⟩
  replace hu := ht.trans hu
  refine Contract.wp_mono (wp_printShadowRootLine hu.1) ?_
  rintro _ t ⟨shadowFile, ht⟩
  replace ht := hu.trans ht
  refine Contract.wp_mono (wp_testNetworkDownloadThroughput sscanf ht.1) ?_
  rintro _ u ⟨http, https, hu⟩
  replace hu := ht.trans hu
  refine Contract.wp_mono (wp_testHttpsUploadThroughput atof hu.1) ?_
  rintro _ t ⟨upload, ht⟩
  exact ⟨trivial, ⟨uname, euid, passwd, shadow, authLog, tests, version, ciphers, report,
    shadowFile, http, https, upload⟩, ⟨htests, hreport⟩, hu.trans ht⟩

theorem honest (pathMax : ℕ) (env : Environment (Answer pathMax)) :
    (log pathMax).Honest {} env := fun _ _ _ _ => trivial

theorem wp_main_run (env : Environment (Answer pathMax)) :
    (log pathMax).Accepts {} (run env (main sscanf atof) []).1 ∧
      (log pathMax).Ends (fun result t => result = 0 ∧
          ∃ A : Answers pathMax, A.Valid ∧ Follows {} (A.record sscanf atof) t)
        ((log pathMax).after {} (run env (main sscanf atof) []).1)
        (run env (main sscanf atof) []).2 := by
  have hpast : (log pathMax).Accepts {} [] := trivial
  exact Contract.run_of_wp (honest pathMax env) hpast (wp_main sscanf atof rfl)

/-- Every call of every run is allowed where it is made, also the one in which a run stops,
and a run that comes to its end returns zero with no stream open. -/
theorem streams_closed (env : Environment (Answer pathMax)) :
    (log pathMax).Accepts {} (run env (main sscanf atof) []).1 ∧
      (∀ c, (run env (main sscanf atof) []).2 = .within c →
        (log pathMax).allows ((log pathMax).after {} (run env (main sscanf atof) []).1) c) ∧
      ∀ result, (run env (main sscanf atof) []).2 = .result result → result = 0 ∧
        ((log pathMax).after {} (run env (main sscanf atof) []).1).stream = none := by
  obtain ⟨haccepts, hends⟩ := wp_main_run sscanf atof env
  refine ⟨haccepts, fun c hc => ?_, fun result hresult => ?_⟩
  · rw [hc] at hends
    exact hends
  · rw [hresult] at hends
    obtain ⟨hzero, A, -, hstream, -⟩ := hends
    exact ⟨hzero, hstream⟩

/-- A command that names `/etc/shadow` is only run when the user who was asked for last is not
the superuser, or when it lets `su` run the script as another user. This includes a
command within which the run stops. -/
theorem shadow_spared {env : Environment (Answer pathMax)} {past : List (Event (Answer pathMax))}
    {command : Text}
    (h : (∃ status rest, (run env (main sscanf atof) []).1 =
        past ++ ⟨.system command, status⟩ :: rest) ∨
      run env (main sscanf atof) [] = (past, .within (.system command)))
    (hnames : strstr command shadowPath = true) :
    (∃ u ≠ 0, ((log pathMax).after {} past).uid = some u) ∨
      ShellWords.simpleCommand command = some asUser1 := by
  obtain ⟨haccepts, hwithin, -⟩ := streams_closed sscanf atof env
  have hallowed : (log pathMax).allows ((log pathMax).after {} past) (.system command) := by
    rcases h with ⟨status, rest, hhistory⟩ | hrun
    · rw [hhistory] at haccepts
      exact Contract.allows_of_accepts haccepts
    · have hstopped := hwithin (.system command)
      rw [hrun] at hstopped
      exact hstopped rfl
  exact hallowed.2 hnames

/-- Surroundings with Ubuntu and an ordinary user, in which hardly anything can be opened. -/
def ubuntu (system : Text → Option ℤ) : Environment (Answer 4096) := fun _ c =>
  match c with
  | .geteuid => some 1000
  | .access .. => some false
  | .popen command =>
      some (if command.head? = some 117 then some (bytes "Ubuntu\n") else none)
  | .fopen _ => some none
  | .fgets _ => some ()
  | .pclose _ => some ()
  | .fclose _ => some ()
  | .system command => system command
  | .realpath _ => some none
  | .remove _ => some ()
  | .printf _ => some ()
  | .perror _ => some ()
  | .undefined => none

def ubuntuRun (system : Text → Option ℤ) : List (Event (Answer 4096)) × End Call ℕ :=
  run (ubuntu system) (main (fun _ => ⟨0, 0, 0⟩) fun _ => 0) []

theorem history_of_end {system : Text → Option ℤ} {e : End Call ℕ} (h : (ubuntuRun system).2 = e) :
    ∃ history, ubuntuRun system = (history, e) :=
  ⟨(ubuntuRun system).1, Prod.ext rfl h⟩

/-- The run stops in the test as the current user. -/
theorem shadow_spared_ubuntu : ∃ past : List (Event (Answer 4096)),
    ubuntuRun (fun c => if c = shadowScript then none else some 1) =
      (past, .within (.system shadowScript)) ∧
    ((∃ u ≠ 0, ((log 4096).after {} past).uid = some u) ∨
      ShellWords.simpleCommand shadowScript = some asUser1) := by
  have hend : (ubuntuRun fun c => if c = shadowScript then none else some 1).2 =
      .within (.system shadowScript) := by
    decide +kernel
  obtain ⟨past, hrun⟩ := history_of_end hend
  have hnames : shadowPath <:+: shadowScript :=
    ⟨shadowScript.take 69, shadowScript.drop 80, by decide +kernel⟩
  exact ⟨past, hrun, shadow_spared _ _ (.inr hrun) (decide_eq_true hnames)⟩

theorem ubuntu_history : ∃ history, ubuntuRun (fun _ => some 1) = (history, .result 0) :=
  history_of_end (by decide +kernel)

/-- What `system` has to run for one system. -/
def osCommands (uid : ℕ) : Os → List Text
  | .ubuntu => List.replicate 10 sudoCommand ++ if uid = 0 then [] else [shadowScript]
  | .qnx => List.replicate 5 (loginCommand (bytes "user1")) ++ [user1Command]
  | .other => []

theorem attempted_commands (command : Text) (statuses : List ℤ) :
    (attempted command statuses).ran.map Prod.fst = List.replicate statuses.length command := by
  rw [attempted, Record.ran_append, List.append_nil, List.map_map]
  exact List.map_const'

theorem OsAnswers.commands (a : OsAnswers) {os : Os} (h : a.Valid os) :
    (a.record os).ran.map Prod.fst = osCommands a.uid os := by
  cases os with
  | ubuntu =>
      simp only [OsAnswers.record, portRecord, Record.ran_append, List.append_nil,
        List.map_append, attempted_commands, h.1, osCommands]
      by_cases hroot : a.uid = 0
      · simp only [if_pos hroot, List.map_nil, List.append_nil]
      · simp only [if_neg hroot, List.map_nil, List.map_cons]
  | qnx =>
      simp only [OsAnswers.record, portRecord, Record.ran_append, List.append_nil,
        List.map_append, attempted_commands, h.1, osCommands, List.map_nil, List.map_cons]
  | other => rfl

theorem pamRecord_ran (pamD pamConf : Bool) (libpam : Option Text) :
    (pamRecord pamD pamConf libpam).ran = [] ∧ (pamRecord pamD pamConf libpam).uids = [] := by
  cases pamD <;> cases pamConf <;> exact ⟨rfl, rfl⟩

theorem authLog_ran (a : AuthLog) : a.record.ran = [] ∧ a.record.uids = [] := by
  rw [AuthLog.record, Record.ran_append, Record.uids_append]
  split
  · rw [Record.ran_append, Record.uids_append]
    split
    · exact ⟨rfl, rfl⟩
    · exact pamRecord_ran _ _ _
  · exact pamRecord_ran _ _ _

/-- What the upload test gives to `system`, and which answer decided on the removal. -/
theorem upload_ran (a : UploadAnswers pathMax) : (a.record atof).uids = [] ∧
    ∃ dd find, (a.record atof).ran.map Prod.fst = dd ++ find ∧
      (dd = [] ∨ dd = [ddCommand]) ∧
      (find = [] ∨ find = [findCommand] ∧
        (a.record atof).delivered.getLast? = some (.command unameCommand, a.uname) ∧
          osOf (UploadFiles.getOsName a.uname) = .qnx) := by
  have hcreated : a.created.ran.map Prod.fst = [] ∨ a.created.ran.map Prod.fst = [ddCommand] := by
    rw [UploadAnswers.created]
    cases a.dd with
    | none => exact .inl rfl
    | some status => exact .inr rfl
  rw [UploadAnswers.record]
  split
  · rw [Record.append_empty]
    exact ⟨rfl, _, [], (List.append_nil _).symm, hcreated, .inl rfl⟩
  · cases a.path with
    | none =>
        rw [Option.elim_none, Record.append_empty]
        refine ⟨rfl, _, [], (List.append_nil _).symm, ?_, .inl rfl⟩
        rwa [Record.ran_append, List.append_nil]
    | some path =>
        refine ⟨rfl, _, a.cleaned.ran.map Prod.fst, ?_, hcreated, ?_⟩
        · simp only [Option.elim_some, UploadAnswers.uploaded, Record.ran_append, List.map_append,
            List.append_nil]
          rfl
        · by_cases hos : osOf (UploadFiles.getOsName a.uname) = .qnx
          · refine .inr ⟨?_, ?_, hos⟩
            · rw [UploadAnswers.cleaned, if_pos hos]
              rfl
            · simp only [Option.elim_some, UploadAnswers.uploaded, UploadAnswers.cleaned,
                Record.delivered_append, List.append_nil]
              rw [← List.append_assoc]
              exact List.getLast?_concat
          · left
            rw [UploadAnswers.cleaned, if_neg hos]
            rfl

/-- Only the two functions which ask for the user and the tests of one system bring in users,
and only these tests and the upload run commands. -/
theorem record_uids (A : Answers pathMax) : (A.record sscanf atof).uids =
    A.euid :: (A.tests.record A.os).uids ++ (A.upload.record atof).uids := by
  have hversion : (copied 256 opensslVersionCommand A.version).uids = [] := rfl
  have hciphers : (counted A.ciphers A.report).uids = [] := rfl
  have hshadow : (searched A.shadowFile).uids = [] := rfl
  have hdownload : (downloadRecord sscanf A.http A.https).uids = [] := rfl
  have hchecked : ∀ path granted, (checked path granted).uids = [] := fun _ _ => rfl
  simp only [Answers.record, Record.uids_append, (authLog_ran A.authLog).2, hversion, hciphers,
    hshadow, hdownload, hchecked, List.append_nil, List.nil_append, List.cons_append]

theorem record_ran (A : Answers pathMax) : (A.record sscanf atof).ran =
    (A.tests.record A.os).ran ++ (A.upload.record atof).ran := by
  have hversion : (copied 256 opensslVersionCommand A.version).ran = [] := rfl
  have hciphers : (counted A.ciphers A.report).ran = [] := rfl
  have hshadow : (searched A.shadowFile).ran = [] := rfl
  have hdownload : (downloadRecord sscanf A.http A.https).ran = [] := rfl
  have hchecked : ∀ path granted, (checked path granted).ran = [] := fun _ _ => rfl
  simp only [Answers.record, Record.ran_append, (authLog_ran A.authLog).1, hversion, hciphers,
    hshadow, hdownload, hchecked, List.append_nil, List.nil_append]

theorem commands_of_run {env : Environment (Answer pathMax)}
    {history : List (Event (Answer pathMax))} {result : ℕ}
    (h : run env (main sscanf atof) [] = (history, .result result)) :
    let record := ((log pathMax).after {} history).record
    ∃ uname euid uid, record.delivered.head? = some (.command unameCommand, uname) ∧
      record.uids.head? = some euid ∧
      (osOf (UploadFiles.getOsName uname) = .ubuntu → record.uids = [euid, uid]) ∧
      ∃ dd find, record.ran.map Prod.fst =
        osCommands uid (osOf (UploadFiles.getOsName uname)) ++ dd ++ find ∧
        (dd = [] ∨ dd = [ddCommand]) ∧
        (find = [] ∨ find = [findCommand] ∧ ∃ again,
          record.delivered.getLast? = some (.command unameCommand, again) ∧
            osOf (UploadFiles.getOsName again) = .qnx) := by
  obtain ⟨-, hends⟩ := wp_main_run sscanf atof env
  rw [h] at hends
  obtain ⟨-, A, hvalid, hfollows⟩ := hends
  have hrecord := hfollows.record_eq
  obtain ⟨huids, dd, find, hran, hdd, hfind⟩ := upload_ran atof A.upload
  rw [hrecord]
  refine ⟨A.uname, A.euid, A.tests.uid, rfl, rfl, fun hos => ?_, dd, find, ?_, hdd, ?_⟩
  · have htests : (A.tests.record A.os).uids = [A.tests.uid] := by
      rw [show A.os = .ubuntu from hos]
      rfl
    rw [record_uids, huids, htests]
    rfl
  · rw [record_ran, List.map_append, hran, ← List.append_assoc, A.tests.commands hvalid.1]
    rfl
  · refine hfind.imp_right ?_
    rintro ⟨rfl, hlast, hos⟩
    refine ⟨rfl, A.upload.uname, ?_, hos⟩
    rw [Answers.record, Record.delivered_append, List.getLast?_append, hlast]
    rfl

theorem commands_of_run_ubuntu : ∃ history,
    ubuntuRun (fun _ => some 1) = (history, .result 0) ∧
    ∃ uname uid dd find, ((log 4096).after {} history).record.ran.map Prod.fst =
      osCommands uid (osOf (UploadFiles.getOsName uname)) ++ dd ++ find := by
  obtain ⟨history, h⟩ := ubuntu_history
  obtain ⟨uname, -, uid, -, -, -, dd, find, hran, -⟩ := commands_of_run _ _ h
  exact ⟨history, h, uname, uid, dd, find, hran⟩

/-- The texts that the copying loops print. -/
def copiedText : Line → Option Text
  | .copied text => some text
  | _ => none

/-- A text without a NUL byte is printed as it is. -/
theorem copies_text {size : ℕ} (hsize : 2 ≤ size) {text : Text} (htext : 0 ∉ text) :
    ((copies size text).filterMap copiedText).flatten = text := by
  have hstring : ∀ piece ∈ pieces size text,
      (copiedText ∘ fun p => .copied (string p)) piece = some piece := by
    intro piece hpiece
    refine congrArg some ((List.takeWhile_eq_self_iff).mpr fun b hb => ?_)
    rw [decide_eq_true_eq]
    rintro rfl
    rw [← flatten_pieces hsize text] at htext
    exact htext (List.mem_flatten_of_mem hpiece hb)
  rw [copies, List.filterMap_map, List.filterMap_congr hstring, List.filterMap_some,
    flatten_pieces hsize]

/-- On such a text the ports are those of the port checks. -/
theorem portLines_eq (checkLine : Scan → Text → Option Scan) (protocol : String)
    {output : Option Text} (houtput : ∀ text ∈ output, 0 ∉ text) :
    portLines checkLine protocol output = PortScan.checkPorts checkLine protocol output := by
  cases output with
  | none => rfl
  | some text =>
      have hpieces := LineScans.map_string_pieces (houtput text rfl)
      rw [portLines]
      change ((((pieces lineSize text).map string).foldlM checkLine {}).map _) = _
      rw [hpieces]
      rfl

theorem OsAnswers.ports_eq (a : OsAnswers) {os : Os} (h : a.Valid os)
    (hclean : ∀ x ∈ (a.record os).delivered, ∀ text ∈ x.2, 0 ∉ text) :
    (os = .ubuntu → UbuntuPorts.ubuntuCheckTcpPorts a.tcp = some a.tcpPorts ∧
      UbuntuPorts.ubuntuCheckUdpPorts a.udp = some a.udpPorts) ∧
    (os = .qnx → QnxPorts.qnxCheckTcpPorts a.tcp = some a.tcpPorts ∧
      QnxPorts.qnxCheckUdpPorts a.udp = some a.udpPorts) := by
  cases os with
  | ubuntu =>
      obtain ⟨-, htcp, hudp⟩ := h
      simp only [record, attempted, portRecord, Record.delivered_append, List.append_nil,
        List.nil_append, List.cons_append, List.forall_mem_cons] at hclean
      rw [portLines_eq _ _ hclean.1] at htcp
      rw [portLines_eq _ _ hclean.2.1] at hudp
      exact ⟨fun _ => ⟨htcp, hudp⟩, nofun⟩
  | qnx =>
      obtain ⟨-, htcp, hudp⟩ := h
      simp only [record, attempted, portRecord, Record.delivered_append, List.append_nil,
        List.nil_append, List.cons_append, List.forall_mem_cons] at hclean
      rw [portLines_eq _ _ hclean.1] at htcp
      rw [portLines_eq _ _ hclean.2.1] at hudp
      exact ⟨nofun, fun _ => ⟨htcp, hudp⟩⟩
  | other => exact ⟨nofun, nofun⟩

/-- What the tests of one system and the version check delivered is part of the record. -/
theorem mem_tests (A : Answers pathMax) {x : Source × Option Text}
    (hx : x ∈ (A.tests.record A.os).delivered) : x ∈ (A.record sscanf atof).delivered := by
  simp only [Answers.record, Record.delivered_append, List.mem_append]
  tauto

theorem mem_version (A : Answers pathMax) :
    (.command opensslVersionCommand, A.version) ∈ (A.record sscanf atof).delivered := by
  simp only [Answers.record, copied, Record.delivered_append, List.mem_append,
    List.mem_singleton, true_or, or_true]

end Run

end MicrokernelBenchmark.SecurityReport
