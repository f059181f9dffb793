import MicrokernelBenchmark.CallTrees
import MicrokernelBenchmark.LineScans
import MicrokernelBenchmark.QnxPorts
import MicrokernelBenchmark.Throughput
import MicrokernelBenchmark.UbuntuPorts
import MicrokernelBenchmark.UploadFiles

/-!
# The network and security program

The whole of `network_and_security` as a tree of its calls. The surroundings
answer `popen` and `fopen` with the text that a stream will deliver, `system` with
the status of the command, and they may stop answering at any call. The numbers
which `sscanf` and `atof` read are parameters, and printed averages are exact.
-/
namespace MicrokernelBenchmark.NetworkAndSecurity
open CString CallTrees PortScan Throughput
open LineScans (string CipherSummary countCipher startsRoot)
open UploadCommand (FullPath)
open UploadFiles (maxOsLen filename Os osOf getOsName)

abbrev Text := List UInt8

inductive Source where
  | command (text : Text)
  | file (path : Text)
deriving DecidableEq, Repr

inductive AccessMode where
  | rOk
  | fOk
deriving DecidableEq, Repr

/-- The lines with a value in them, and the other texts. -/
inductive Line where
  | text (t : Text)
  | osName (name : Text)
  | euid (uid : ℕ)
  | access (path : Text) (granted : Bool)
  | copied (line : Text)
  | failed (failures attempts : ℕ)
  | port (d : Detected)
  | ciphers (s : CipherSummary)
  | rootEntry (entry : Text)
  | pam (found : Bool)
  | download (l : DownloadLine)
  | downloads (r : DownloadReport)
  | upload (run : ℕ) (time : ℚ≥0)
  | uploads (r : UploadReport)
deriving DecidableEq

inductive Call where
  | geteuid
  | access (path : Text) (mode : AccessMode)
  | popen (command : Text)
  | fopen (path : Text)
  | fgets (fp : Source)
  | pclose (fp : Source)
  | fclose (fp : Source)
  | system (command : Text)
  | realpath (path : Text)
  | remove (path : Text)
  | printf (line : Line)
  | perror (text : Text)
  | undefined
deriving DecidableEq

/-- The status of a command is the `int` that `system` returns. -/
abbrev Answer (pathMax : ℕ) : Call → Type
  | .geteuid => ℕ
  | .access .. => Bool
  | .popen _ => Option Text
  | .fopen _ => Option Text
  | .fgets _ => Unit
  | .pclose _ => Unit
  | .fclose _ => Unit
  | .system _ => ℤ
  | .realpath _ => Option (FullPath pathMax)
  | .remove _ => Unit
  | .printf _ => Unit
  | .perror _ => Unit
  | .undefined => Empty

structure Stream where
  source : Source
  text : Text

section Calls
variable {pathMax : ℕ}

abbrev Prog (pathMax : ℕ) : Type → Type := Program (Answer pathMax)

def ask (c : Call) : Prog pathMax (Answer pathMax c) := call c

def geteuid : Prog pathMax ℕ := ask .geteuid

def access (path : Text) (mode : AccessMode) : Prog pathMax Bool := ask (.access path mode)

def popen (command : Text) : Prog pathMax (Option Stream) := do
  let answer : Option Text ← ask (.popen command)
  pure (answer.map (Stream.mk (.command command)))

def fopen (path : Text) : Prog pathMax (Option Stream) := do
  let answer : Option Text ← ask (.fopen path)
  pure (answer.map (Stream.mk (.file path)))

/-- The string that is left in the buffer, and the stream behind it. -/
def fgets (size : ℕ) (fp : Stream) : Prog pathMax (Option (Text × Stream)) := do
  let _ : Unit ← ask (.fgets fp.source)
  pure ((CString.fgets size fp.text).map fun x => (string x.1, ⟨fp.source, x.2⟩))

def pclose (fp : Stream) : Prog pathMax Unit := ask (.pclose fp.source)

def fclose (fp : Stream) : Prog pathMax Unit := ask (.fclose fp.source)

def system (command : Text) : Prog pathMax ℤ := ask (.system command)

def realpath (path : Text) : Prog pathMax (Option (FullPath pathMax)) := ask (.realpath path)

def remove (path : Text) : Prog pathMax Unit := ask (.remove path)

def printf (line : Line) : Prog pathMax Unit := ask (.printf line)

def puts (text : String) : Prog pathMax Unit := printf (.text (bytes text))

def perror (text : String) : Prog pathMax Unit := ask (.perror (bytes text))

/-- A value that the language leaves undefined ends the run. -/
def defined {α : Type} : Option α → Prog pathMax α
  | some a => pure a
  | none => do
      let impossible : Empty ← ask .undefined
      nomatch impossible

/-- `while (fgets(line, size, fp))` for a text of less than `fuel` bytes. The body says
whether the loop goes on. -/
def whileFgets {α : Type} (size : ℕ) (body : α → Text → Prog pathMax (ForInStep α)) :
    ℕ → Stream → α → Prog pathMax α
  | 0, _, a => pure a
  | fuel + 1, fp, a => do
      match ← fgets size fp with
      | none => pure a
      | some (line, fp) =>
          match ← body a line with
          | .done a => pure a
          | .yield a => whileFgets size body fuel fp a

def eachLine {α : Type} (size : ℕ) (fp : Stream) (a : α)
    (body : α → Text → Prog pathMax (ForInStep α)) : Prog pathMax α :=
  whileFgets size body (fp.text.length + 1) fp a

end Calls

section Checks
variable {pathMax : ℕ}

def unameCommand : Text := bytes "uname -a"

/-- `max_len` is `MAX_OS_LEN` in both calls, so no `strncpy` cuts anything off. -/
def getOsName : Prog pathMax Text := do
  match ← popen unameCommand with
  | none =>
      perror "Failed to run uname"
      pure (bytes "UNKNOWN")
  | some fp =>
      let osName ← match ← fgets maxOsLen fp with
        | none => pure (bytes "UNKNOWN")
        | some (line, _) => pure line
      pclose fp
      pure osName

def checkFileAccess (filepath : Text) : Prog pathMax Unit := do
  printf (.access filepath (← access filepath .rOk))

def checkAdminPrivileges : Prog pathMax Unit := do
  let euid ← geteuid
  printf (.euid euid)
  if euid = 0 then
    puts "Current user has admin (root) privileges.\n"
  else
    puts "Current user does NOT have admin (root) privileges.\n"

/-- The loop of the two password tests: the command is run again and again, and what
is not zero counts as a failure. -/
def countFailures (command : Text) (attempts : ℕ) : Prog pathMax ℕ :=
  (List.range attempts).foldlM (fun failed _ => do
    let ret ← system command
    pure (if ret ≠ 0 then failed + 1 else failed)) 0

def sudoCommand : Text := bytes "echo 'xxxxxxx' | sudo -S -k true > /dev/null 2>&1"

def testFailedSudoAttempts (attempts : ℕ) : Prog pathMax Unit := do
  puts "\n--- Sudo Password brute-force ---\n"
  let failed ← countFailures sudoCommand attempts
  printf (.failed failed attempts)

/-- What `snprintf` leaves in 256 bytes. -/
def loginCommand (user : Text) : Text :=
  snprintf 256 (bytes "echo 'invalidpass' | login " ++ user ++ bytes " > /dev/null 2>&1")

def qnxTestFailedLoginAttempts (attempts : ℕ) (user : Text) : Prog pathMax Unit := do
  puts "\n--- Qnx Password Brute-Force ---\n"
  let failed ← countFailures (loginCommand user) attempts
  printf (.failed failed attempts)

/-- The loops which print what they read, as the one over `openssl version`. -/
def copyLines (size : ℕ) (fp : Stream) : Prog pathMax Unit :=
  eachLine size fp () fun _ line => do
    printf (.copied line)
    pure (.yield ())

def opensslVersionCommand : Text := bytes "openssl version"

def checkOpensslVersion : Prog pathMax Unit := do
  puts "\n--- OpenSSL Version ---\n"
  match ← popen opensslVersionCommand with
  | some fp =>
      copyLines 256 fp
      pclose fp
  | none => puts "OpenSSL not found or failed to run.\n"

def opensslCiphersCommand : Text := bytes "openssl ciphers -v"

def checkOpensslCiphers : Prog pathMax Unit := do
  puts "\n--- OpenSSL Cipher Summary (SHA256 / SHA384 / POLY1305) ---\n"
  match ← popen opensslCiphersCommand with
  | none => puts "Failed to list OpenSSL ciphers.\n"
  | some fp =>
      let summary ← eachLine lineSize fp {} fun s line => do
        pure (.yield (← defined (countCipher s line)))
      pclose fp
      printf (.ciphers summary)

def shadowPath : Text := bytes "/etc/shadow"

def printShadowRootLine : Prog pathMax Unit := do
  puts "\n--- Verify root password is encrypted/hashed /etc/shadow ---\n"
  match ← fopen shadowPath with
  | none => perror "Unable to open /etc/shadow (are you root?)"
  | some fp =>
      eachLine lineSize fp () fun _ line =>
        if startsRoot line then do
          printf (.rootEntry (LineScans.rootEntry ++ line))
          pure (.done ())
        else pure (.yield ())
      fclose fp

def shadowScript : Text :=
  bytes "echo Current user:; whoami; " ++
  bytes "echo Checking shadow permissions:; ls -l /etc/shadow; " ++
  bytes "echo Attempt to read /etc/shadow:; cat /etc/shadow; " ++
  bytes "echo Attempt to write to /etc/shadow:; echo test >> /etc/shadow; " ++
  bytes "echo Attempt to remove /etc/shadow:; rm -f /etc/shadow"

/-- The script as another user, with one more semicolon behind it. -/
def user1Command : Text := bytes "su - user1 -c '" ++ shadowScript ++ bytes ";'"

def testShadowAccessAsUser1 : Prog pathMax Unit := do
  puts "\n--- Access Control Check (Not Root) using /shadow ---\n"
  let _ret ← system user1Command

def testShadowAccessAsCurrentUser : Prog pathMax Unit := do
  puts "\n--- Access Control Check (Non-root) on Ubuntu using /etc/shadow ---\n"
  if (← geteuid) = 0 then
    puts ("Skipping Access Control tests on /etc/shadow to prevent damage: " ++
      "User is Root.\n")
  else
    let _ret ← system shadowScript

/-- One loop over the lines of a listing for the four port checks. A port is printed
where the table has not seen it. -/
def checkPorts (heading command program protocol : String)
    (checkLine : Scan → Text → Option Scan) : Prog pathMax Unit := do
  puts heading
  match ← popen (bytes command) with
  | none => perror program
  | some fp =>
      let _ ← eachLine lineSize fp {} fun s line => do
        let t ← defined (checkLine s line)
        (t.printed.drop s.printed.length).forM fun port => printf (.port ⟨protocol, port⟩)
        pure (.yield t)
      pclose fp

def ubuntuCheckTcpPorts : Prog pathMax Unit :=
  checkPorts "\n--- TCP Listening Ports ---\n" "ss -tuln | grep LISTEN" "Failed to run ss" "TCP"
    UbuntuPorts.checkLine

def ubuntuCheckUdpPorts : Prog pathMax Unit :=
  checkPorts "\n--- UDP Listening Ports ---\n" "ss -uln" "Failed to run ss" "UDP"
    UbuntuPorts.checkLine

def qnxCheckTcpPorts : Prog pathMax Unit :=
  checkPorts "\n--- TCP Listening Ports ---\n" "netstat -an | grep LISTEN"
    "Failed to run netstat" "TCP" QnxPorts.checkLine

def qnxCheckUdpPorts : Prog pathMax Unit :=
  checkPorts "\n--- UDP Listening Ports ---\n" "netstat -an | grep udp"
    "Failed to run netstat" "UDP" QnxPorts.checkLine

def logPath : Text := bytes "/var/log/auth.log"

def headCommand : Text := bytes "head -n 2 /var/log/auth.log"

def findPamCommand : Text := bytes "find /lib /usr/lib -name 'libpam.so*' 2>/dev/null"

def pamFound : Prog pathMax Bool := do
  if ← access (bytes "/etc/pam.d") .fOk then pure true
  else if ← access (bytes "/etc/pam.conf") .fOk then pure true
  else match ← popen findPamCommand with
    | none => pure false
    | some fp =>
        let found := (← fgets 256 fp).isSome
        pclose fp
        pure found

/-- Where the log cannot be read, the check ends before it comes to the modules. -/
def checkAuthLog : Prog pathMax Unit := do
  puts "\n--- Authentication Log Check ---\n"
  let readable ← access logPath .rOk
  let headFailed ← if readable then do
      puts "/var/log/auth.log exists. Showing first 2 lines:\n\n"
      match ← popen headCommand with
      | none =>
          perror "Failed to read auth.log"
          pure true
      | some fp =>
          copyLines 512 fp
          pclose fp
          pure false
    else do
      puts "/var/log/auth.log not found or access denied.\n"
      pure false
  if headFailed then pure ()
  else
    puts "\n--- Pluggable Authentication Module(PAM) Check ---\n"
    printf (.pam (← pamFound))

end Checks

section Throughput
variable {pathMax : ℕ} (sscanf : Text → Download) (atof : Text → ℚ≥0)

/-- The loop of ten runs: `body` is what a run does with the line that it could read. -/
def tenRuns {α : Type} (command : Text) (popenFailed : Prog pathMax Unit)
    (body : α → ℕ → Text → Prog pathMax α) (a : α) : Prog pathMax α :=
  (List.range 10).foldlM (fun a i => do
    match ← popen command with
    | none =>
        popenFailed
        pure a
    | some fp =>
        let a ← match ← fgets 128 fp with
          | none => pure a
          | some (buffer, _) => body a i buffer
        pclose fp
        pure a) a

def downloads (command : Text) : Prog pathMax DownloadTotals :=
  tenRuns command (pure ()) (fun t i buffer => do
    let d := sscanf buffer
    printf (.download ⟨i + 1, megabytes d.size, d.time, megabytes d.speed⟩)
    pure (downloadRun t i d)) {}

def httpCommand : Text :=
  bytes "curl -s -w \"%\x7btime_total\x7d %\x7bsize_download\x7d %\x7bspeed_download\x7d\\n\" " ++
  bytes "-o /dev/null http://speedtest.tele2.net/100MB.zip"

def httpsCommand : Text :=
  bytes "curl -k -s -w \"%\x7btime_total\x7d %\x7bsize_download\x7d " ++
  bytes "%\x7bspeed_download\x7d\\n\" -o /dev/null https://proof.ovh.net/files/100Mb.dat"

def testNetworkDownloadThroughput : Prog pathMax Unit := do
  puts "\n=== Network Download Throughput Test ===\n"
  puts "\n[HTTP] Testing download from http://speedtest.tele2.net...\n"
  let http ← downloads sscanf httpCommand
  puts "\n[HTTPS] Testing download from https://proof.ovh.net...\n"
  let https ← downloads sscanf httpsCommand
  puts "\n--- Average Download Performance ---\n"
  printf (.downloads ⟨http.average, https.average⟩)

def ddCommand : Text := bytes "dd if=/dev/zero of=testfile.dat bs=1M count=10 status=none"

def findCommand : Text := bytes "find / -name testfile.dat -exec rm -f \x7b\x7d \\;"

def uploads (path : FullPath pathMax) : Prog pathMax UploadTotals :=
  tenRuns (UploadCommand.cmd pathMax path.text) (perror "Failed to run curl")
    (fun t i buffer => do
      let time := atof buffer
      printf (.upload (i + 1) time)
      pure (uploadRun t i time)) {}

def uploadAverage (totalTime : ℚ≥0) : UploadReport :=
  let avgTime := totalTime / (20 : ℕ)
  ⟨avgTime, (10 * 8 : ℕ) / avgTime⟩

/-- From the resolved path on. -/
def uploadAndCleanup (path : FullPath pathMax) : Prog pathMax Unit := do
  let total ← uploads atof path
  match osOf (← getOsName) with
  | .ubuntu => remove filename
  | .qnx =>
      let _ret ← system findCommand
  | .other => pure ()
  puts "\n--- Average Upload Performance ---\n"
  printf (.uploads (uploadAverage total.time))

def testHttpsUploadThroughput : Prog pathMax Unit := do
  puts "\n=== HTTPS Upload Throughput Test ===\n"
  let ddFailed ← if ← access filename .fOk then pure false
    else do
      puts "Creating 10MB test file: testfile.dat\n"
      if (← system ddCommand) ≠ 0 then
        perror "Failed to create test file"
        pure true
      else pure false
  if ddFailed then pure ()
  else match ← realpath filename with
    | none => perror "Failed to resolve full path to test file"
    | some path => uploadAndCleanup atof path

/-- What is run for each system only. -/
def osTests : Os → Prog pathMax Unit
  | .ubuntu => do
      testFailedSudoAttempts 10
      testShadowAccessAsCurrentUser
      ubuntuCheckTcpPorts
      ubuntuCheckUdpPorts
  | .qnx => do
      qnxTestFailedLoginAttempts 5 (bytes "user1")
      testShadowAccessAsUser1
      qnxCheckTcpPorts
      qnxCheckUdpPorts
  | .other => puts "Unsupported or unrecognized OS. No OS-specific tests run.\n"

def main : Prog pathMax ℕ := do
  let osName ← getOsName
  printf (.osName osName)
  checkAdminPrivileges
  checkFileAccess (bytes "/etc/passwd")
  checkFileAccess shadowPath
  checkAuthLog
  osTests (osOf osName)
  checkOpensslVersion
  checkOpensslCiphers
  printShadowRootLine
  testNetworkDownloadThroughput sscanf
  testHttpsUploadThroughput atof
  pure 0

end Throughput

end MicrokernelBenchmark.NetworkAndSecurity
