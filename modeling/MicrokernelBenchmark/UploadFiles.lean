import MicrokernelBenchmark.UploadCommand
import Mathlib.Logic.Function.Basic

/-!
# The files of the upload test

What `test_https_upload_throughput` does to the file system: it creates its test
file if there is none, lets the shell run the upload command ten times and cleans
up by the name of the operating system. A file system maps paths, whose directories
are resolved, to what is there. `access` and `dd` follow a symbolic link, `remove`
and `rm` take the link itself. The environment supplies what `dd`, `realpath`,
`popen`, `uname` and the removals do, and what the commands do to the files.

A path without bytes that are special to the shell makes it run `curl` as it is
meant, which changes no file; any other path may make it do anything. The test
leaves the files alone only when it removes just what it has created.
-/
namespace MicrokernelBenchmark.UploadFiles
open CString UploadCommand ShellWords

abbrev Content := List UInt8

structure Path where
  directory : List UInt8
  name : List UInt8
deriving DecidableEq, Repr

inductive Node where
  | file (content : Content)
  | directory
  | link (target : Path)
  | special
deriving DecidableEq, Repr

abbrev Files := Path → Option Node

def isDirectory : Option Node → Bool
  | some .directory => true
  | _ => false

/-- The path behind at most `k` links, if all of them can be reached. -/
def follow (reaches : Path → Bool) (files : Files) : ℕ → Path → Option Path
  | 0, p =>
      if reaches p then
        match files p with
        | some (.link _) => none
        | _ => some p
      else none
  | k + 1, p =>
      if reaches p then
        match files p with
        | some (.link q) => follow reaches files k q
        | _ => some p
      else none

def filename : List UInt8 := bytes "testfile.dat"

/-- What `dd` writes, `count=10` blocks of `bs=1M` from `/dev/zero`. -/
def zeros : Content := List.replicate (10 * 1048576) 0

/-- A failing `dd` can leave nothing or a part of the file. -/
inductive Dd where
  | success
  | failure (left : Option Content)

/-- `reaches` says which paths the process can get at, `maxLinks` how many links are followed,
`shell` what a command does to the files, `removes` whether `remove` succeeds, and `rm` which
paths `find` comes to and `rm` can remove, if they are no directories. -/
structure Environment (pathMax : ℕ) where
  cwd : List UInt8
  reaches : Path → Bool
  maxLinks : ℕ
  dd : Dd
  realpath : Option (FullPath pathMax)
  popen : ℕ → Bool
  shell : ℕ → List UInt8 → Files → Files
  uname : Option (List UInt8)
  removes : Bool
  rm : Path → Bool

def maxOsLen : ℕ := 256

/-- The argument is the output of `uname -a`, if it could be run. -/
def getOsName : Option (List UInt8) → List UInt8
  | none => bytes "UNKNOWN"
  | some output =>
      match fgets maxOsLen output with
      | none => bytes "UNKNOWN"
      | some (line, _) => line.takeWhile (· ≠ 0)

inductive Os where
  | ubuntu
  | qnx
  | other
deriving DecidableEq, Repr

def osOf (osName : List UInt8) : Os :=
  if strstr osName (bytes "Ubuntu") then .ubuntu
  else if strstr osName (bytes "QNX") then .qnx
  else .other

section Test
variable {pathMax : ℕ} (env : Environment pathMax)

def Environment.file : Path := ⟨env.cwd, filename⟩

def Environment.os : Os := osOf (getOsName env.uname)

def Environment.target (files : Files) : Option Path :=
  follow env.reaches files env.maxLinks env.file

/-- `access(filename, F_OK) == 0` -/
def access (files : Files) : Bool := (env.target files).any fun p => (files p).isSome

def withCreated (files : Files) (p : Path) : Files := Function.update files p (some (.file zeros))

/-- The files after the creation, and whether the test goes on. -/
def create (files : Files) : Files × Bool :=
  if access env files then (files, true)
  else match env.target files with
    | none => (files, false)
    | some p =>
        match env.dd with
        | .success => (withCreated files p, true)
        | .failure left => (Function.update files p (left.map .file), false)

def upload (path : FullPath pathMax) (files : Files) (i : ℕ) : Files :=
  if env.popen i then env.shell i (cmd pathMax path.text) files else files

def uploads (path : FullPath pathMax) (files : Files) : Files :=
  (List.range 10).foldl (upload env path) files

def Removable (files : Files) (p : Path) : Prop :=
  p.name = filename ∧ env.rm p = true ∧ isDirectory (files p) = false

instance (files : Files) (p : Path) : Decidable (Removable env files p) :=
  inferInstanceAs (Decidable (_ ∧ _))

/-- `find / -name testfile.dat -exec rm -f {} \;` -/
def findAndRemove (files : Files) : Files :=
  fun p => if Removable env files p then none else files p

def cleanup (files : Files) : Files :=
  match env.os with
  | .ubuntu => if env.removes then Function.update files env.file none else files
  | .qnx => findAndRemove env files
  | .other => files

def testHttpsUploadThroughput (files : Files) : Files :=
  match create env files with
  | (files, false) => files
  | (files, true) =>
      match env.realpath with
      | none => files
      | some path => cleanup env (uploads env path files)

/-- `curl` changes no file where the shell calls it with the intended arguments. -/
def Environment.CurlReads : Prop := ∀ i command files path,
  simpleCommand command = some (arguments path) → env.shell i command files = files

/-- The path has no byte that is special to the shell. -/
def Plain (path : FullPath pathMax) : Prop := ∀ b ∈ path.text, ¬ Special b

instance (path : FullPath pathMax) : Decidable (Plain path) :=
  inferInstanceAs (Decidable (∀ b ∈ path.text, ¬ Special b))

/-- Nothing may be removed. -/
def Keeps (files : Files) : Prop :=
  match env.os with
  | .ubuntu => env.removes = false
  | .qnx => ∀ p, Removable env files p → files p = none
  | .other => True

/-- The created file must be removed and nothing else; a link to it would be removed instead. -/
def Undoes (files : Files) (created : Path) : Prop :=
  match env.os with
  | .ubuntu => env.removes = true ∧ files env.file = none
  | .qnx => created.name = filename ∧ env.rm created = true ∧
      ∀ p, p ≠ created → Removable env files p → files p = none
  | .other => False

/-- After commands of unknown effect: what is removed was not there, and the rest is as it was. -/
def Restores (files now : Files) : Prop :=
  match env.os with
  | .ubuntu =>
      if env.removes then files env.file = none ∧ ∀ p, p ≠ env.file → now p = files p
      else now = files
  | .qnx => ∀ p, if Removable env now p then files p = none else now p = files p
  | .other => now = files

def Condition (files : Files) : Prop :=
  if access env files then
    match env.realpath with
    | none => True
    | some path =>
        if Plain path then Keeps env files else Restores env files (uploads env path files)
  else
    match env.target files with
    | none => True
    | some p =>
        match env.dd with
        | .failure left => left = none
        | .success =>
            match env.realpath with
            | none => False
            | some path =>
                if Plain path then Undoes env files p
                else Restores env files (uploads env path (withCreated files p))

theorem condition_created {env : Environment pathMax} {files : Files} {p : Path}
    {path : FullPath pathMax} (haccess : ¬ access env files = true)
    (htarget : env.target files = some p) (hdd : env.dd = .success)
    (hpath : env.realpath = some path) (hplain : Plain path) :
    Condition env files ↔ Undoes env files p := by
  rw [Condition, if_neg haccess, htarget]
  dsimp only
  rw [hdd, hpath]
  dsimp only
  rw [if_pos hplain]

theorem uploads_plain (h : env.CurlReads) {path : FullPath pathMax} (hplain : Plain path)
    (files : Files) : uploads env path files = files := by
  have hwords : simpleCommand (cmd pathMax path.text) = some (arguments path.text) := by
    rw [cmd_eq, simpleCommand_formatted hplain]
  have hstep : ∀ files i, upload env path files i = files := by
    intro files i
    rw [upload]
    split
    · exact h i _ files path.text hwords
    · rfl
  rw [uploads]
  induction List.range 10 with
  | nil => rfl
  | cons i is ih => rw [List.foldl_cons, hstep, ih]

theorem findAndRemove_eq_iff {files now : Files} : findAndRemove env now = files ↔
    ∀ p, if Removable env now p then files p = none else now p = files p := by
  rw [funext_iff]
  refine forall_congr' fun p => ?_
  rw [findAndRemove]
  split
  · exact eq_comm
  · exact Iff.rfl

theorem cleanup_eq_iff {files now : Files} :
    cleanup env now = files ↔ Restores env files now := by
  rw [cleanup, Restores]
  cases env.os with
  | ubuntu =>
      cases hremoves : env.removes with
      | true =>
          simp only [if_true, Function.update_eq_iff]
          exact and_congr_left fun _ => eq_comm
      | false => rfl
  | qnx => exact findAndRemove_eq_iff env
  | other => rfl

/-- Where there is nothing there is no link to follow. -/
theorem target_eq_self {files : Files} {p : Path} (hfile : files env.file = none)
    (hp : env.target files = some p) : p = env.file := by
  have htarget : env.target files = some env.file ∨ env.target files = none := by
    rw [Environment.target]
    cases env.maxLinks <;> simp only [follow, hfile] <;> split <;> simp
  rcases htarget with htarget | htarget
  · exact Option.some.inj (hp.symm.trans htarget)
  · simp [htarget] at hp

theorem file_ne_none {files : Files} (h : access env files = true) : files env.file ≠ none := by
  intro hfile
  obtain ⟨p, hp, hsome⟩ := (Option.any_eq_true ..).mp h
  rw [target_eq_self env hfile hp, hfile] at hsome
  cases hsome

theorem target_eq_none {files : Files} {p : Path} (h : ¬ access env files = true)
    (hp : env.target files = some p) : files p = none := by
  rw [access, hp] at h
  simpa using h

theorem restores_self_iff {files : Files} (h : access env files = true) :
    Restores env files files ↔ Keeps env files := by
  rw [Restores, Keeps]
  cases env.os with
  | ubuntu => simp [file_ne_none env h]
  | qnx =>
      refine forall_congr' fun p => ?_
      split
      case isTrue hp => exact ⟨fun h _ => h, fun h => h hp⟩
      case isFalse hp => exact ⟨fun _ h => absurd h hp, fun _ => rfl⟩
  | other => simp

section Created
variable {files : Files} {p : Path}

theorem withCreated_ne (hnone : files p = none) : withCreated files p ≠ files := by
  rw [withCreated, ne_eq, Function.update_eq_self_iff, hnone]
  simp

theorem removable_created_self :
    Removable env (withCreated files p) p ↔ p.name = filename ∧ env.rm p = true := by
  simp [Removable, withCreated, isDirectory]

theorem removable_created_of_ne {r : Path} (hne : r ≠ p) :
    Removable env (withCreated files p) r ↔ Removable env files r := by
  rw [Removable, Removable, withCreated, Function.update_of_ne hne]

theorem restores_created_iff (hnone : files p = none) (htarget : env.target files = some p) :
    Restores env files (withCreated files p) ↔ Undoes env files p := by
  rw [Restores, Undoes]
  cases env.os with
  | ubuntu =>
      cases env.removes with
      | true =>
          simp only [if_true, true_and]
          refine ⟨And.left, fun hfile => ⟨hfile, fun r hr => ?_⟩⟩
          rw [← target_eq_self env hfile htarget] at hr
          exact Function.update_of_ne hr ..
      | false => simpa using withCreated_ne hnone
  | qnx =>
      constructor
      · intro h
        have hself := h p
        split at hself
        case isTrue hp =>
          obtain ⟨hname, hrm⟩ := (removable_created_self env).mp hp
          refine ⟨hname, hrm, fun r hne hr => ?_⟩
          have hother := h r
          rwa [if_pos ((removable_created_of_ne env hne).mpr hr)] at hother
        case isFalse =>
          rw [withCreated, Function.update_self, hnone] at hself
          cases hself
      · rintro ⟨hname, hrm, hother⟩ r
        by_cases hne : r = p
        · subst hne
          rwa [if_pos ((removable_created_self env).mpr ⟨hname, hrm⟩)]
        · split
          case isTrue hr => exact hother r hne ((removable_created_of_ne env hne).mp hr)
          case isFalse => exact Function.update_of_ne hne ..
  | other => simpa using withCreated_ne hnone

end Created

end Test

/-- All calls succeed, in the directory "/home" of a system with the given name. -/
def working (osName : String) : Environment 4096 where
  cwd := bytes "/home"
  reaches := fun _ => true
  maxLinks := 40
  dd := .success
  realpath := some ⟨bytes "/home/testfile.dat", by decide, by decide, by decide⟩
  popen := fun _ => true
  shell := fun _ _ files => files
  uname := some (bytes osName)
  removes := true
  rm := fun _ => true

/-- A system with one file, "/home/testfile.dat". -/
def oneFile : Files := fun p =>
  if p = ⟨bytes "/home", filename⟩ then some (.file (bytes "data")) else none

end MicrokernelBenchmark.UploadFiles
