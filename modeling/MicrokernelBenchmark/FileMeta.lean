import MicrokernelBenchmark.CString
import MicrokernelBenchmark.DecimalText
import MicrokernelBenchmark.FileTree
import MicrokernelBenchmark.Loops

/-!
# The metadata benchmark

`file_meta` for any number of files, on the tree below its working directory. It
creates its files in a directory of its own, renames them, deletes them and
removes the directory, and looks at the results of its calls only while it creates.
-/
namespace MicrokernelBenchmark.FileMeta
open CString DecimalText

abbrev Name := List UInt8

abbrev Tree := FileTree Name (List UInt8)

def dirName : Name := bytes "meta_test_dir"

/-- The components of a relative path. -/
def components (path : List UInt8) : List Name := path.splitOn 47

def pathSize : ℕ := 256

/-- The format `%s/file_%d.txt`, or another one with that stem, filled in. -/
def pathText (stem : List UInt8) (i : ℕ) : List UInt8 :=
  dirName ++ bytes "/" ++ stem ++ printInt i ++ bytes ".txt"

def filepath (i : ℕ) : List UInt8 := snprintf pathSize (pathText (bytes "file_") i)

def newpath (i : ℕ) : List UInt8 := snprintf pathSize (pathText (bytes "renamed_") i)

inductive Call where
  | mkdir (path : List UInt8)
  | fopen (path : List UInt8)
  | rename (path path' : List UInt8)
  | unlink (path : List UInt8)
  | rmdir (path : List UInt8)
deriving DecidableEq, Repr

/-- The tree behind a call, if that succeeds. -/
def Call.effect (t : Tree) : Call → Option Tree
  | .mkdir path => t.mkdir (components path)
  | .fopen path => t.create [] (components path)
  | .rename path path' => t.rename (components path) (components path')
  | .unlink path => t.unlink (components path)
  | .rmdir path => t.rmdir (components path)

/-- The log has every call with the tree that it was made on. -/
structure Run where
  tree : Tree
  log : List (Tree × Call) := []

def Run.perform (r : Run) (c : Call) : Run where
  tree := (c.effect r.tree).getD r.tree
  log := r.log ++ [(r.tree, c)]

/-- What the shell does for `cleanup`, and which calls may succeed. -/
structure Environment where
  cleanup : Tree → Tree
  mkdir : Bool
  fopen : ℕ → Bool

/-- All calls of a run but the last, with so many files created, renamed and deleted. -/
def calls (created renamed deleted : ℕ) : List Call :=
  .mkdir dirName :: (List.range created).map (fun i => .fopen (filepath i)) ++
    (List.range renamed).map (fun i => .rename (filepath i) (newpath i)) ++
    (List.range deleted).map fun i => .unlink (newpath i)

def createFile (env : Environment) (r : Run) (i : ℕ) : Except Run Run :=
  if env.fopen i && ((Call.fopen (filepath i)).effect r.tree).isSome then
    .ok (r.perform (.fopen (filepath i)))
  else .error r

def renameFile (r : Run) (i : ℕ) : Run := r.perform (.rename (filepath i) (newpath i))

def deleteFile (r : Run) (i : ℕ) : Run := r.perform (.unlink (newpath i))

/-- An error is the `return 1` of the first loop. -/
def main (numFiles : ℕ) (env : Environment) (t : Tree) : Except Run Run := do
  let r : Run := { tree := env.cleanup t }
  let r := if env.mkdir then r.perform (.mkdir dirName) else r
  let r ← forBelow (createFile env) numFiles r
  let r := repeatBelow renameFile numFiles r
  let r := repeatBelow deleteFile numFiles r
  pure (r.perform (.rmdir dirName))

section Names
variable {i j : ℕ}

variable {stem : List UInt8}

def entry (stem : List UInt8) (i : ℕ) : Name := stem ++ printInt i ++ bytes ".txt"

def fileName (i : ℕ) : Name := entry (bytes "file_") i

def renamedName (i : ℕ) : Name := entry (bytes "renamed_") i

theorem snprintf_pathText (hstem : stem.length ≤ 8) (hi : i ≤ 2147483647) :
    snprintf pathSize (pathText stem i) = pathText stem i := by
  have hdigits : (printInt (i : ℤ)).length ≤ 11 := length_printInt_le (by decide) (by omega)
  have hdir : dirName.length = 13 := by decide
  have hslash : (bytes "/").length = 1 := by decide
  have htxt : (bytes ".txt").length = 4 := by decide
  apply List.take_of_length_le
  rw [pathText, pathSize]
  simp only [List.length_append]
  omega

theorem slash_not_mem_printInt (i : ℕ) : (47 : UInt8) ∉ printInt i := by
  intro h
  rw [printInt, if_neg (by omega)] at h
  cases isDigit_of_mem_printNat h

theorem components_pathText (hstem : (47 : UInt8) ∉ stem) (i : ℕ) :
    components (pathText stem i) = [dirName] ++ [entry stem i] := by
  have htext : pathText stem i = [47].intercalate [dirName, entry stem i] := by
    have hslash : bytes "/" = [47] := by decide
    simp [pathText, entry, hslash, List.intercalate]
  have hdir : (47 : UInt8) ∉ dirName := by decide
  have hentry : (47 : UInt8) ∉ entry stem i := by
    have htxt : (47 : UInt8) ∉ bytes ".txt" := by decide
    simp [entry, hstem, slash_not_mem_printInt, htxt]
  rw [components, htext]
  exact List.splitOn_intercalate 47 (by simp [hdir, hentry]) (by simp)

theorem components_dirName : components dirName = [] ++ [dirName] :=
  List.splitOn_eq_singleton (by decide)

theorem components_filepath (hi : i ≤ 2147483647) :
    components (filepath i) = [dirName] ++ [fileName i] := by
  rw [filepath, snprintf_pathText (by decide) hi, components_pathText (by decide)]
  rfl

theorem components_newpath (hi : i ≤ 2147483647) :
    components (newpath i) = [dirName] ++ [renamedName i] := by
  rw [newpath, snprintf_pathText (by decide) hi, components_pathText (by decide)]
  rfl

theorem entry_injective (stem : List UInt8) : Function.Injective (entry stem) := by
  intro i j h
  have hdigits := List.append_cancel_left
    (List.append_cancel_right h : stem ++ printInt i = stem ++ printInt j)
  exact Int.ofNat.inj (printInt_injective hdigits)

theorem fileName_ne_renamedName (i j : ℕ) : fileName i ≠ renamedName j := by
  intro h
  have hhead := congrArg List.head? h
  cases hhead

end Names

section Directory
variable {t₀ t : Tree} {S : Set Name} {x y : Name}

/-- The directory is there and has just the named empty files; outside of it nothing has
changed. -/
structure InDir (t₀ : Tree) (S : Set Name) (t : Tree) : Prop where
  directory : t.node [dirName] = some .directory
  file : ∀ x ∈ S, t.node ([dirName] ++ [x]) = some (.file [])
  absent : ∀ x, x ∉ S → t.node ([dirName] ++ [x]) = none
  outside : ∀ p, ¬ [dirName] <+: p → t.node p = t₀.node p

/-- A change of entries of the directory alone. -/
theorem InDir.change (h : InDir t₀ S t) {S' : Set Name} {u : Tree}
    (hfile : ∀ x ∈ S', u.node ([dirName] ++ [x]) = some (.file []))
    (habsent : ∀ x, x ∉ S' → u.node ([dirName] ++ [x]) = none)
    (hother : ∀ p, (∀ x, p ≠ [dirName] ++ [x]) → u.node p = t.node p) : InDir t₀ S' u where
  directory := by
    rw [hother _ (by simp)]
    exact h.directory
  file := hfile
  absent := habsent
  outside p hp := by
    have hne : ∀ x, p ≠ [dirName] ++ [x] := by
      rintro x rfl
      exact hp (List.prefix_append _ _)
    rw [hother p hne]
    exact h.outside p hp

theorem InDir.create (h : InDir t₀ S t) (hx : x ∉ S) :
    ∃ u, t.create [] ([dirName] ++ [x]) = some u ∧ InDir t₀ (insert x S) u := by
  obtain ⟨u, hu, hnode⟩ := FileTree.create_entry h.directory (h.absent x hx)
  refine ⟨u, hu, h.change ?_ ?_ ?_⟩
  · intro y hy
    rw [hnode]
    split
    case isTrue => rfl
    case isFalse hne =>
      apply h.file
      exact (Set.mem_insert_iff.mp hy).resolve_left (by rintro rfl; exact hne rfl)
  · intro y hy
    rw [Set.mem_insert_iff, not_or] at hy
    rw [hnode, if_neg (by simpa using hy.1)]
    exact h.absent y hy.2
  · intro p hp
    rw [hnode, if_neg (hp x)]

theorem InDir.unlink (h : InDir t₀ S t) (hx : x ∈ S) :
    ∃ u, t.unlink ([dirName] ++ [x]) = some u ∧ InDir t₀ (S \ {x}) u := by
  obtain ⟨u, hu, hnode⟩ := FileTree.unlink_file (h.file x hx)
  refine ⟨u, hu, h.change ?_ ?_ ?_⟩
  · intro y hy
    rw [hnode, if_neg (by simpa using hy.2)]
    exact h.file y hy.1
  · intro y hy
    rw [hnode]
    split
    case isTrue => rfl
    case isFalse hne =>
      apply h.absent
      exact fun hmem => hy ⟨hmem, by rintro rfl; exact hne rfl⟩
  · intro p hp
    rw [hnode, if_neg (hp x)]

theorem InDir.rename (h : InDir t₀ S t) (hx : x ∈ S) (hy : y ∉ S) :
    ∃ u, t.rename ([dirName] ++ [x]) ([dirName] ++ [y]) = some u ∧
      InDir t₀ (insert y (S \ {x})) u := by
  obtain ⟨u, hu, hnode⟩ := FileTree.rename_file (h.file x hx) h.directory (h.absent y hy)
  refine ⟨u, hu, h.change ?_ ?_ ?_⟩
  · intro z hz
    rw [hnode]
    split
    case isTrue => rfl
    case isFalse hne =>
      have hmem := (Set.mem_insert_iff.mp hz).resolve_left (by rintro rfl; exact hne rfl)
      rw [if_neg (by simpa using hmem.2)]
      exact h.file z hmem.1
  · intro z hz
    rw [Set.mem_insert_iff, not_or] at hz
    rw [hnode, if_neg (by simpa using hz.1)]
    split
    case isTrue => rfl
    case isFalse hne =>
      apply h.absent
      exact fun hmem => hz.2 ⟨hmem, by rintro rfl; exact hne rfl⟩
  · intro p hp
    rw [hnode, if_neg (hp y), if_neg (hp x)]

/-- Without entries the directory is empty. -/
theorem InDir.empty (h : InDir t₀ ∅ t) : t.Empty [dirName] := by
  rw [FileTree.empty_iff]
  intro p hp hne
  obtain ⟨r, rfl⟩ := hp
  cases r with
  | nil => exact absurd (List.append_nil _) hne
  | cons x r =>
      have hx := h.absent x (Set.notMem_empty x)
      by_cases hr : r = []
      · rw [hr]
        exact hx
      · have hbelow : [dirName] ++ [x] <+: [dirName] ++ x :: r := ⟨r, by simp⟩
        exact t.node_below (by rw [hx]; simp) hbelow (by simpa using hr)

end Directory

/-- What a call is meant to find in the tree. -/
def Call.Finds (t : Tree) : Call → Prop
  | .mkdir path => t.node (components path) = none
  | .fopen path => t.node (components path) = none
  | .rename path path' => (∃ content, t.node (components path) = some (.file content)) ∧
      t.node (components path') = none
  | .unlink path => ∃ content, t.node (components path) = some (.file content)
  | .rmdir path => t.node (components path) = some .directory ∧ t.Empty (components path)

section Loops
variable {t₀ : Tree} {S S' : Set Name} {r : Run} {cs : List Call} {n k : ℕ}

/-- The calls so far, which have all found what they were meant to find. -/
structure Stage (t₀ : Tree) (S : Set Name) (cs : List Call) (r : Run) : Prop where
  tree : InDir t₀ S r.tree
  found : ∀ e ∈ r.log, e.2.Finds e.1
  logged : r.log.map Prod.snd = cs

theorem perform_tree {c : Call} {u : Tree} (h : c.effect r.tree = some u) :
    (r.perform c).tree = u := by
  rw [Run.perform, h]
  rfl

theorem Stage.perform (h : Stage t₀ S cs r) {c : Call} {u : Tree} (hc : c.effect r.tree = some u)
    (hu : InDir t₀ S' u) (hfinds : c.Finds r.tree) : Stage t₀ S' (cs ++ [c]) (r.perform c) where
  tree := by
    rw [perform_tree hc]
    exact hu
  found := by
    rw [Run.perform, List.forall_mem_append, List.forall_mem_singleton]
    exact ⟨h.found, hfinds⟩
  logged := by
    rw [Run.perform, List.map_append, h.logged]
    rfl

theorem calls_create (k : ℕ) : calls (k + 1) 0 0 = calls k 0 0 ++ [.fopen (filepath k)] := by
  simp [calls, List.range_succ]

theorem calls_rename (n k : ℕ) :
    calls n (k + 1) 0 = calls n k 0 ++ [.rename (filepath k) (newpath k)] := by
  simp [calls, List.range_succ]

theorem calls_delete (n k : ℕ) : calls n n (k + 1) = calls n n k ++ [.unlink (newpath k)] := by
  simp [calls, List.range_succ]

theorem length_calls (n : ℕ) : (calls n n n).length = 3 * n + 1 := by
  simp only [calls, List.length_append, List.length_cons, List.length_map, List.length_range]
  omega

def created (k : ℕ) : Set Name := {x | ∃ i < k, x = fileName i}

/-- The entries when the first `k` of `n` files have been renamed. -/
def renamed (n k : ℕ) : Set Name :=
  {x | (∃ i, k ≤ i ∧ i < n ∧ x = fileName i) ∨ ∃ i < k, x = renamedName i}

/-- The entries when the first `k` of `n` files have been deleted. -/
def left (n k : ℕ) : Set Name := {x | ∃ i, k ≤ i ∧ i < n ∧ x = renamedName i}

theorem created_succ (k : ℕ) : created (k + 1) = insert (fileName k) (created k) := by
  ext x
  simp only [created, Set.mem_ofPred_eq, Set.mem_insert_iff, Nat.exists_lt_succ_right]
  exact or_comm

theorem fileName_notMem_created (k : ℕ) : fileName k ∉ created k := by
  rintro ⟨i, hi, heq⟩
  exact hi.ne' (entry_injective _ heq)

theorem renamed_zero (n : ℕ) : renamed n 0 = created n := by
  ext x
  simp [renamed, created]

theorem renamed_self (n : ℕ) : renamed n n = left n 0 := by
  ext x
  simp only [renamed, left, Set.mem_ofPred_eq]
  constructor
  · rintro (⟨i, hle, hlt, -⟩ | ⟨i, hi, hx⟩)
    · omega
    · exact ⟨i, Nat.zero_le i, hi, hx⟩
  · rintro ⟨i, -, hi, hx⟩
    exact .inr ⟨i, hi, hx⟩

theorem left_self (n : ℕ) : left n n = ∅ := by
  rw [Set.eq_empty_iff_forall_notMem]
  rintro x ⟨i, hle, hlt, -⟩
  omega

theorem renamed_succ (hk : k < n) :
    renamed n (k + 1) = insert (renamedName k) (renamed n k \ {fileName k}) := by
  ext x
  simp only [renamed, Set.mem_ofPred_eq, Set.mem_insert_iff, Set.mem_sdiff, Set.mem_singleton_iff]
  constructor
  · rintro (⟨i, hle, hlt, rfl⟩ | ⟨i, hi, rfl⟩)
    · refine .inr ⟨.inl ⟨i, by omega, hlt, rfl⟩, fun h => ?_⟩
      have heq := entry_injective _ h
      omega
    · rcases Nat.lt_succ_iff_lt_or_eq.mp hi with hi | rfl
      · exact .inr ⟨.inr ⟨i, hi, rfl⟩, (fileName_ne_renamedName k i).symm⟩
      · exact .inl rfl
  · rintro (rfl | ⟨⟨i, hle, hlt, rfl⟩ | ⟨i, hi, rfl⟩, hne⟩)
    · exact .inr ⟨k, Nat.lt_succ_self k, rfl⟩
    · have hik : i ≠ k := fun h => hne (h ▸ rfl)
      exact .inl ⟨i, by omega, hlt, rfl⟩
    · exact .inr ⟨i, Nat.lt_succ_of_lt hi, rfl⟩

theorem left_succ (n k : ℕ) : left n (k + 1) = left n k \ {renamedName k} := by
  ext x
  simp only [left, Set.mem_ofPred_eq, Set.mem_sdiff, Set.mem_singleton_iff]
  constructor
  · rintro ⟨i, hle, hlt, rfl⟩
    refine ⟨⟨i, by omega, hlt, rfl⟩, fun h => ?_⟩
    have heq := entry_injective _ h
    omega
  · rintro ⟨⟨i, hle, hlt, rfl⟩, hne⟩
    have hik : i ≠ k := fun h => hne (h ▸ rfl)
    exact ⟨i, by omega, hlt, rfl⟩

theorem renamedName_notMem_renamed (n k : ℕ) : renamedName k ∉ renamed n k := by
  rintro (⟨i, -, -, heq⟩ | ⟨i, hi, heq⟩)
  · exact fileName_ne_renamedName i k heq.symm
  · exact hi.ne' (entry_injective _ heq)

variable {env : Environment}

theorem Stage.createFile (h : Stage t₀ (created k) (calls k 0 0) r) (hk : k ≤ 2147483647)
    (hfopen : env.fopen k = true) :
    ∃ r', createFile env r k = .ok r' ∧ Stage t₀ (created (k + 1)) (calls (k + 1) 0 0) r' := by
  obtain ⟨u, hu, hdir⟩ := h.tree.create (fileName_notMem_created k)
  have heffect : (Call.fopen (filepath k)).effect r.tree = some u := by
    rw [Call.effect, components_filepath hk, hu]
  have hfinds : (Call.fopen (filepath k)).Finds r.tree := by
    rw [Call.Finds, components_filepath hk]
    exact h.tree.absent _ (fileName_notMem_created k)
  rw [← created_succ] at hdir
  rw [calls_create]
  refine ⟨_, ?_, h.perform heffect hdir hfinds⟩
  rw [FileMeta.createFile, hfopen, heffect]
  rfl

theorem Stage.renameFile (h : Stage t₀ (renamed n k) (calls n k 0) r) (hk : k < n)
    (hn : n ≤ 2147483647) :
    Stage t₀ (renamed n (k + 1)) (calls n (k + 1) 0) (renameFile r k) := by
  have hmem : fileName k ∈ renamed n k := .inl ⟨k, Nat.le_refl k, hk, rfl⟩
  have hnot := renamedName_notMem_renamed n k
  obtain ⟨u, hu, hdir⟩ := h.tree.rename hmem hnot
  rw [← renamed_succ hk] at hdir
  rw [calls_rename]
  apply h.perform (u := u) _ hdir
  · rw [Call.Finds, components_filepath (by omega), components_newpath (by omega)]
    exact ⟨⟨[], h.tree.file _ hmem⟩, h.tree.absent _ hnot⟩
  · rw [Call.effect, components_filepath (by omega), components_newpath (by omega), hu]

theorem Stage.deleteFile (h : Stage t₀ (left n k) (calls n n k) r) (hk : k < n)
    (hn : n ≤ 2147483647) : Stage t₀ (left n (k + 1)) (calls n n (k + 1)) (deleteFile r k) := by
  have hmem : renamedName k ∈ left n k := ⟨k, Nat.le_refl k, hk, rfl⟩
  obtain ⟨u, hu, hdir⟩ := h.tree.unlink hmem
  rw [← left_succ] at hdir
  rw [calls_delete]
  apply h.perform (u := u) _ hdir
  · rw [Call.Finds, components_newpath (by omega)]
    exact ⟨[], h.tree.file _ hmem⟩
  · rw [Call.effect, components_newpath (by omega), hu]

end Loops

/-- `cleanup` has removed the directory with its content, and nothing else. -/
def Environment.Cleans (env : Environment) (t : Tree) : Prop :=
  ∀ p, (env.cleanup t).node p = if [dirName] <+: p then none else t.node p

theorem Environment.Cleans.mkdir {env : Environment} {t : Tree} (h : env.Cleans t) :
    Stage t (created 0) (calls 0 0 0)
      (({ tree := env.cleanup t } : Run).perform (.mkdir dirName)) := by
  have hgone : (env.cleanup t).node ([] ++ [dirName]) = none :=
    (h [dirName]).trans (if_pos List.prefix_rfl)
  obtain ⟨u, hu, hnode⟩ := FileTree.mkdir_entry (env.cleanup t).root hgone
  have heffect : (Call.mkdir dirName).effect (env.cleanup t) = some u := by
    rw [Call.effect, components_dirName, hu]
  constructor
  · rw [perform_tree heffect]
    constructor
    · rw [hnode]
      exact if_pos rfl
    · rintro x ⟨i, hi, -⟩
      cases hi
    · intro x _
      rw [hnode, if_neg (by simp), h, if_pos (List.prefix_append _ _)]
    · intro p hp
      have hne : p ≠ [] ++ [dirName] := by
        rintro rfl
        exact hp List.prefix_rfl
      rw [hnode, if_neg hne, h, if_neg hp]
  · intro e he
    rw [List.mem_singleton.mp he]
    rw [Call.Finds, components_dirName]
    exact hgone
  · rfl

/-- The empty directory is removed, and with it all traces of the run. -/
theorem Stage.rmdir {t : Tree} {r : Run} {cs : List Call} (h : Stage t ∅ cs r) :
    (∀ e ∈ (r.perform (.rmdir dirName)).log, e.2.Finds e.1) ∧
      ∀ p, (r.perform (.rmdir dirName)).tree.node p =
        if [dirName] <+: p then none else t.node p := by
  have hrmdir := FileTree.rmdir_empty (List.cons_ne_nil dirName []) h.tree.directory h.tree.empty
  constructor
  · rw [Run.perform, List.forall_mem_append, List.forall_mem_singleton]
    refine ⟨h.found, ?_⟩
    rw [Call.Finds, components_dirName]
    exact ⟨h.tree.directory, h.tree.empty⟩
  · intro p
    have heffect : (Call.rmdir dirName).effect r.tree = _ := hrmdir
    rw [perform_tree heffect]
    by_cases hp : [dirName] <+: p
    · rw [if_pos hp]
      exact if_pos hp
    · rw [if_neg hp, ← h.tree.outside p hp]
      exact if_neg hp

/-- Once the directory is clean and the files can be made, every later call succeeds. -/
theorem metadata_calls_find {n : ℕ} (hn : n ≤ 2147483647) {env : Environment} {t : Tree}
    (hcleanup : env.Cleans t) (hmkdir : env.mkdir = true)
    (hfopen : ∀ i < n, env.fopen i = true) :
    ∃ r, main n env t = .ok r ∧ r.log.map Prod.snd = calls n n n ++ [.rmdir dirName] ∧
      r.log.length = 3 * n + 2 ∧ (∀ e ∈ r.log, e.2.Finds e.1) ∧
      (∀ i < n, filepath i = pathText (bytes "file_") i ∧
        newpath i = pathText (bytes "renamed_") i) ∧
      ∀ p, r.tree.node p = if [dirName] <+: p then none else t.node p := by
  have hcreate := forBelow_iff (n := n) (createFile env)
    (fun k r => Stage t (created k) (calls k 0 0) r) (fun _ => True) hcleanup.mkdir
    (fun i hi r hr _ => hr.createFile (by omega) (hfopen i hi)) (fun _ _ _ _ h => absurd trivial h)
  obtain ⟨r, hr, hcreated⟩ := hcreate.1 fun _ _ => trivial
  have hrename := repeatBelow_invariant (n := n) (fun k r => Stage t (renamed n k) (calls n k 0) r)
    (by rw [renamed_zero]; exact hcreated) fun i hi r hr => hr.renameFile hi hn
  rw [renamed_self] at hrename
  have hdelete := repeatBelow_invariant (n := n) (fun k r => Stage t (left n k) (calls n n k) r)
    hrename fun i hi r hr => hr.deleteFile hi hn
  rw [left_self] at hdelete
  obtain ⟨hfound, hnode⟩ := hdelete.rmdir
  have hcalls := hdelete.logged
  have hlength := (congrArg List.length hcalls).trans (length_calls n)
  rw [List.length_map] at hlength
  refine ⟨_, ?_, ?_, ?_, hfound, ?_, hnode⟩
  · simp only [main, hmkdir, if_true, hr]
    rfl
  · rw [Run.perform, List.map_append, hcalls]
    rfl
  · rw [Run.perform, List.length_append, hlength, List.length_singleton]
  · intro i hi
    exact ⟨snprintf_pathText (by decide) (by omega), snprintf_pathText (by decide) (by omega)⟩

/-- What a run leaves behind which was aborted after its first file. -/
def leftBehind : Tree :=
  (({ tree := .bare } : Run).perform (.mkdir dirName) |>.perform (.fopen (filepath 0))).tree

def cleanEnvironment : Environment where
  cleanup t := t.erase [dirName] (List.cons_ne_nil _ _)
  mkdir := true
  fopen _ := true

theorem metadata_calls_find_two :
    ∃ r, main 2 cleanEnvironment leftBehind = .ok r ∧
      r.log.map Prod.snd = calls 2 2 2 ++ [.rmdir dirName] ∧ r.log.length = 8 ∧
      (∀ e ∈ r.log, e.2.Finds e.1) ∧
      (∀ i < 2, filepath i = pathText (bytes "file_") i ∧
        newpath i = pathText (bytes "renamed_") i) ∧
      ∀ p, r.tree.node p = if [dirName] <+: p then none else leftBehind.node p :=
  metadata_calls_find (by decide) (fun _ => rfl) rfl fun _ _ => rfl

end MicrokernelBenchmark.FileMeta
