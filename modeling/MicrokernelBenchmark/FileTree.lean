import Mathlib.Data.Finset.Image
import Mathlib.Data.List.Infix
import Mathlib.Logic.Function.Basic

/-!
# File trees

A tree maps the paths below a directory to their nodes. Whatever has a node lies
in a directory, and all nodes lie in a finite set of paths. A call is undefined
where it fails, which leaves the tree as it was.
-/
namespace MicrokernelBenchmark

/-- Anything but a directory and a regular file is a special node. -/
inductive Node (κ : Type*) where
  | directory
  | file (content : κ)
  | special
deriving DecidableEq, Repr

structure FileTree (ν κ : Type*) where
  node : List ν → Option (Node κ)
  support : Finset (List ν)
  root : node [] = some .directory
  parent : ∀ p x, node (p ++ [x]) ≠ none → node p = some .directory
  bounded : ∀ p, node p ≠ none → p ∈ support

namespace FileTree
variable {ν κ : Type*} (t : FileTree ν κ) {p q : List ν}

/-- A path with nothing below it. -/
def Empty (p : List ν) : Prop := ∀ x ∈ t.support, p <+: x → x ≠ p → t.node x = none

instance [DecidableEq ν] [DecidableEq κ] (p : List ν) : Decidable (t.Empty p) :=
  inferInstanceAs (Decidable (∀ x ∈ t.support, p <+: x → x ≠ p → t.node x = none))

/-- Nothing but the directory that the paths start from. -/
def bare [DecidableEq ν] : FileTree ν κ where
  node p := if p = [] then some .directory else none
  support := {[]}
  root := if_pos rfl
  parent p x h := by simp at h
  bounded p h := by simpa using h

theorem empty_iff : t.Empty p ↔ ∀ x, p <+: x → x ≠ p → t.node x = none := by
  constructor
  · intro h x hpx hne
    by_contra hx
    exact hx (h x (t.bounded x hx) hpx hne)
  · exact fun h x _ => h x

/-- Only a directory has anything below it. -/
theorem node_below (h : t.node p ≠ some .directory) {x : List ν} (hpx : p <+: x) (hne : x ≠ p) :
    t.node x = none := by
  obtain ⟨r, rfl⟩ := hpx
  induction r using List.reverseRecOn with
  | nil => exact absurd (List.append_nil p) hne
  | append_singleton r c ih =>
      by_contra hx
      have hparent := t.parent (p ++ r) c (by rwa [List.append_assoc])
      by_cases hr : r = []
      · rw [hr, List.append_nil] at hparent
        exact h hparent
      · rw [ih (by simpa using hr)] at hparent
        cases hparent

section Calls
variable [DecidableEq ν]

/-- A node in place of none or of one that is not a directory. -/
def put (p : List ν) (k : Node κ) (hne : p ≠ []) (hparent : t.node p.dropLast = some .directory)
    (hp : t.node p ≠ some .directory) : FileTree ν κ where
  node := Function.update t.node p (some k)
  support := insert p t.support
  root := by rw [Function.update_of_ne hne.symm, t.root]
  parent x c hx := by
    by_cases hxp : x = p
    · have hbelow : t.node (x ++ [c]) = none := by
        apply t.node_below hp
        · rw [hxp]
          exact List.prefix_append p [c]
        · rw [hxp]
          simp
      have hne' : x ++ [c] ≠ p := by
        rw [hxp]
        simp
      rw [Function.update_of_ne hne'] at hx
      exact absurd hbelow hx
    · rw [Function.update_of_ne hxp]
      by_cases hxc : x ++ [c] = p
      · rw [← hxc, List.dropLast_concat] at hparent
        exact hparent
      · rw [Function.update_of_ne hxc] at hx
        exact t.parent x c hx
  bounded x hx := by
    by_cases hxp : x = p
    · rw [hxp]
      exact Finset.mem_insert_self p _
    · rw [Function.update_of_ne hxp] at hx
      exact Finset.mem_insert_of_mem (t.bounded x hx)

/-- The tree without a path and all that is below it, as `rm -rf` leaves it. -/
def erase (p : List ν) (hne : p ≠ []) : FileTree ν κ where
  node x := if p <+: x then none else t.node x
  support := t.support
  root := by rw [if_neg (by simpa using hne), t.root]
  parent x c hx := by
    split at hx
    case isTrue => exact absurd rfl hx
    case isFalse hxc =>
      have hx' : ¬ p <+: x := fun h => hxc (h.trans (List.prefix_append x [c]))
      rw [if_neg hx']
      exact t.parent x c hx
  bounded x hx := by
    split at hx
    case isTrue => exact absurd rfl hx
    case isFalse => exact t.bounded x hx

/-- The tree with a path and all that is below it moved. -/
def move (p q : List ν) (hpq : ¬ p <+: q) (hne : q ≠ [])
    (hparent : t.node q.dropLast = some .directory) : FileTree ν κ where
  node x :=
    if q <+: x then t.node (p ++ x.drop q.length) else if p <+: x then none else t.node x
  support := t.support ∪ t.support.image fun x => q ++ x.drop p.length
  root := by
    have hp : p ≠ [] := fun h => hpq (h ▸ List.nil_prefix)
    rw [if_neg (by simpa using hne), if_neg (by simpa using hp), t.root]
  parent x c hx := by
    by_cases hqx : q <+: x
    · rw [if_pos (hqx.trans (List.prefix_append x [c])),
        List.drop_append_of_le_length hqx.length_le, ← List.append_assoc] at hx
      rw [if_pos hqx]
      exact t.parent (p ++ x.drop q.length) c hx
    · rw [if_neg hqx]
      by_cases hqc : q <+: x ++ [c]
      · have hq : q = x ++ [c] := (List.prefix_concat_iff.mp hqc).resolve_right hqx
        have hpx : ¬ p <+: x := fun h => hpq (h.trans (hq ▸ List.prefix_append x [c]))
        rw [hq, List.dropLast_concat] at hparent
        rw [if_neg hpx, hparent]
      · rw [if_neg hqc] at hx
        split at hx
        case isTrue => exact absurd rfl hx
        case isFalse hpc =>
          have hpx : ¬ p <+: x := fun h => hpc (h.trans (List.prefix_append x [c]))
          rw [if_neg hpx]
          exact t.parent x c hx
  bounded x hx := by
    by_cases hqx : q <+: x
    · rw [if_pos hqx] at hx
      have hmem := Finset.mem_image_of_mem (fun x => q ++ x.drop p.length) (t.bounded _ hx)
      rw [List.drop_left, List.prefix_iff_eq_append.mp hqx] at hmem
      exact Finset.mem_union_right _ hmem
    · rw [if_neg hqx] at hx
      split at hx
      case isTrue => exact absurd rfl hx
      case isFalse => exact Finset.mem_union_left _ (t.bounded x hx)

/-- Below what is no directory there is nothing to erase. -/
theorem erase_node {p : List ν} (hne : p ≠ []) (hp : t.node p ≠ some .directory) (r : List ν) :
    (t.erase p hne).node r = if r = p then none else t.node r := by
  rw [erase]
  dsimp only
  by_cases hr : r = p
  · rw [hr, if_pos List.prefix_rfl, if_pos rfl]
  · rw [if_neg hr]
    split
    case isTrue hbelow => exact (t.node_below hp hbelow hr).symm
    case isFalse => rfl

variable [DecidableEq κ]

def mkdir (p : List ν) : Option (FileTree ν κ) :=
  if h : p ≠ [] ∧ t.node p.dropLast = some .directory ∧ t.node p = none then
    some (t.put p .directory h.1 h.2.1 (by rw [h.2.2]; simp))
  else none

/-- Opening for writing makes a file, or empties the one there is. -/
def create (empty : κ) (p : List ν) : Option (FileTree ν κ) :=
  if h : p ≠ [] ∧ t.node p.dropLast = some .directory ∧ t.node p ≠ some .directory ∧
      t.node p ≠ some .special then
    some (t.put p (.file empty) h.1 h.2.1 h.2.2.1)
  else none

def unlink (p : List ν) : Option (FileTree ν κ) :=
  if h : p ≠ [] ∧ t.node p ≠ none ∧ t.node p ≠ some .directory then some (t.erase p h.1) else none

def rmdir (p : List ν) : Option (FileTree ν κ) :=
  if h : p ≠ [] ∧ t.node p = some .directory ∧ t.Empty p then some (t.erase p h.1) else none

/-- A directory takes the place of none or of an empty directory, and anything else that
of none or of what is no directory. -/
def Replaces (p q : List ν) : Prop :=
  t.node q = none ∨ t.node p ≠ some .directory ∧ t.node q ≠ some .directory ∨
    t.node p = some .directory ∧ t.node q = some .directory ∧ t.Empty q

instance (p q : List ν) : Decidable (t.Replaces p q) := inferInstanceAs (Decidable (_ ∨ _ ∨ _))

def rename (p q : List ν) : Option (FileTree ν κ) :=
  if t.node p = none then none
  else if p = q then some t
  else if h : ¬ p <+: q ∧ q ≠ [] ∧ t.node q.dropLast = some .directory ∧ t.Replaces p q then
    some (t.move p q h.1 h.2.1 h.2.2.1)
  else none

end Calls

section Specifications
variable [DecidableEq ν] [DecidableEq κ] {t : FileTree ν κ} {d : List ν} {x y : ν}

/-- A call on an entry of a directory. -/
theorem mkdir_entry (hd : t.node d = some .directory) (hx : t.node (d ++ [x]) = none) :
    ∃ u, t.mkdir (d ++ [x]) = some u ∧
      ∀ r, u.node r = if r = d ++ [x] then some .directory else t.node r := by
  rw [mkdir, dif_pos ⟨by simp, by rwa [List.dropLast_concat], hx⟩]
  exact ⟨_, rfl, fun r => Function.update_apply ..⟩

theorem create_entry {empty : κ} (hd : t.node d = some .directory)
    (hx : t.node (d ++ [x]) = none) :
    ∃ u, t.create empty (d ++ [x]) = some u ∧
      ∀ r, u.node r = if r = d ++ [x] then some (.file empty) else t.node r := by
  rw [create, dif_pos ⟨by simp, by rwa [List.dropLast_concat], by simp [hx], by simp [hx]⟩]
  exact ⟨_, rfl, fun r => Function.update_apply ..⟩

theorem unlink_file {c : κ} (hx : t.node (d ++ [x]) = some (.file c)) :
    ∃ u, t.unlink (d ++ [x]) = some u ∧
      ∀ r, u.node r = if r = d ++ [x] then none else t.node r := by
  rw [unlink, dif_pos ⟨by simp, by simp [hx], by simp [hx]⟩]
  exact ⟨_, rfl, t.erase_node _ (by simp [hx])⟩

theorem rename_file {c : κ} (hx : t.node (d ++ [x]) = some (.file c))
    (hd : t.node d = some .directory) (hy : t.node (d ++ [y]) = none) :
    ∃ u, t.rename (d ++ [x]) (d ++ [y]) = some u ∧
      ∀ r, u.node r = if r = d ++ [y] then some (.file c)
        else if r = d ++ [x] then none else t.node r := by
  have hne : d ++ [x] ≠ d ++ [y] := by
    intro h
    rw [h, hy] at hx
    cases hx
  have hnot : ¬ d ++ [x] <+: d ++ [y] := fun h => hne (h.eq_of_length (by simp))
  rw [rename, if_neg (by simp [hx]), if_neg hne,
    dif_pos ⟨hnot, by simp, by rwa [List.dropLast_concat], .inl hy⟩]
  refine ⟨_, rfl, fun r => ?_⟩
  rw [move]
  dsimp only
  by_cases hry : r = d ++ [y]
  · rw [hry, if_pos List.prefix_rfl, if_pos rfl, List.drop_length, List.append_nil, hx]
  rw [if_neg hry]
  by_cases hbelow : d ++ [y] <+: r
  · have hr : t.node r = none := t.node_below (by simp [hy]) hbelow hry
    have hrx : r ≠ d ++ [x] := by
      rintro rfl
      rw [hr] at hx
      cases hx
    have hdrop : d ++ [x] ++ r.drop (d ++ [y]).length ≠ d ++ [x] := by
      obtain ⟨z, rfl⟩ := hbelow
      simpa using hry
    rw [if_pos hbelow, if_neg hrx, hr]
    exact t.node_below (by simp [hx]) (List.prefix_append _ _) hdrop
  · rw [if_neg hbelow]
    by_cases hrx : r = d ++ [x]
    · rw [hrx, if_pos List.prefix_rfl, if_pos rfl]
    · rw [if_neg hrx]
      split
      case isTrue h => exact (t.node_below (by simp [hx]) h hrx).symm
      case isFalse => rfl

theorem rmdir_empty {p : List ν} (hne : p ≠ []) (hp : t.node p = some .directory)
    (hempty : t.Empty p) : t.rmdir p = some (t.erase p hne) := dif_pos ⟨hne, hp, hempty⟩

end Specifications

end FileTree
end MicrokernelBenchmark
