/-
The tree of directories and files that an image shows, without inode numbers,
slots and blocks.
-/
import Fs5600.Lib.NameTree
import Fs5600.Objects
import Fs5600.Renaming
import Mathlib.Data.Set.Card

namespace Fs5600

open NameTree

/-- What an inode says of an object besides its kind, its size and its
blocks. -/
@[ext] structure Attributes where
  mode : UInt32
  uid : UInt16
  gid : UInt16
  ctime : UInt32
  mtime : UInt32

/-- A directory, or a file with its bytes. -/
abbrev Object := Node Attributes (List UInt8)

abbrev FileTree := Tree Name Attributes (List UInt8)

abbrev TreeEdit := Edit Name Attributes (List UInt8)

def updateAttributes (update : Attributes → Attributes) : Object → Object
  | .branch attributes => .branch (update attributes)
  | .leaf attributes content => .leaf (update attributes) content

def FsInode.attributes (inode : FsInode) : Attributes :=
  ⟨inode.mode, inode.uid, inode.gid, inode.ctime, inode.mtime⟩

namespace Disk

variable (disk : Disk)

def object (i : Nat) : Object :=
  if (disk.inode i).isDir then .branch (disk.inode i).attributes
  else .leaf (disk.inode i).attributes (fileContent disk (disk.inode i))

def tree : FileTree := fun names =>
  match disk.resolve names with
  | .ok there => some (disk.object there.2)
  | .error _ => none

variable {disk : Disk} {size : Nat}

theorem object_of_isDir {i : Nat} (hdir : (disk.inode i).isDir = true) :
    disk.object i = .branch (disk.inode i).attributes := if_pos hdir

theorem object_of_not_isDir {i : Nat}
    (hdir : ¬ (disk.inode i).isDir = true) :
    disk.object i =
      .leaf (disk.inode i).attributes (fileContent disk (disk.inode i)) :=
  if_neg hdir

theorem tree_of_resolve {names : List Name} {there : List Slot × Nat}
    (hresolve : disk.resolve names = .ok there) :
    disk.tree names = some (disk.object there.2) := by
  rw [tree, hresolve]

theorem tree_eq_none {names : List Name} :
    disk.tree names = none ↔ (disk.resolve names).isOk = false := by
  rw [tree]
  cases disk.resolve names <;> simp [Except.isOk, Except.toBool]

theorem tree_eq_some_iff {names : List Name} {object : Object} :
    disk.tree names = some object ↔
      ∃ there, disk.resolve names = .ok there ∧
        disk.object there.2 = object := by
  rw [tree]
  cases disk.resolve names with
  | error status => simp
  | ok there => simp

end Disk

section

variable {disk : Disk} {size : Nat} (hcons : Consistent disk size)
  {names : List Name} {path : List Slot} {i : Nat}

include hcons

theorem Consistent.resolve_iff :
    disk.resolve names = .ok (path, i) ↔
      disk.node path = some (names, i) :=
  ⟨Disk.node_of_resolve, Disk.resolve_of_node hcons.object⟩

theorem Consistent.tree_of_node (hnode : disk.node path = some (names, i)) :
    disk.tree names = some (disk.object i) := by
  rw [Disk.tree_of_resolve (hcons.resolve_iff.mpr hnode)]

theorem Consistent.tree_eq_some {object : Object} :
    disk.tree names = some object ↔
      ∃ path i, disk.node path = some (names, i) ∧
        disk.object i = object := by
  rw [Disk.tree_eq_some_iff]
  constructor
  · rintro ⟨⟨path, i⟩, hresolve, hobject⟩
    exact ⟨path, i, hcons.resolve_iff.mp hresolve, hobject⟩
  · rintro ⟨path, i, hnode, hobject⟩
    exact ⟨(path, i), hcons.resolve_iff.mpr hnode, hobject⟩

/-- What a directory has under a name. -/
theorem Consistent.tree_child (hnode : disk.node path = some (names, i))
    (hdir : (disk.inode i).isDir = true) (name : Name) :
    disk.tree (names ++ [name]) =
      (firstNamed (disk.entries i) name).map fun slot =>
        disk.object (disk.child i slot) := by
  rw [Disk.tree, Disk.resolve_snoc, hcons.resolve_iff.mpr hnode]
  simp only [Except.bind, hdir, ↓reduceIte]
  cases firstNamed (disk.entries i) name <;> rfl

/-- The tree of a consistent image has a directory above every object. -/
theorem Consistent.tree_wellFormed : WellFormed disk.tree := by
  refine ⟨⟨(disk.inode 2).attributes, ?_⟩,
    fun front name object hobject => ?_⟩
  · rw [hcons.tree_of_node Disk.node_nil,
      Disk.object_of_isDir hcons.root_dir]
  · obtain ⟨⟨path, i⟩, hresolve, -⟩ := Disk.tree_eq_some_iff.mp hobject
    rw [Disk.resolve_snoc] at hresolve
    cases hparent : disk.resolve front with
    | error status =>
        rw [hparent] at hresolve
        cases hresolve
    | ok here =>
        have hnode : disk.node here.1 = some (front, here.2) :=
          Disk.node_of_resolve hparent
        by_cases hdir : (disk.inode here.2).isDir = true
        · refine ⟨(disk.inode here.2).attributes, ?_⟩
          rw [hcons.tree_of_node hnode, Disk.object_of_isDir hdir]
        · rw [hparent] at hresolve
          simp only [Except.bind, hdir] at hresolve
          cases hresolve

end

/-- The error return of a lookup that fails. -/
def faultStatus : Fault → Int
  | .missing => -eNoEnt
  | .notBranch => -eNotDir

def FileTree.lookup (tree : FileTree) (path : List Name) :
    Except Int Object := (find tree path).mapError faultStatus

theorem FileTree.lookup_eq_ok {tree : FileTree} (hwf : WellFormed tree)
    {path : List Name} {object : Object} :
    tree.lookup path = .ok object ↔ tree path = some object := by
  rw [← hwf.find_eq_ok, lookup]
  cases find tree path <;> simp [Except.mapError]

section

variable {disk : Disk} {size : Nat} (hcons : Consistent disk size)

include hcons

theorem Consistent.findFrom_tree (tokens : List Name)
    {front : List Name} {path : List Slot} {i : Nat}
    (hnode : disk.node path = some (front, i)) :
    (findFrom disk.tree front tokens).mapError faultStatus =
      (disk.resolveFrom i tokens).map fun there => disk.object there.2 := by
  induction tokens generalizing front path i with
  | nil =>
      rw [findFrom, hcons.tree_of_node hnode]
      rfl
  | cons token tokens ih =>
      rw [findFrom, hcons.tree_of_node hnode, Disk.resolveFrom]
      by_cases hdir : (disk.inode i).isDir = true
      · rw [Disk.object_of_isDir hdir, if_pos hdir]
        cases hfound : firstNamed (disk.entries i) token with
        | none =>
            have hnone := hcons.tree_child hnode hdir token
            rw [hfound] at hnone
            simp only [findFrom_of_none hnone]
            rfl
        | some slot =>
            have hchild := Disk.node_child hnode
              (Disk.edge_of_firstNamed hdir hfound)
            refine (ih hchild).trans ?_
            dsimp only
            cases disk.resolveFrom (disk.entries i slot).inode.toNat
              tokens <;> rfl
      · rw [Disk.object_of_not_isDir hdir, if_neg hdir]
        rfl

/-- Looking a path up in the tree of an image is looking it up in the
image. -/
theorem Consistent.lookup_tree (names : List Name) :
    disk.tree.lookup names =
      (disk.resolve names).map fun there => disk.object there.2 :=
  hcons.findFrom_tree names Disk.node_nil

end

/-! What an object says of itself. -/

/-- `struct stat` of an object. -/
def objectStat : Object → Stat
  | .branch attributes =>
      { mode := attributes.mode
        uid := attributes.uid
        gid := attributes.gid
        size := 4096
        ctime := attributes.ctime
        mtime := attributes.mtime
        atime := attributes.mtime
        nlink := 1 }
  | .leaf attributes content =>
      { mode := attributes.mode
        uid := attributes.uid
        gid := attributes.gid
        size := .ofInt content.length
        ctime := attributes.ctime
        mtime := attributes.mtime
        atime := attributes.mtime
        nlink := 1 }

/-- The blocks that an object takes: its inode, and the entries of a directory
or the bytes of a file. -/
def objectCost : Object → Nat
  | .branch _ => 2
  | .leaf _ content => 1 + blockCount content.length

theorem ObjectOk.objectStat {disk : Disk} {i : Nat}
    (hobject : ObjectOk disk i) :
    objectStat (disk.object i) = inodeToStat (disk.inode i) := by
  by_cases hdir : (disk.inode i).isDir = true
  · rcases hobject.kind with hreg | ⟨-, hsize⟩
    · rw [FsInode.isReg, sIsReg_of_sIsDir hdir] at hreg
      cases hreg
    · have hfield : (disk.inode i).size = 4096 := by
        rw [← Int32.toInt_inj, hsize]
        rfl
      rw [Disk.object_of_isDir hdir, Fs5600.objectStat, inodeToStat, hfield]
      rfl
  · have hlow := hobject.size_range (hobject.isReg_of_not_isDir hdir)
    have hfield : Int32.ofInt (fileContent disk (disk.inode i)).length =
        (disk.inode i).size := by
      rw [length_fileContent, FsInode.length, Int.toNat_of_nonneg hlow.1,
        Int32.ofInt_toInt]
    rw [Disk.object_of_not_isDir hdir, Fs5600.objectStat, inodeToStat,
      hfield]
    rfl

/-! The names in a directory. -/

section

variable {disk : Disk} {size : Nat} (hcons : Consistent disk size)
  {names : List Name} {path : List Slot} {i : Nat}
  (hnode : disk.node path = some (names, i))
  (hdir : (disk.inode i).isDir = true)

include hcons hnode hdir

theorem Consistent.mem_children {name : Name} :
    name ∈ children disk.tree names ↔
      (firstNamed (disk.entries i) name).isSome = true := by
  rw [children, Set.mem_ofPred_eq, hcons.tree_child hnode hdir, Ne,
    Option.map_eq_none_iff, Option.isSome_iff_ne_none]

/-- The names are those of the slots in use. -/
theorem Consistent.children_eq :
    children disk.tree names =
      (fun slot => (disk.entries i slot).nameString) ''
        {slot | (disk.entries i slot).valid = true} := by
  have hnames := (hcons.object _ _ _ hnode).names hdir
  ext name
  rw [hcons.mem_children hnode hdir, Set.mem_image]
  constructor
  · intro hsome
    obtain ⟨slot, hfound⟩ := Option.isSome_iff_exists.mp hsome
    obtain ⟨hvalid, hname⟩ := firstNamed_eq_some hfound
    exact ⟨slot, hvalid, hname⟩
  · rintro ⟨slot, hvalid, rfl⟩
    rw [firstNamed_of_entry hnames hvalid]
    rfl

/-- A directory is full when it has 128 names. -/
theorem Consistent.children_full :
    128 ≤ (children disk.tree names).ncard ↔
      firstInvalid (disk.entries i) 0 = none := by
  have hnames := (hcons.object _ _ _ hnode).names hdir
  have hinj : Set.InjOn (fun slot => (disk.entries i slot).nameString)
      {slot | (disk.entries i slot).valid = true} :=
    fun slot hslot slot' hslot' heq =>
      hnames.distinct slot slot' hslot hslot' heq
  rw [hcons.children_eq hnode hdir, hinj.ncard_image, firstInvalid_eq_none]
  have htotal : (Set.univ : Set Slot).ncard = 128 := by
    rw [Set.ncard_univ, Nat.card_eq_fintype_card, Fintype.card_fin]
  constructor
  · intro hfull slot
    have heq : {slot | (disk.entries i slot).valid = true} = Set.univ :=
      Set.eq_of_subset_of_ncard_le (Set.subset_univ _)
        (by rw [htotal]; exact hfull)
    exact heq.ge (Set.mem_univ slot)
  · intro hall
    have heq : {slot | (disk.entries i slot).valid = true} = Set.univ :=
      Set.eq_univ_of_forall hall
    rw [heq, htotal]

/-- A directory is empty when no slot is in use. -/
theorem Consistent.children_empty :
    children disk.tree names = ∅ ↔
      ∀ slot, (disk.entries i slot).valid = false := by
  rw [hcons.children_eq hnode hdir, Set.image_eq_empty,
    Set.eq_empty_iff_forall_notMem]
  simp

end

end Fs5600
