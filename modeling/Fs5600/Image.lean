/-
Disk images as graphs: inodes joined by the valid entries of directory blocks,
the blocks that every inode holds, and when an image is consistent.
-/
import Fs5600.Lib.LabelledWalk
import Fs5600.Lib.Ledger
import Fs5600.Device
import Fs5600.Bitmap
import Fs5600.Path

namespace Fs5600

open LabelledWalk

abbrev Slot := Fin 128

/-- Pointer `k` as a block number, 0 past the array. -/
def FsInode.ptr (inode : FsInode) (k : Nat) : Nat :=
  if hk : k < 1019 then (inode.ptrs ⟨k, hk⟩).toNat else 0

/-- The size in bytes. -/
def FsInode.length (inode : FsInode) : Nat := inode.size.toInt.toNat

abbrev FsInode.isDir (inode : FsInode) : Bool := sIsDir inode.mode

abbrev FsInode.isReg (inode : FsInode) : Bool := sIsReg inode.mode

/-- What a block is to the object that holds it. -/
inductive Role where
  | inode
  | entries
  | data (k : Nat)
deriving DecidableEq

/-- The blocks that an inode with number `i` holds. -/
def FsInode.owned (inode : FsInode) (i : Nat) : Role → Option Nat
  | .inode => some i
  | .entries => if inode.isDir then some (inode.ptr 0) else none
  | .data k =>
      if inode.isReg ∧ k < blockCount inode.length then some (inode.ptr k)
      else none

namespace Disk

variable (disk : Disk)

def inode (i : Nat) : FsInode := .decode (disk i)

/-- The entries of directory inode `i`. -/
def entries (i : Nat) : Directory := .decode (disk ((disk.inode i).ptr 0))

/-- The directory entry at a slot: its name and the inode it leads to. -/
def edge (i : Nat) (slot : Slot) : Option (Name × Nat) :=
  if (disk.inode i).isDir ∧ (disk.entries i slot).valid then
    some ((disk.entries i slot).nameString,
      (disk.entries i slot).inode.toNat)
  else none

def owned (i : Nat) (role : Role) : Option Nat := (disk.inode i).owned i role

/-- The object at a path of slots below the root: its names and inode. -/
def node (path : List Slot) : Option (List Name × Nat) :=
  walk disk.edge 2 path

/-- The block in a role of the object at a path of slots. -/
def holder (key : List Slot × Role) : Option Nat :=
  LabelledWalk.holder disk.edge disk.owned 2 key

/-- Some object reachable from the root holds block `b`. -/
def Held (b : Nat) : Prop := ∃ key, disk.holder key = some b

def superblock : FsSuper := .decode (disk 0)

/-- The number of blocks of the file system. -/
def diskSize : Nat := disk.superblock.diskSize.toNat

end Disk

/-- Names in a directory are what `strcmp` can tell apart. -/
structure DirectoryOk (dir : Directory) : Prop where
  last_zero : ∀ slot, (dir slot).name 27 = 0
  nonempty : ∀ slot, (dir slot).valid → (dir slot).nameString ≠ []
  slash_free : ∀ slot, (dir slot).valid → slash ∉ (dir slot).nameString
  distinct : ∀ slot slot', (dir slot).valid → (dir slot').valid →
    (dir slot).nameString = (dir slot').nameString → slot = slot'

/-- What is asked of every reachable inode. -/
structure ObjectOk (disk : Disk) (i : Nat) : Prop where
  kind : (disk.inode i).isReg = true ∨
    ((disk.inode i).isDir = true ∧ (disk.inode i).size.toInt = 4096)
  size_range : (disk.inode i).isReg = true →
    0 ≤ (disk.inode i).size.toInt ∧ (disk.inode i).size.toInt ≤ 4173824
  names : (disk.inode i).isDir = true → DirectoryOk (disk.entries i)

/-- A consistent image of `size` blocks.  Since no block is held under two
keys and a key names the slots from the root, the entries form a tree. -/
structure Consistent (disk : Disk) (size : Nat) : Prop where
  size_le : disk.diskSize ≤ 32768
  size_fits : disk.diskSize ≤ size
  reserved : ∀ b, b < 3 → Marked (disk 1) b
  root_dir : (disk.inode 2).isDir = true
  object : ∀ path names i, disk.node path = some (names, i) →
    ObjectOk disk i
  range : ∀ key b, disk.holder key = some b →
    2 ≤ b ∧ b < disk.diskSize ∧ Marked (disk 1) b
  exclusive : Ledger.Exclusive disk.holder

end Fs5600
