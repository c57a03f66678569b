/-
A small image of any legal size with arbitrary free blocks: the root holds
the file `a` of 5000 bytes in slot 0 and the directory `d` in slot 1, and `d`
holds the empty file `b` in slot 1.
-/
import Fs5600.Reachability
import Mathlib.Tactic.IntervalCases

namespace Fs5600

open MachineWord LabelledWalk

namespace Sample

def nameA : Name := [97]
def nameB : Name := [98]
def nameD : Name := [100]

/-- An entry stored in an unused slot. -/
def enter (dir : Directory) (slot : Slot) (inum : Nat) (name : Name) :
    Directory :=
  Function.update dir slot
    ((Directory.decode zeroBlock slot).occupied inum name)

def rootDirectory : Directory :=
  enter (enter (.decode zeroBlock) 0 4 nameA) 1 7 nameD

def subDirectory : Directory := enter (.decode zeroBlock) 1 9 nameB

def directoryInode (block : Nat) : FsInode where
  uid := 0
  gid := 0
  mode := 0o040777
  ctime := 0
  mtime := 0
  size := 4096
  ptrs i := if i.val = 0 then .ofNat block else 0

def fileInode (size : Int32) (first second : Nat) : FsInode where
  uid := 0
  gid := 0
  mode := 0o100777
  ctime := 0
  mtime := 0
  size := size
  ptrs i :=
    if i.val = 0 then .ofNat first
    else if i.val = 1 then .ofNat second
    else 0

/-- `filler` is what the free blocks and the slack of `a` hold. -/
def disk (n : UInt32) (filler : Block) : Disk
  | 0 => .ofWords fun i =>
      if i = 0 then 0x30303635 else if i = 1 then n else 0
  | 1 => fun k => if k.val = 0 then 255 else if k.val = 1 then 3 else 0
  | 2 => (directoryInode 3).encode
  | 3 => rootDirectory.encode
  | 4 => (fileInode 5000 5 6).encode
  | 5 => fun _ => 120
  | 6 => fun k => if k.val < 904 then 121 else filler k
  | 7 => (directoryInode 8).encode
  | 8 => subDirectory.encode
  | 9 => (fileInode 0 0 0).encode
  | _ => filler

/-- The image before `fs_init`. -/
def world (n : UInt32) (filler : Block) : World where
  device := ⟨disk n filler, n.toNat, never, never⟩
  globals := ⟨⟨0, 0⟩, fileInode 0 0 0, zeroBlock, ⟨0, 0, 0, 0, 0⟩⟩

theorem enter_self {name : Name} (hname : ValidName name) (dir : Directory)
    (slot : Slot) (inum : Nat) :
    (enter dir slot inum name slot).nameString = name := by
  rw [enter, Function.update_self]
  exact nameString_strncpy _ _ name hname
    (Directory.decode_zeroBlock_name slot 27) rfl

/-- The valid entries after one more is entered. -/
theorem valid_enter {dir : Directory} {slot slot' : Slot} {inum : Nat}
    {name : Name} (hvalid : (enter dir slot inum name slot').valid = true) :
    slot' = slot ∨ ((dir slot').valid = true ∧
      enter dir slot inum name slot' = dir slot') := by
  by_cases hslot : slot' = slot
  · exact Or.inl hslot
  · rw [enter, Function.update_of_ne hslot] at hvalid ⊢
    exact Or.inr ⟨hvalid, rfl⟩

theorem not_valid_zeroBlock (slot : Slot) :
    ¬ (Directory.decode zeroBlock slot).valid = true := by
  rw [Directory.decode_zeroBlock_valid]
  exact Bool.false_ne_true

theorem enter_ok {dir : Directory} (hdir : DirectoryOk dir) (slot : Slot)
    (inum : Nat) {name : Name} (hname : ValidName name)
    (hfresh : ∀ slot, (dir slot).valid = true →
      (dir slot).nameString ≠ name) :
    DirectoryOk (enter dir slot inum name) :=
  (hdir.update_named slot (Directory.decode_zeroBlock_name slot 27) hname
    (firstNamed_eq_none.mpr hfresh) rfl).2

theorem validName_a : ValidName nameA := by constructor <;> decide
theorem validName_b : ValidName nameB := by constructor <;> decide
theorem validName_d : ValidName nameD := by constructor <;> decide

theorem subDirectory_ok : DirectoryOk subDirectory :=
  enter_ok directoryOk_zeroBlock 1 9 validName_b fun slot hvalid =>
    absurd hvalid (not_valid_zeroBlock slot)

theorem rootDirectory_ok : DirectoryOk rootDirectory := by
  refine enter_ok (enter_ok directoryOk_zeroBlock 0 4 validName_a ?_) 1 7
    validName_d ?_
  · exact fun slot hvalid => absurd hvalid (not_valid_zeroBlock slot)
  · intro slot hvalid
    rcases valid_enter hvalid with rfl | ⟨hvalid', -⟩
    · rw [enter_self validName_a]
      decide
    · exact absurd hvalid' (not_valid_zeroBlock slot)

section

variable (n : UInt32) (filler : Block)

theorem inode_root : (disk n filler).inode 2 = directoryInode 3 :=
  FsInode.decode_encode _

theorem inode_a : (disk n filler).inode 4 = fileInode 5000 5 6 :=
  FsInode.decode_encode _

theorem inode_d : (disk n filler).inode 7 = directoryInode 8 :=
  FsInode.decode_encode _

theorem inode_b : (disk n filler).inode 9 = fileInode 0 0 0 :=
  FsInode.decode_encode _

theorem entries_root : (disk n filler).entries 2 = rootDirectory := by
  rw [Disk.entries, inode_root]
  exact Directory.decode_encode _

theorem entries_d : (disk n filler).entries 7 = subDirectory := by
  rw [Disk.entries, inode_d]
  exact Directory.decode_encode _

theorem diskSize : (disk n filler).diskSize = n.toNat := by
  rw [Disk.diskSize, Disk.superblock, FsSuper.decode]
  exact congrArg UInt32.toNat (Block.word_ofWords _ 1)

theorem edge_root {slot : Slot} {hop : Name × Nat}
    (hedge : (disk n filler).edge 2 slot = some hop) :
    (slot = 0 ∧ hop = (nameA, 4)) ∨ (slot = 1 ∧ hop = (nameD, 7)) := by
  obtain ⟨-, hvalid, rfl⟩ := Disk.edge_eq_some.mp hedge
  rw [entries_root] at hvalid ⊢
  rcases valid_enter hvalid with rfl | ⟨hvalid', heq⟩
  · refine Or.inr ⟨rfl, Prod.ext ?_ rfl⟩
    exact enter_self validName_d _ 1 7
  · rw [rootDirectory, heq]
    rcases valid_enter hvalid' with rfl | ⟨hvalid'', -⟩
    · refine Or.inl ⟨rfl, Prod.ext ?_ rfl⟩
      exact enter_self validName_a _ 0 4
    · exact absurd hvalid'' (not_valid_zeroBlock slot)

theorem edge_d {slot : Slot} {hop : Name × Nat}
    (hedge : (disk n filler).edge 7 slot = some hop) :
    slot = 1 ∧ hop = (nameB, 9) := by
  obtain ⟨-, hvalid, rfl⟩ := Disk.edge_eq_some.mp hedge
  rw [entries_d] at hvalid ⊢
  rcases valid_enter hvalid with rfl | ⟨hvalid', -⟩
  · refine ⟨rfl, Prod.ext ?_ rfl⟩
    exact enter_self validName_b _ 1 9
  · exact absurd hvalid' (not_valid_zeroBlock slot)

theorem edge_file {i : Nat} (slot : Slot)
    (hfile : ((disk n filler).inode i).isDir = false) :
    (disk n filler).edge i slot = none := by
  rw [Disk.edge, hfile]
  exact if_neg fun hboth => Bool.false_ne_true hboth.1

/-- The objects of the sample. -/
def nodes : List (List Slot × Nat) :=
  [([], 2), ([0], 4), ([1], 7), ([1, 1], 9)]

theorem mem_nodes {path : List Slot} {names : List Name} {i : Nat}
    (hnode : (disk n filler).node path = some (names, i)) :
    (path, i) ∈ nodes := by
  induction path using List.reverseRecOn generalizing names i with
  | nil => cases hnode; decide
  | append_singleton path slot ih =>
      obtain ⟨here, hop, hhere, hedge, heq⟩ := walk_snoc_eq_some _ hnode
      cases heq
      have hbefore := ih hhere
      simp only [nodes, List.mem_cons, Prod.mk.injEq, List.not_mem_nil,
        or_false] at hbefore
      rcases hbefore with ⟨rfl, hi⟩ | ⟨rfl, hi⟩ | ⟨rfl, hi⟩ | ⟨rfl, hi⟩ <;>
        rw [hi] at hedge
      · rcases edge_root n filler hedge with ⟨rfl, rfl⟩ | ⟨rfl, rfl⟩
        · decide
        · decide
      · rw [edge_file n filler slot (by rw [inode_a]; decide)] at hedge
        cases hedge
      · obtain ⟨rfl, rfl⟩ := edge_d n filler hedge
        decide
      · rw [edge_file n filler slot (by rw [inode_b]; decide)] at hedge
        cases hedge

theorem inum_cases {path : List Slot} {names : List Name} {i : Nat}
    (hnode : (disk n filler).node path = some (names, i)) :
    i = 2 ∨ i = 4 ∨ i = 7 ∨ i = 9 := by
  have hmem := mem_nodes n filler hnode
  simp only [nodes, List.mem_cons, Prod.mk.injEq, List.not_mem_nil,
    or_false] at hmem
  omega

theorem dir_cases {path : List Slot} {names : List Name} {i : Nat}
    (hnode : (disk n filler).node path = some (names, i))
    (hdir : ((disk n filler).inode i).isDir = true) : i = 2 ∨ i = 7 := by
  rcases inum_cases n filler hnode with rfl | rfl | rfl | rfl
  · exact Or.inl rfl
  · rw [inode_a] at hdir
    cases hdir
  · exact Or.inr rfl
  · rw [inode_b] at hdir
    cases hdir

theorem file_cases {path : List Slot} {names : List Name} {i : Nat}
    (hnode : (disk n filler).node path = some (names, i))
    (hreg : ((disk n filler).inode i).isReg = true) : i = 4 ∨ i = 9 := by
  rcases inum_cases n filler hnode with rfl | rfl | rfl | rfl
  · rw [inode_root] at hreg
    cases hreg
  · exact Or.inl rfl
  · rw [inode_d] at hreg
    cases hreg
  · exact Or.inr rfl

/-- Who holds which block of the sample. -/
def holders : List ((List Slot × Role) × Nat) :=
  [(([], .inode), 2), (([], .entries), 3), (([0], .inode), 4),
    (([0], .data 0), 5), (([0], .data 1), 6), (([1], .inode), 7),
    (([1], .entries), 8), (([1, 1], .inode), 9)]

omit n filler in
theorem directoryInode_isDir (block : Nat) :
    (directoryInode block).isDir = true := by
  change sIsDir 0o040777 = true
  decide

omit n filler in
theorem fileInode_isReg (size : Int32) (first second : Nat) :
    (fileInode size first second).isReg = true := by
  change sIsReg 0o100777 = true
  decide

omit n filler in
theorem directoryInode_owned {block i b : Nat} {role : Role}
    (howned : (directoryInode block).owned i role = some b) :
    (role = .inode ∧ b = i) ∨
      (role = .entries ∧ b = (directoryInode block).ptr 0) := by
  cases role with
  | inode => exact Or.inl ⟨rfl, (Option.some.inj howned).symm⟩
  | entries =>
      rw [FsInode.owned, if_pos (directoryInode_isDir block)] at howned
      exact Or.inr ⟨rfl, (Option.some.inj howned).symm⟩
  | data k =>
      rw [FsInode.owned, FsInode.isReg,
        sIsReg_of_sIsDir (directoryInode_isDir block)] at howned
      simp at howned

omit n filler in
theorem fileInode_owned {size : Int32} {first second i b : Nat}
    {role : Role}
    (howned : (fileInode size first second).owned i role = some b) :
    (role = .inode ∧ b = i) ∨
      ∃ k, role = .data k ∧ k < blockCount size.toInt.toNat ∧
        b = (fileInode size first second).ptr k := by
  cases role with
  | inode => exact Or.inl ⟨rfl, (Option.some.inj howned).symm⟩
  | entries =>
      rw [FsInode.owned, FsInode.isDir,
        sIsDir_of_sIsReg (fileInode_isReg size first second)] at howned
      simp at howned
  | data k =>
      rw [FsInode.owned] at howned
      split at howned
      next hdata =>
        exact Or.inr ⟨k, rfl, hdata.2, (Option.some.inj howned).symm⟩
      next => cases howned

theorem mem_holders {key : List Slot × Role} {b : Nat}
    (hholder : (disk n filler).holder key = some b) :
    (key, b) ∈ holders := by
  obtain ⟨path, role⟩ := key
  obtain ⟨names, i, hnode, howned⟩ := Disk.holder_eq_some.mp hholder
  have hmem := mem_nodes n filler hnode
  simp only [nodes, List.mem_cons, Prod.mk.injEq, List.not_mem_nil,
    or_false] at hmem
  rw [Disk.owned] at howned
  rcases hmem with ⟨rfl, rfl⟩ | ⟨rfl, rfl⟩ | ⟨rfl, rfl⟩ | ⟨rfl, rfl⟩
  · rw [inode_root] at howned
    rcases directoryInode_owned howned with ⟨rfl, rfl⟩ | ⟨rfl, rfl⟩ <;> decide
  · rw [inode_a] at howned
    rcases fileInode_owned howned with ⟨rfl, rfl⟩ | ⟨k, rfl, hk, rfl⟩
    · decide
    · have htwo : k < 2 := hk
      interval_cases k <;> decide
  · rw [inode_d] at howned
    rcases directoryInode_owned howned with ⟨rfl, rfl⟩ | ⟨rfl, rfl⟩ <;> decide
  · rw [inode_b] at howned
    rcases fileInode_owned howned with ⟨rfl, rfl⟩ | ⟨k, rfl, hk, rfl⟩
    · decide
    · exact absurd hk (Nat.not_lt_zero k)

theorem marked {b : Nat} (hb : b < 10) : Marked ((disk n filler) 1) b := by
  change Marked (fun k => if k.val = 0 then 255
    else if k.val = 1 then 3 else 0) b
  interval_cases b <;> decide

theorem object {path : List Slot} {names : List Name} {i : Nat}
    (hnode : (disk n filler).node path = some (names, i)) :
    ObjectOk (disk n filler) i := by
  rcases inum_cases n filler hnode with rfl | rfl | rfl | rfl
  · refine ⟨Or.inr ?_, fun hreg => ?_, fun _ => ?_⟩
    · rw [inode_root]
      decide
    · rw [inode_root] at hreg
      cases hreg
    · rw [entries_root]
      exact rootDirectory_ok
  · refine ObjectOk.of_isReg ?_ ?_ <;> rw [inode_a] <;> decide
  · refine ⟨Or.inr ?_, fun hreg => ?_, fun _ => ?_⟩
    · rw [inode_d]
      decide
    · rw [inode_d] at hreg
      cases hreg
    · rw [entries_d]
      exact subDirectory_ok
  · refine ObjectOk.of_isReg ?_ ?_ <;> rw [inode_b] <;> decide

/-- The sample is a consistent image, whatever its free blocks hold. -/
theorem consistent (hlow : 10 ≤ n.toNat) (hhigh : n.toNat ≤ 32768) :
    Consistent (world n filler).disk (world n filler).device.size := by
  have hsize : (world n filler).disk.diskSize = n.toNat := diskSize n filler
  refine ⟨hsize.trans_le hhigh, hsize.le, ?_, ?_, ?_, ?_, ?_⟩
  · exact fun b hb => marked n filler (by omega)
  · change ((disk n filler).inode 2).isDir = true
    rw [inode_root]
    rfl
  · exact fun path names i hnode => object n filler hnode
  · intro key b hholder
    have hall : ∀ entry ∈ holders, 2 ≤ entry.2 ∧ entry.2 < 10 := by decide
    have hrange := hall _ (mem_holders n filler hholder)
    rw [hsize]
    exact ⟨hrange.1, hrange.2.trans_le hlow, marked n filler hrange.2⟩
  · intro first second b hfirst hsecond
    have hall : ∀ entry ∈ holders, ∀ entry' ∈ holders,
        entry.2 = entry'.2 → entry.1 = entry'.1 := by decide
    exact hall _ (mem_holders n filler hfirst) _
      (mem_holders n filler hsecond) rfl

theorem healthy : (world n filler).device.Healthy := ⟨rfl, rfl⟩

theorem node_a : (disk n filler).node [0] = some ([nameA], 4) := by
  have hvalid : (rootDirectory 0).valid = true := by decide
  rw [Disk.node, ← List.nil_append [(0 : Slot)], walk_snoc, walk_nil,
    Option.bind_some, Disk.edge, inode_root, entries_root, hvalid,
    if_pos ⟨directoryInode_isDir 3, rfl⟩]
  decide

theorem node_d : (disk n filler).node [1] = some ([nameD], 7) := by
  have hvalid : (rootDirectory 1).valid = true := by decide
  rw [Disk.node, ← List.nil_append [(1 : Slot)], walk_snoc, walk_nil,
    Option.bind_some, Disk.edge, inode_root, entries_root, hvalid,
    if_pos ⟨directoryInode_isDir 3, rfl⟩]
  decide

theorem node_b : (disk n filler).node [1, 1] = some ([nameD, nameB], 9) := by
  have hvalid : (subDirectory 1).valid = true := by decide
  have hnode := node_d n filler
  rw [Disk.node] at hnode
  rw [Disk.node, show [(1 : Slot), 1] = [1] ++ [1] from rfl, walk_snoc,
    hnode, Option.bind_some, Disk.edge, inode_d, entries_d, hvalid,
    if_pos ⟨directoryInode_isDir 8, rfl⟩]
  decide

theorem holder_of_mem {key : List Slot × Role} {b : Nat}
    (hmem : (key, b) ∈ holders) : (disk n filler).holder key = some b := by
  have hroot : (disk n filler).node [] = some ([], 2) := Disk.node_nil
  have ha := node_a n filler
  have hd := node_d n filler
  simp only [holders, List.mem_cons, Prod.mk.injEq, List.not_mem_nil,
    or_false] at hmem
  rcases hmem with ⟨rfl, rfl⟩ | ⟨rfl, rfl⟩ | ⟨rfl, rfl⟩ | ⟨rfl, rfl⟩ |
    ⟨rfl, rfl⟩ | ⟨rfl, rfl⟩ | ⟨rfl, rfl⟩ | ⟨rfl, rfl⟩
  · exact Disk.holder_inode hroot
  · rw [Disk.holder_entries hroot (by rw [inode_root]; decide), inode_root]
    decide
  · exact Disk.holder_inode ha
  · rw [Disk.holder_data ha (by rw [inode_a]; decide)
      (by rw [inode_a]; decide), inode_a]
    decide
  · rw [Disk.holder_data ha (by rw [inode_a]; decide)
      (by rw [inode_a]; decide), inode_a]
    decide
  · exact Disk.holder_inode hd
  · rw [Disk.holder_entries hd (by rw [inode_d]; decide), inode_d]
    decide
  · exact Disk.holder_inode (node_b n filler)

theorem lt_of_marked {b : Nat} (hmarked : Marked ((disk n filler) 1) b) :
    b < 10 := by
  by_contra hge
  apply hmarked
  change bitTest (fun k => if k.val = 0 then 255
    else if k.val = 1 then 3 else 0) b = 0
  rcases Nat.lt_or_ge b 16 with hlt | hlarge
  · interval_cases b <;> decide
  · rw [bitTest]
    split
    next hbyte =>
      rw [if_neg (by dsimp only; omega), if_neg (by dsimp only; omega)]
      exact UInt8.zero_and
    next => rfl

/-! Requests to the sample. -/

def context : Context := ⟨1000, 1000, fun _ => 7⟩

end

def request (call : Call) : Request := ⟨context, call⟩

def pathRoot : CString := ⟨[47], by decide⟩
def pathA : CString := ⟨[47, 97], by decide⟩
def pathB : CString := ⟨[47, 100, 47, 98], by decide⟩
def pathC : CString := ⟨[47, 99], by decide⟩
def pathD : CString := ⟨[47, 100], by decide⟩

/-- Updates that stay within every contract in any world. -/
def updates : List Request :=
  [request (.mkdir pathC 0o755), request (.truncate pathA 100),
    request (.chmod pathB 0o600)]

theorem updates_cases {request : Request} (hmem : request ∈ updates) :
    request = Sample.request (.mkdir pathC 0o755) ∨
      request = Sample.request (.truncate pathA 100) ∨
      request = Sample.request (.chmod pathB 0o600) := by
  simpa [updates] using hmem

theorem updates_ok : ∀ request ∈ updates, ∀ world,
    anyUpdate world request := by
  intro request hmem world
  rcases updates_cases hmem with rfl | rfl | rfl
  · exact ⟨trivial, by decide⟩
  · exact ⟨trivial, by decide⟩
  · exact ⟨trivial, by decide⟩

section

variable (n : UInt32) (filler : Block) (hlow : 10 ≤ n.toNat)
  (hhigh : n.toNat ≤ 32768)

include hlow hhigh

theorem steady : Steady (world n filler).boot :=
  Steady.boot (consistent n filler hlow hhigh) (healthy n filler)

theorem reachable : Reachable (world n filler).boot :=
  Reachable.boot (consistent n filler hlow hhigh) (healthy n filler)

theorem resolve_a :
    (world n filler).boot.disk.resolve (parse pathA) = .ok ([0], 4) := by
  have hparse : parse pathA = [nameA] := by decide
  rw [hparse]
  exact Disk.resolve_of_node (steady n filler hlow hhigh).consistent.object
    (node_a n filler)

theorem resolve_d :
    (world n filler).boot.disk.resolve (parse pathD) = .ok ([1], 7) := by
  have hparse : parse pathD = [nameD] := by decide
  rw [hparse]
  exact Disk.resolve_of_node (steady n filler hlow hhigh).consistent.object
    (node_d n filler)

theorem run_pathRoot :
    run (pathToInode pathRoot 0) (world n filler).boot =
      some (.ok (2, directoryInode 3), (world n filler).boot) := by
  have hresolve : (world n filler).boot.disk.resolve (parse pathRoot) =
      .ok ([], 2) := by
    rw [show parse pathRoot = [] by decide]
    rfl
  rw [(steady n filler hlow hhigh).toMounted.run_target hresolve]
  exact congrArg (fun inode => some (Except.ok ((2 : Int), inode), _))
    (inode_root n filler)

/-- What `path_to_inode` finds at `a`. -/
theorem run_pathA :
    run (pathToInode pathA 0) (world n filler).boot =
      some (.ok (4, fileInode 5000 5 6), (world n filler).boot) := by
  rw [(steady n filler hlow hhigh).toMounted.run_target
    (resolve_a n filler hlow hhigh)]
  exact congrArg (fun inode => some (Except.ok ((4 : Int), inode), _))
    (inode_a n filler)

theorem run_pathD :
    run (pathToInode pathD 0) (world n filler).boot =
      some (.ok (7, directoryInode 8), (world n filler).boot) := by
  rw [(steady n filler hlow hhigh).toMounted.run_target
    (resolve_d n filler hlow hhigh)]
  exact congrArg (fun inode => some (Except.ok ((7 : Int), inode), _))
    (inode_d n filler)

end

end Sample

end Fs5600
