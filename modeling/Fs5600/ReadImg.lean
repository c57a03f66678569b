/-
The image reader `read-img.py`: it prints the superblock and the marked
blocks, walks the tree from inode 2 to collect the inodes, prints them, and
walks it again to print every object with what is wrong about it.
-/
import Fs5600.BitmapFormat
import Fs5600.Image
import Fs5600.Lib.Script

namespace Fs5600

open Scripts Preorder

/-- An image file: whole blocks, and the bytes behind the last one. -/
structure ImageFile where
  disk : Disk
  nblks : Nat
  odd : Fin 4096

/-- A file of whole blocks. -/
def ImageFile.whole (disk : Disk) (nblks : Nat) : ImageFile :=
  ⟨disk, nblks, ⟨0, by decide⟩⟩

/-- What ends the script early: `sys.exit`, `AssertionError`, `IndexError`,
or the recursion limit. -/
inductive ReadStop where
  | exit
  | assertion
  | index
  | recursion
deriving DecidableEq

/-- The values in what is printed; the words around them, the headings and
the breaks of lines are left out. -/
inductive ReadLine where
  | badLength (nbytes : Nat)
  | magic (magic : UInt32) (bad : Bool)
  | blocks (diskSize : UInt32) (bad : Option Nat)
  | used (i : Nat)
  | found (i : Nat)
  | inode (inum : Nat) (name : Name) (uid gid : UInt16) (mode : UInt32)
      (size : Int32) (notMarked : Bool)
  | pointer (ptr : UInt32) (notAllocated : Bool)
  | directory (dblk : UInt32) (notAllocated : Bool)
  | entry (slot : Slot) (name : Name) (inode : Nat)
  | badMode (mode : UInt32)
deriving DecidableEq

/-- `BAD`, `NOT MARKED` or `NOT ALLOCATED` is in the line. -/
def ReadLine.complains : ReadLine → Bool
  | .badLength _ => true
  | .magic _ bad => bad
  | .blocks _ bad => bad.isSome
  | .inode _ _ _ _ _ _ notMarked => notMarked
  | .pointer _ notAllocated => notAllocated
  | .directory _ notAllocated => notAllocated
  | .badMode _ => true
  | .used _ | .found _ | .entry _ _ _ => false

abbrev ReadScript := Script ReadStop ReadLine

/-- An index into a list or a `ctypes` array. -/
def fetch {A : Type} : Option A → ReadScript A
  | some value => pure value
  | none => raise .index

/-- `if v: print`. -/
def printIf (v : Bool) (line : ReadLine) : ReadScript Unit :=
  if v then print line else pure ()

def ImageFile.block (image : ImageFile) (b : Nat) : Option Block :=
  if b < image.nblks then some (image.disk b) else none

/-- `_in.ptrs[i]`. -/
def FsInode.ptrAt (inode : FsInode) (i : Nat) : Option UInt32 :=
  if hi : i < 1019 then some (inode.ptrs ⟨i, hi⟩) else none

/-- `range(xblks)` for `xblks = (_in.size + 4095) // 4096`; the division
rounds down, and the range of a negative number is empty. -/
def FsInode.xblks (inode : FsInode) : Nat :=
  ((inode.size.toInt + 4095).fdiv 4096).toNat

/-- The valid entries of a directory block, each with the path that its name
completes. -/
def directoryChildren (name : Name) (des : Directory) : List (Name × Nat) :=
  (List.finRange 128).filterMap fun j =>
    if (des j).valid then
      some (name ++ slash :: (des j).nameString, (des j).inode.toNat)
    else none

section

variable (image : ImageFile) (blkmap : DiskfmtBitmap) (v : Bool)

def iterPointer (inode : FsInode) (i : Nat) : ReadScript Unit := do
  let ptr ← fetch (inode.ptrAt i)
  let alloc ← fetch (blkmap.get ptr.toNat)
  printIf v (.pointer ptr !alloc)

def iterEntry (des : Directory) (j : Slot) : ReadScript Unit :=
  if (des j).valid then
    printIf v (.entry j (des j).nameString (des j).inode.toNat)
  else pure ()

def iterDirectory (name : Name) (inode : FsInode) (i : Nat) :
    ReadScript (List (Name × Nat)) := do
  let dblk ← fetch (inode.ptrAt i)
  let alloc ← fetch (blkmap.get dblk.toNat)
  printIf v (.directory dblk !alloc)
  let blk ← fetch (image.block dblk.toNat)
  let des := Directory.decode blk
  let _ ← each (iterEntry v des) (List.finRange 128)
  pure (directoryChildren name des)

/-- The body of `iter` from the test of the mode to the loop over
`children`. -/
def iterBlocks (name : Name) (inode : FsInode) :
    ReadScript (List (Name × Nat)) :=
  if sIsReg inode.mode then do
    let _ ← each (iterPointer blkmap v inode) (List.range inode.xblks)
    pure []
  else if sIsDir inode.mode then do
    let children ← each (iterDirectory image blkmap v name inode)
      (List.range inode.xblks)
    pure children.flatten
  else do
    printIf v (.badMode inode.mode)
    pure []

def iterBody (node : Name × Nat) : ReadScript (List (Name × Nat)) :=
  let (name, inum) := node
  if inum < image.nblks then do
    let inode := image.disk.inode inum
    let alloc ← fetch (blkmap.get inum)
    let s := if name = [] then [slash] else name
    printIf v (.inode inum s inode.uid inode.gid inode.mode inode.size !alloc)
    iterBlocks image blkmap v name inode
  else raise .assertion

/-- `iter`, in calls that nest at most `limit` deep; the nodes visited, whose
numbers are the keys of `inodes`. -/
def iter (limit : Nat) : Name × Nat → ReadScript (List (Name × Nat)) :=
  traverse (iterBody image blkmap v) .recursion limit

end

/-- The script as a whole. -/
def readImg (limit : Nat) (image : ImageFile) : ReadScript Unit :=
  if image.odd.val ≠ 0 then do
    print (.badLength (4096 * image.nblks + image.odd.val))
    raise .exit
  else do
    let sb ← fetch ((image.block 0).map FsSuper.decode)
    print (.magic sb.magic (sb.magic != 0x30303635))
    print (.blocks sb.diskSize
      (if sb.diskSize.toNat ≠ image.nblks then some image.nblks else none))
    let blkmap ← fetch ((image.block 1).map DiskfmtBitmap.fromBlock)
    let _ ← each (fun i => do
      let used ← fetch (blkmap.get i)
      printIf used (.used i)) (List.range image.nblks)
    let inodes ← iter image blkmap false limit ([], 2)
    let _ ← each (fun i =>
      printIf (decide (i ∈ inodes.map Prod.snd)) (.found i))
      (List.range image.nblks)
    let _ ← iter image blkmap true limit ([], 2)
    pure ()

/-! When a part of the script ends and complains of nothing. -/

def Quiet {A : Type} (script : ReadScript A) : Prop :=
  Clean (fun line => line.complains = false) script

section

variable {A B : Type}

@[simp] theorem quiet_pure (value : A) : Quiet (pure value) :=
  clean_pure value

theorem quiet_print {line : ReadLine} :
    Quiet (print line) ↔ line.complains = false := clean_print line

theorem quiet_printIf {v : Bool} {line : ReadLine} :
    Quiet (printIf v line) ↔ (v = true → line.complains = false) := by
  cases v with
  | true => simp [printIf, quiet_print]
  | false => simp [printIf]

theorem quiet_seq {first : ReadScript A} {next : ReadScript B} :
    Quiet (first >>= fun _ => next) ↔ Quiet first ∧ Quiet next := clean_seq

theorem quiet_each {body : A → ReadScript B} {values : List A} :
    Quiet (each body values) ↔ ∀ value ∈ values, Quiet (body value) :=
  clean_each

theorem quiet_bind {first : ReadScript A} {next : A → ReadScript B} :
    Quiet (first >>= next) ↔
      Quiet first ∧
        ∀ value, first.result = .ok value → Quiet (next value) := clean_bind

theorem quiet_fetch {item : Option A} {next : A → ReadScript B} :
    Quiet (fetch item >>= next) ↔
      ∃ value, item = some value ∧ Quiet (next value) := by
  rw [quiet_bind]
  cases item with
  | none =>
      refine iff_of_false (fun hall => ?_) fun ⟨_, heq, _⟩ => by cases heq
      exact not_clean_raise _ hall.1
  | some value =>
      constructor
      · exact fun hall => ⟨value, rfl, hall.2 value rfl⟩
      · rintro ⟨_, heq, hnext⟩
        cases heq
        refine ⟨quiet_pure value, fun value' hvalue => ?_⟩
        cases hvalue
        exact hnext

end

/-- Block `b` has a bit in the map, and, if it is printed, the bit is set. -/
def Looked (v : Bool) (blkmap : DiskfmtBitmap) (b : Nat) : Prop :=
  ∃ alloc, blkmap.get b = some alloc ∧ (v = true → alloc = true)

theorem looked_true {map : Block} {b : Nat} :
    Looked true (.fromBlock map) b ↔ Marked map b := by
  constructor
  · rintro ⟨alloc, hget, halloc⟩
    rw [halloc rfl] at hget
    have hmarked := of_decide_eq_true (DiskfmtBitmap.eq_of_get hget).symm
    rwa [DiskfmtBitmap.toBlock_fromBlock] at hmarked
  · intro hmarked
    have hb : b < 32768 := by
      by_contra hle
      exact not_marked_of_le (Nat.le_of_not_lt hle) hmarked
    refine ⟨true, ?_, fun _ => rfl⟩
    rw [DiskfmtBitmap.get_eq _ hb, DiskfmtBitmap.toBlock_fromBlock,
      decide_eq_true hmarked]

theorem Looked.silent {v : Bool} {blkmap : DiskfmtBitmap} {b : Nat}
    (hlooked : Looked v blkmap b) : Looked false blkmap b := by
  obtain ⟨alloc, hget, -⟩ := hlooked
  exact ⟨alloc, hget, fun h => by cases h⟩

theorem FsInode.ptrAt_eq_some {inode : FsInode} {i : Nat} {ptr : UInt32} :
    inode.ptrAt i = some ptr ↔ i < 1019 ∧ ptr.toNat = inode.ptr i := by
  rw [ptrAt, FsInode.ptr]
  split
  next hi =>
    rw [Option.some.injEq, ← UInt32.toNat_inj]
    exact ⟨fun h => ⟨hi, h.symm⟩, fun h => h.2.symm⟩
  next hi => exact iff_of_false (fun h => by cases h) fun h => hi h.1

theorem ImageFile.block_eq_some {image : ImageFile} {b : Nat}
    {block : Block} :
    image.block b = some block ↔ b < image.nblks ∧ block = image.disk b := by
  rw [ImageFile.block]
  split
  next hb => simp [hb, eq_comm]
  next hb => simp [hb]

section

variable {image : ImageFile} {blkmap : DiskfmtBitmap} {v : Bool}

theorem quiet_iterPointer {inode : FsInode} {i : Nat} :
    Quiet (iterPointer blkmap v inode i) ↔
      i < 1019 ∧ Looked v blkmap (inode.ptr i) := by
  simp only [iterPointer, quiet_fetch, quiet_printIf, ReadLine.complains,
    FsInode.ptrAt_eq_some, Bool.not_eq_false', Looked]
  constructor
  · rintro ⟨ptr, ⟨hi, hptr⟩, hlooked⟩
    rw [hptr] at hlooked
    exact ⟨hi, hlooked⟩
  · rintro ⟨hi, hlooked⟩
    refine ⟨inode.ptrs ⟨i, hi⟩, ⟨hi, ?_⟩, ?_⟩
    · rw [FsInode.ptr, dif_pos hi]
    · rwa [FsInode.ptr, dif_pos hi] at hlooked

theorem quiet_iterEntry {des : Directory} {j : Slot} :
    Quiet (iterEntry v des j) := by
  rw [iterEntry]
  split
  · exact quiet_printIf.mpr fun _ => rfl
  · exact clean_pure ()

theorem quiet_iterDirectory {name : Name} {inode : FsInode} {i : Nat} :
    Quiet (iterDirectory image blkmap v name inode i) ↔
      i < 1019 ∧ Looked v blkmap (inode.ptr i) ∧
        inode.ptr i < image.nblks := by
  simp only [iterDirectory, quiet_fetch, quiet_seq, quiet_printIf, quiet_each,
    quiet_iterEntry, quiet_pure, ReadLine.complains, FsInode.ptrAt_eq_some,
    Bool.not_eq_false', ImageFile.block_eq_some, implies_true, and_true,
    Looked]
  constructor
  · rintro ⟨ptr, ⟨hi, hptr⟩, alloc, hget, halloc, block, hlt, -⟩
    rw [hptr] at hget hlt
    exact ⟨hi, ⟨alloc, hget, halloc⟩, hlt⟩
  · rintro ⟨hi, ⟨alloc, hget, halloc⟩, hlt⟩
    have hptr : (inode.ptrs ⟨i, hi⟩).toNat = inode.ptr i := by
      rw [FsInode.ptr, dif_pos hi]
    rw [← hptr] at hget hlt
    exact ⟨inode.ptrs ⟨i, hi⟩, ⟨hi, hptr⟩, alloc, hget, halloc, _, hlt, rfl⟩

/-- What is looked at behind the test of the mode. -/
structure BlocksLooked (image : ImageFile) (blkmap : DiskfmtBitmap)
    (v : Bool) (inode : FsInode) : Prop where
  kind : v = true → inode.isReg = true ∨ inode.isDir = true
  range : inode.isReg = true ∨ inode.isDir = true → inode.xblks ≤ 1019
  looked : inode.isReg = true ∨ inode.isDir = true → ∀ i < inode.xblks,
    Looked v blkmap (inode.ptr i)
  entries : inode.isDir = true → ∀ i < inode.xblks,
    inode.ptr i < image.nblks

theorem quiet_iterBlocks {name : Name} {inode : FsInode} :
    Quiet (iterBlocks image blkmap v name inode) ↔
      BlocksLooked image blkmap v inode := by
  have hall : ∀ {P : Nat → Prop} {n : Nat},
      (∀ i ∈ List.range n, i < 1019 ∧ P i) ↔ n ≤ 1019 ∧ ∀ i < n, P i := by
    intro P n
    simp only [List.mem_range]
    constructor
    · intro hboth
      refine ⟨?_, fun i hi => (hboth i hi).2⟩
      by_contra hlt
      have := (hboth 1019 (Nat.lt_of_not_le hlt)).1
      omega
    · exact fun h i hi => ⟨Nat.lt_of_lt_of_le hi h.1, h.2 i hi⟩
  rw [iterBlocks]
  by_cases hreg : inode.isReg = true
  · have hdir : ¬ inode.isDir = true := by simp [sIsDir_of_sIsReg hreg]
    rw [if_pos hreg, quiet_seq, quiet_each]
    simp only [quiet_iterPointer, hall, quiet_pure, and_true]
    exact ⟨fun h => ⟨fun _ => Or.inl hreg, fun _ => h.1, fun _ => h.2,
      fun h' => absurd h' hdir⟩,
      fun h => ⟨h.range (Or.inl hreg), h.looked (Or.inl hreg)⟩⟩
  · rw [if_neg hreg]
    by_cases hdir : inode.isDir = true
    · rw [if_pos hdir, quiet_bind, quiet_each]
      simp only [quiet_iterDirectory, hall]
      constructor
      · rintro ⟨⟨hrange, hlooked⟩, -⟩
        exact ⟨fun _ => Or.inr hdir, fun _ => hrange,
          fun _ i hi => (hlooked i hi).1, fun _ i hi => (hlooked i hi).2⟩
      · intro h
        exact ⟨⟨h.range (Or.inr hdir), fun i hi =>
          ⟨h.looked (Or.inr hdir) i hi, h.entries hdir i hi⟩⟩,
          fun _ _ => quiet_pure _⟩
    · rw [if_neg hdir, quiet_seq, quiet_printIf]
      simp only [ReadLine.complains, quiet_pure, and_true]
      have hnone : ¬ (inode.isReg = true ∨ inode.isDir = true) :=
        not_or.mpr ⟨hreg, hdir⟩
      exact ⟨fun hv => ⟨fun hprint => absurd (hv hprint) (by decide),
        fun h => absurd h hnone, fun h => absurd h hnone,
        fun h => absurd h hdir⟩,
        fun h hprint => absurd (h.kind hprint) hnone⟩

theorem quiet_iterBody {node : Name × Nat} :
    Quiet (iterBody image blkmap v node) ↔
      node.2 < image.nblks ∧ Looked v blkmap node.2 ∧
        BlocksLooked image blkmap v (image.disk.inode node.2) := by
  obtain ⟨name, inum⟩ := node
  rw [iterBody]
  dsimp only
  split
  next hlt =>
    simp only [quiet_fetch, quiet_seq, quiet_printIf, quiet_iterBlocks,
      ReadLine.complains, Bool.not_eq_false', Looked]
    constructor
    · rintro ⟨alloc, hget, halloc, hblocks⟩
      exact ⟨hlt, ⟨alloc, hget, halloc⟩, hblocks⟩
    · rintro ⟨-, ⟨alloc, hget, halloc⟩, hblocks⟩
      exact ⟨alloc, hget, halloc, hblocks⟩
  next hlt =>
    exact iff_of_false (not_clean_raise _) fun hvisited =>
      hlt hvisited.1

/-- The children that a visit ends with. -/
def ImageFile.childrenOf (image : ImageFile) (name : Name)
    (inode : FsInode) : List (Name × Nat) :=
  if inode.isDir then
    (List.range inode.xblks).flatMap fun i =>
      directoryChildren name (.decode (image.disk (inode.ptr i)))
  else []

def ImageFile.children (image : ImageFile) (node : Name × Nat) :
    List (Name × Nat) :=
  image.childrenOf node.1 (image.disk.inode node.2)

theorem fetch_eq_ok {A : Type} {item : Option A} {value : A}
    (hresult : (fetch item).result = .ok value) : item = some value := by
  cases item with
  | none => cases hresult
  | some value' =>
      cases hresult
      rfl

theorem iterDirectory_eq_ok {name : Name} {inode : FsInode} {i : Nat}
    {children : List (Name × Nat)}
    (hresult : (iterDirectory image blkmap v name inode i).result =
      .ok children) :
    children = directoryChildren name
      (.decode (image.disk (inode.ptr i))) := by
  rw [iterDirectory, bind_eq_ok] at hresult
  obtain ⟨dblk, hdblk, hresult⟩ := hresult
  obtain ⟨-, hptr⟩ := FsInode.ptrAt_eq_some.mp (fetch_eq_ok hdblk)
  obtain ⟨alloc, -, hresult⟩ := bind_eq_ok.mp hresult
  obtain ⟨-, -, hresult⟩ := bind_eq_ok.mp hresult
  obtain ⟨blk, hblk, hresult⟩ := bind_eq_ok.mp hresult
  obtain ⟨-, rfl⟩ := ImageFile.block_eq_some.mp (fetch_eq_ok hblk)
  obtain ⟨-, -, heq⟩ := bind_eq_ok.mp hresult
  cases heq
  rw [hptr]

theorem iterBlocks_eq_ok {name : Name} {inode : FsInode}
    {children : List (Name × Nat)}
    (hresult : (iterBlocks image blkmap v name inode).result =
      .ok children) : children = image.childrenOf name inode := by
  rw [iterBlocks] at hresult
  rw [ImageFile.childrenOf]
  split at hresult
  next hreg =>
    obtain ⟨-, -, heq⟩ := bind_eq_ok.mp hresult
    cases heq
    rw [FsInode.isDir, sIsDir_of_sIsReg hreg]
    rfl
  next =>
    split at hresult
    next hdir =>
      obtain ⟨lists, hlists, heq⟩ := bind_eq_ok.mp hresult
      cases heq
      obtain ⟨rfl, -⟩ := each_eq_ok
        (fun _ _ h => ⟨iterDirectory_eq_ok h, rfl⟩) hlists
      rw [if_pos hdir]
      rfl
    next hdir =>
      obtain ⟨-, -, heq⟩ := bind_eq_ok.mp hresult
      cases heq
      rw [if_neg hdir]

theorem iterBody_eq_ok {node : Name × Nat} {children : List (Name × Nat)}
    (hresult : (iterBody image blkmap v node).result = .ok children) :
    children = image.children node := by
  obtain ⟨name, inum⟩ := node
  rw [iterBody] at hresult
  dsimp only at hresult
  split at hresult
  next =>
    obtain ⟨alloc, -, hresult⟩ := bind_eq_ok.mp hresult
    obtain ⟨-, -, hresult⟩ := bind_eq_ok.mp hresult
    exact iterBlocks_eq_ok hresult
  next => cases hresult

/-- The walk over the tree, in terms of what can be reached. -/
theorem quiet_iter {limit : Nat} {node : Name × Nat} :
    Quiet (iter image blkmap v limit node) ↔
      ∀ k there, Steps image.children k node there → k < limit ∧
        Quiet (iterBody image blkmap v there) :=
  clean_traverse fun _ _ => iterBody_eq_ok

end

/-- What the script asks of an object with this inode. -/
structure BlocksMarked (image : ImageFile) (inode : FsInode) : Prop where
  kind : inode.isReg = true ∨ inode.isDir = true
  range : inode.xblks ≤ 1019
  marked : ∀ i < inode.xblks, Marked (image.disk 1) (inode.ptr i)
  entries : inode.isDir = true → ∀ i < inode.xblks,
    inode.ptr i < image.nblks

/-- What the script asks of an image.  The graph is the one that the script
walks. -/
structure WellMarked (limit : Nat) (image : ImageFile) : Prop where
  odd : image.odd.val = 0
  magic : image.disk.superblock.magic = 0x30303635
  diskSize : image.disk.diskSize = image.nblks
  nblks_le : image.nblks ≤ 32768
  reached : ∀ k node, Steps image.children k ([], 2) node →
    k < limit ∧ node.2 < image.nblks ∧ Marked (image.disk 1) node.2 ∧
      BlocksMarked image (image.disk.inode node.2)

section

variable {image : ImageFile}

theorem blocksLooked_true {inode : FsInode} :
    BlocksLooked image (.fromBlock (image.disk 1)) true inode ↔
      BlocksMarked image inode := by
  constructor
  · intro h
    have hkind := h.kind rfl
    exact ⟨hkind, h.range hkind,
      fun i hi => looked_true.mp (h.looked hkind i hi), h.entries⟩
  · exact fun h => ⟨fun _ => h.kind, fun _ => h.range,
      fun _ i hi => looked_true.mpr (h.marked i hi), h.entries⟩

theorem BlocksLooked.silent {blkmap : DiskfmtBitmap} {v : Bool}
    {inode : FsInode} (h : BlocksLooked image blkmap v inode) :
    BlocksLooked image blkmap false inode :=
  ⟨fun hv => absurd hv (by decide), h.range, fun hkind i hi =>
    (h.looked hkind i hi).silent, h.entries⟩

theorem quiet_iter_silent {blkmap : DiskfmtBitmap} {limit : Nat}
    {node : Name × Nat} (hquiet : Quiet (iter image blkmap true limit node)) :
    Quiet (iter image blkmap false limit node) := by
  refine quiet_iter.mpr fun k there hsteps => ?_
  obtain ⟨hk, hbody⟩ := quiet_iter.mp hquiet k there hsteps
  obtain ⟨hlt, hlooked, hblocks⟩ := quiet_iterBody.mp hbody
  exact ⟨hk, quiet_iterBody.mpr ⟨hlt, hlooked.silent, hblocks.silent⟩⟩

theorem quiet_iter_root {limit : Nat} :
    Quiet (iter image (.fromBlock (image.disk 1)) true limit ([], 2)) ↔
      ∀ k node, Steps image.children k ([], 2) node →
        k < limit ∧ node.2 < image.nblks ∧ Marked (image.disk 1) node.2 ∧
          BlocksMarked image (image.disk.inode node.2) := by
  simp only [quiet_iter, quiet_iterBody, looked_true, blocksLooked_true]

/-- The two walks and the list of inodes between them. -/
theorem quiet_walks {blkmap : DiskfmtBitmap} {limit : Nat}
    {values : List Nat} :
    Quiet (do
      let inodes ← iter image blkmap false limit ([], 2)
      let _ ← each (fun i =>
        printIf (decide (i ∈ inodes.map Prod.snd)) (.found i)) values
      let _ ← iter image blkmap true limit ([], 2)
      pure ()) ↔ Quiet (iter image blkmap true limit ([], 2)) := by
  have hfound : ∀ inodes : List (Name × Nat), Quiet (each (fun i =>
      printIf (decide (i ∈ inodes.map Prod.snd)) (.found i)) values) :=
    fun inodes => quiet_each.mpr fun i _ => quiet_printIf.mpr fun _ => rfl
  simp only [quiet_bind, quiet_pure, hfound, implies_true, true_and,
    and_true]
  constructor
  · rintro ⟨hsilent, hrest⟩
    obtain ⟨inodes, hinodes⟩ := Clean.exists_ok hsilent
    obtain ⟨found, hvalue⟩ := Clean.exists_ok (hfound inodes)
    exact hrest inodes hinodes found hvalue
  · exact fun hquiet => ⟨quiet_iter_silent hquiet, fun _ _ _ _ => hquiet⟩

theorem quiet_marks {blkmap : DiskfmtBitmap} {n : Nat} :
    Quiet (each (fun i => do
      let used ← fetch (blkmap.get i)
      printIf used (.used i)) (List.range n)) ↔ n ≤ 32768 := by
  simp only [quiet_each, quiet_fetch, quiet_printIf, ReadLine.complains,
    implies_true, and_true, List.mem_range]
  constructor
  · intro hall
    by_contra hlt
    obtain ⟨used, hget⟩ := hall 32768 (Nat.lt_of_not_le hlt)
    cases hget
  · exact fun hn i hi => ⟨_, blkmap.get_eq (Nat.lt_of_lt_of_le hi hn)⟩

/-- `read-img.py` runs to its end and prints no complaint exactly when the
image passes every check along the graph that it walks. -/
theorem quiet_readImg {limit : Nat} :
    Quiet (readImg limit image) ↔ WellMarked limit image := by
  rw [readImg]
  split
  next hodd =>
    refine iff_of_false (fun hquiet => ?_) fun hwell => hodd hwell.odd
    exact absurd (quiet_seq.mp hquiet).2 (not_clean_raise _)
  next hodd =>
    rw [not_not] at hodd
    have hbad : ∀ n : Nat, (if n ≠ image.nblks then some image.nblks
        else none).isSome = false ↔ n = image.nblks := fun n => by
      by_cases heq : n = image.nblks <;> simp [heq]
    simp only [quiet_fetch, quiet_seq, quiet_print, quiet_marks, quiet_walks,
      ReadLine.complains, Option.map_eq_some_iff, ImageFile.block_eq_some,
      hbad]
    constructor
    · rintro ⟨sb, ⟨_, ⟨-, rfl⟩, rfl⟩, hmagic, hsize, blkmap,
        ⟨_, ⟨-, rfl⟩, rfl⟩, hle, hwalk⟩
      exact ⟨hodd, bne_eq_false_iff_eq.mp hmagic, hsize, hle,
        quiet_iter_root.mp hwalk⟩
    · intro hwell
      have htwo := (hwell.reached 0 _ (.refl _)).2.1
      exact ⟨_, ⟨_, ⟨Nat.lt_trans (by decide) htwo, rfl⟩, rfl⟩,
        bne_eq_false_iff_eq.mpr hwell.magic, hwell.diskSize, _,
        ⟨_, ⟨Nat.lt_trans (by decide) htwo, rfl⟩, rfl⟩, hwell.nblks_le,
        quiet_iter_root.mpr hwell.reached⟩

end

/-! The output. -/

/-- `s` in `iter`. -/
def printedName (name : Name) : Name := if name = [] then [slash] else name

/-- `_in.ptrs[i]`, where it is there. -/
def FsInode.word (inode : FsInode) (i : Nat) : UInt32 :=
  (inode.ptrAt i).getD 0

theorem FsInode.toNat_word (inode : FsInode) (i : Nat) :
    (inode.word i).toNat = inode.ptr i := by
  rw [word, ptrAt, ptr]
  split <;> rfl

def entryLines (des : Directory) : List ReadLine :=
  (List.finRange 128).flatMap fun j =>
    if (des j).valid then
      [.entry j (des j).nameString (des j).inode.toNat]
    else []

/-- What is printed of the blocks of an object. -/
def ImageFile.blockLines (image : ImageFile) (inode : FsInode) :
    List ReadLine :=
  (List.range inode.xblks).flatMap fun i =>
    if inode.isReg then [.pointer (inode.word i) false]
    else .directory (inode.word i) false ::
      entryLines (.decode (image.disk (inode.ptr i)))

/-- What is printed of an object. -/
def ImageFile.objectLines (image : ImageFile) (node : Name × Nat) :
    List ReadLine :=
  let inode := image.disk.inode node.2
  .inode node.2 (printedName node.1) inode.uid inode.gid inode.mode inode.size
    false :: image.blockLines inode

section

variable {image : ImageFile} {blkmap : DiskfmtBitmap} {v : Bool}

theorem printed_fetch {A : Type} (item : Option A) :
    (fetch item).printed = [] := by
  cases item <;> rfl

/-! The first walk prints nothing. -/

theorem printed_iterPointer_false (inode : FsInode) (i : Nat) :
    (iterPointer blkmap false inode i).printed = [] :=
  printed_bind_eq_nil (printed_fetch _) fun _ =>
    printed_bind_eq_nil (printed_fetch _) fun _ => rfl

theorem printed_iterEntry_false (des : Directory) (j : Slot) :
    (iterEntry false des j).printed = [] := by
  rw [iterEntry]
  split <;> rfl

theorem printed_iterDirectory_false (name : Name) (inode : FsInode)
    (i : Nat) :
    (iterDirectory image blkmap false name inode i).printed = [] :=
  printed_bind_eq_nil (printed_fetch _) fun _ =>
    printed_bind_eq_nil (printed_fetch _) fun _ =>
      printed_bind_eq_nil rfl fun _ =>
        printed_bind_eq_nil (printed_fetch _) fun _ =>
          printed_bind_eq_nil
            (printed_each_eq_nil (printed_iterEntry_false _)) fun _ => rfl

theorem printed_iterBlocks_false (name : Name) (inode : FsInode) :
    (iterBlocks image blkmap false name inode).printed = [] := by
  rw [iterBlocks]
  split
  · exact printed_bind_eq_nil
      (printed_each_eq_nil (printed_iterPointer_false _)) fun _ => rfl
  · split
    · exact printed_bind_eq_nil
        (printed_each_eq_nil (printed_iterDirectory_false _ _)) fun _ => rfl
    · rfl

theorem printed_iterBody_false (node : Name × Nat) :
    (iterBody image blkmap false node).printed = [] := by
  rw [iterBody]
  dsimp only
  split
  · exact printed_bind_eq_nil (printed_fetch _) fun _ =>
      printed_bind_eq_nil rfl fun _ => printed_iterBlocks_false _ _
  · rfl

theorem printed_iter_false (limit : Nat) (node : Name × Nat) :
    (iter image blkmap false limit node).printed = [] :=
  printed_traverse_eq_nil printed_iterBody_false limit node

/-! The second walk prints every object it visits. -/

theorem Quiet.fetch_bind {A B : Type} {item : Option A}
    {next : A → ReadScript B} (hquiet : Quiet (fetch item >>= next)) :
    ∃ value, item = some value ∧ Quiet (next value) ∧
      (fetch item >>= next).printed = (next value).printed := by
  obtain ⟨value, hvalue, hnext, heq⟩ := Clean.printed_bind hquiet
  rw [printed_fetch, List.nil_append] at heq
  exact ⟨value, fetch_eq_ok hvalue, hnext, heq⟩

theorem Quiet.seq {A B : Type} {first : ReadScript A} {next : ReadScript B}
    (hquiet : Quiet (first >>= fun _ => next)) :
    Quiet first ∧ Quiet next ∧
      (first >>= fun _ => next).printed =
        first.printed ++ next.printed := by
  obtain ⟨_, -, hnext, heq⟩ := Clean.printed_bind hquiet
  exact ⟨(quiet_seq.mp hquiet).1, hnext, heq⟩

theorem printed_iterPointer {inode : FsInode} {i : Nat}
    (hquiet : Quiet (iterPointer blkmap true inode i)) :
    (iterPointer blkmap true inode i).printed =
      [.pointer (inode.word i) false] := by
  rw [iterPointer] at hquiet ⊢
  obtain ⟨ptr, hptr, hquiet, heq⟩ := hquiet.fetch_bind
  obtain ⟨alloc, -, hquiet, heq'⟩ := hquiet.fetch_bind
  have halloc : (!alloc) = false := quiet_print.mp hquiet
  rw [heq, heq', halloc, FsInode.word, hptr]
  rfl

theorem printed_iterEntry (des : Directory) (j : Slot) :
    (iterEntry true des j).printed =
      if (des j).valid then
        [.entry j (des j).nameString (des j).inode.toNat]
      else [] := by
  rw [iterEntry]
  split <;> rfl

theorem printed_iterDirectory {name : Name} {inode : FsInode} {i : Nat}
    (hquiet : Quiet (iterDirectory image blkmap true name inode i)) :
    (iterDirectory image blkmap true name inode i).printed =
      .directory (inode.word i) false ::
        entryLines (.decode (image.disk (inode.ptr i))) := by
  rw [iterDirectory] at hquiet ⊢
  obtain ⟨dblk, hdblk, hquiet, heq⟩ := hquiet.fetch_bind
  obtain ⟨alloc, -, hquiet, heq'⟩ := hquiet.fetch_bind
  obtain ⟨hprint, hquiet, hprinted⟩ := hquiet.seq
  obtain ⟨blk, hblk, hquiet, hfetched⟩ := hquiet.fetch_bind
  obtain ⟨heach, -, hentries⟩ := hquiet.seq
  have halloc : (!alloc) = false := quiet_print.mp hprint
  obtain ⟨-, rfl⟩ := ImageFile.block_eq_some.mp hblk
  rw [heq, heq', hprinted, hfetched, hentries, halloc,
    Clean.printed_each heach, FsInode.word, hdblk,
    (FsInode.ptrAt_eq_some.mp hdblk).2]
  simp only [printed_iterEntry]
  exact congrArg _ (List.append_nil _)

theorem printed_iterBlocks {name : Name} {inode : FsInode}
    (hquiet : Quiet (iterBlocks image blkmap true name inode)) :
    (iterBlocks image blkmap true name inode).printed =
      image.blockLines inode := by
  have hkind := (quiet_iterBlocks.mp hquiet).kind rfl
  rw [iterBlocks] at hquiet ⊢
  rw [ImageFile.blockLines]
  by_cases hreg : inode.isReg = true
  · rw [if_pos hreg] at hquiet ⊢
    obtain ⟨heach, -, heq⟩ := hquiet.seq
    rw [heq, Clean.printed_each heach]
    refine (List.append_nil _).trans (List.flatMap_congr fun i hi => ?_)
    rw [if_pos hreg]
    exact printed_iterPointer (quiet_each.mp heach i hi)
  · have hdir : inode.isDir = true := hkind.resolve_left hreg
    rw [if_neg hreg, if_pos hdir] at hquiet ⊢
    obtain ⟨_, -, -, heq⟩ := Clean.printed_bind hquiet
    have heach := (quiet_bind.mp hquiet).1
    rw [heq, Clean.printed_each heach]
    refine (List.append_nil _).trans (List.flatMap_congr fun i hi => ?_)
    rw [if_neg hreg]
    exact printed_iterDirectory (quiet_each.mp heach i hi)

theorem printed_iterBody {node : Name × Nat}
    (hquiet : Quiet (iterBody image blkmap true node)) :
    (iterBody image blkmap true node).printed = image.objectLines node := by
  obtain ⟨hlt, -, -⟩ := quiet_iterBody.mp hquiet
  obtain ⟨name, inum⟩ := node
  rw [iterBody] at hquiet ⊢
  dsimp only at hquiet hlt ⊢
  rw [if_pos hlt] at hquiet ⊢
  obtain ⟨alloc, -, hquiet, heq⟩ := hquiet.fetch_bind
  obtain ⟨hprint, hblocks, hprinted⟩ := hquiet.seq
  have halloc : (!alloc) = false := quiet_print.mp hprint
  rw [heq, hprinted, printed_iterBlocks hblocks, halloc]
  rfl

theorem printed_iter {limit : Nat} {node : Name × Nat}
    (hquiet : Quiet (iter image blkmap true limit node)) :
    (iter image blkmap true limit node).printed =
      (preorder image.children limit node).flatMap image.objectLines := by
  obtain ⟨found, hresult⟩ := Clean.exists_ok hquiet
  rw [iter, (traverse_eq_ok (fun _ _ => iterBody_eq_ok) hresult).2]
  refine List.flatMap_congr fun there hmem => printed_iterBody ?_
  obtain ⟨k, -, hsteps⟩ := mem_preorder.mp hmem
  exact (quiet_iter.mp hquiet k there hsteps).2

end

/-- The whole output for an image without complaints. -/
def ImageFile.listing (limit : Nat) (image : ImageFile) : List ReadLine :=
  let nodes := preorder image.children limit ([], 2)
  .magic image.disk.superblock.magic false ::
    .blocks image.disk.superblock.diskSize none ::
    ((List.range image.nblks).filter fun i =>
      decide (Marked (image.disk 1) i)).map .used ++
    ((List.range image.nblks).filter fun i =>
      decide (i ∈ nodes.map Prod.snd)).map .found ++
    nodes.flatMap image.objectLines

/-- The object that a line is about. -/
def ReadLine.object : ReadLine → Option (Name × Nat)
  | .inode inum name _ _ _ _ _ => some (name, inum)
  | _ => none

/-- The block that is printed as used. -/
def ReadLine.usedBlock : ReadLine → Option Nat
  | .used i => some i
  | _ => none

/-- The block that is printed as an inode or as a block of an object. -/
def ReadLine.heldBlock : ReadLine → Option Nat
  | .inode inum _ _ _ _ _ _ => some inum
  | .pointer ptr _ => some ptr.toNat
  | .directory dblk _ => some dblk.toNat
  | _ => none

section

variable {A : Type} (script : ReadScript A)

/-- The objects that a run prints. -/
def ReadScript.objects : List (Name × Nat) :=
  script.printed.filterMap ReadLine.object

/-- The blocks that a run prints as used. -/
def ReadScript.used : List Nat := script.printed.filterMap ReadLine.usedBlock

/-- The inodes and blocks that a run prints for the objects. -/
def ReadScript.held : List Nat := script.printed.filterMap ReadLine.heldBlock

end

theorem flatMap_if {A B : Type} (p : A → Bool) (f : A → B)
    (values : List A) :
    (values.flatMap fun value => if p value then [f value] else []) =
      (values.filter p).map f := by
  induction values with
  | nil => rfl
  | cons value values ih => cases hp : p value <;> simp [hp, ih]

section

variable {image : ImageFile}

theorem printed_marks {map : Block} {n : Nat}
    (hquiet : Quiet (each (fun i => do
      let used ← fetch ((DiskfmtBitmap.fromBlock map).get i)
      printIf used (.used i)) (List.range n))) :
    (each (fun i => do
      let used ← fetch ((DiskfmtBitmap.fromBlock map).get i)
      printIf used (.used i)) (List.range n)).printed =
      ((List.range n).filter fun i => decide (Marked map i)).map .used := by
  rw [Clean.printed_each hquiet, ← flatMap_if]
  refine List.flatMap_congr fun i hi => ?_
  obtain ⟨used, hget, -, heq⟩ :=
    (quiet_each.mp hquiet i hi).fetch_bind
  have hused := DiskfmtBitmap.eq_of_get hget
  rw [DiskfmtBitmap.toBlock_fromBlock] at hused
  rw [heq, hused]
  split
  next hmarked => rw [hmarked]; rfl
  next hmarked => rw [Bool.eq_false_iff.mpr hmarked]; rfl

theorem printed_found {nodes : List Nat} {n : Nat} :
    (each (fun i => printIf (decide (i ∈ nodes)) (.found i))
      (List.range n)).printed =
      ((List.range n).filter fun i => decide (i ∈ nodes)).map .found := by
  have hquiet : Quiet (each (fun i =>
      printIf (decide (i ∈ nodes)) (.found i)) (List.range n)) :=
    quiet_each.mpr fun i _ => quiet_printIf.mpr fun _ => rfl
  rw [Clean.printed_each hquiet, ← flatMap_if]
  refine List.flatMap_congr fun i _ => ?_
  split
  next hmem => rw [hmem]; rfl
  next hmem => rw [Bool.eq_false_iff.mpr hmem]; rfl

/-- Everything that is printed for an image without complaints. -/
theorem WellMarked.printed_readImg {limit : Nat}
    (hwell : WellMarked limit image) :
    (readImg limit image).printed = image.listing limit := by
  have hquiet := quiet_readImg.mpr hwell
  rw [readImg, if_neg (not_not.mpr hwell.odd)] at hquiet ⊢
  obtain ⟨sb, hsb, hquiet, heq⟩ := hquiet.fetch_bind
  obtain ⟨block, hblock, rfl⟩ := Option.map_eq_some_iff.mp hsb
  obtain ⟨-, rfl⟩ := ImageFile.block_eq_some.mp hblock
  obtain ⟨hmagic, hquiet, hfirst⟩ := hquiet.seq
  obtain ⟨-, hquiet, hsecond⟩ := hquiet.seq
  obtain ⟨blkmap, hmap, hquiet, hfetched⟩ := hquiet.fetch_bind
  obtain ⟨block, hblock, rfl⟩ := Option.map_eq_some_iff.mp hmap
  obtain ⟨-, rfl⟩ := ImageFile.block_eq_some.mp hblock
  obtain ⟨hmarks, hquiet, hused⟩ := hquiet.seq
  obtain ⟨inodes, hinodes, hquiet, hsilent⟩ := Clean.printed_bind hquiet
  obtain ⟨rfl, -⟩ := traverse_eq_ok (fun _ _ => iterBody_eq_ok) hinodes
  obtain ⟨-, hquiet, hfound⟩ := Quiet.seq hquiet
  obtain ⟨hwalk, -, hobjects⟩ := hquiet.seq
  have hsame : (image.disk.superblock.magic != 0x30303635) = false :=
    quiet_print.mp hmagic
  have hdisk : ¬ image.disk.superblock.diskSize.toNat ≠ image.nblks :=
    not_not.mpr hwell.diskSize
  rw [heq, hfirst, hsecond, hfetched, hused, hsilent, hfound, hobjects,
    printed_marks hmarks, printed_iter_false, printed_found,
    printed_iter hwalk]
  change [ReadLine.magic _ (image.disk.superblock.magic != 0x30303635)] ++
    ([.blocks _ (if image.disk.superblock.diskSize.toNat ≠ image.nblks
      then _ else none)] ++ _) = _
  rw [hsame, if_neg hdisk, ImageFile.listing, List.nil_append,
    List.append_assoc]
  exact congrArg _ (congrArg _ (congrArg _ (congrArg _ (List.append_nil _))))

/-! Parts of the listing. -/

theorem filterMap_entryLines {A : Type} {part : ReadLine → Option A}
    (hpart : ∀ slot name inode, part (.entry slot name inode) = none)
    (des : Directory) : (entryLines des).filterMap part = [] := by
  rw [entryLines, List.filterMap_flatMap, List.flatMap_eq_nil_iff]
  intro slot _
  split
  · rw [List.filterMap_cons_none (hpart _ _ _), List.filterMap_nil]
  · rfl

theorem ImageFile.filterMap_listing {A : Type} {part : ReadLine → Option A}
    (hmagic : ∀ magic bad, part (.magic magic bad) = none)
    (hblocks : ∀ diskSize bad, part (.blocks diskSize bad) = none)
    (hfound : ∀ i, part (.found i) = none) (limit : Nat) :
    (image.listing limit).filterMap part =
      ((List.range image.nblks).filter fun i =>
        decide (Marked (image.disk 1) i)).filterMap (part ∘ .used) ++
      (preorder image.children limit ([], 2)).flatMap fun node =>
        (image.objectLines node).filterMap part := by
  have hnone : ∀ values : List Nat,
      (values.map .found).filterMap part = [] := fun values => by
    rw [List.filterMap_map, List.filterMap_eq_nil_iff]
    exact fun i _ => hfound i
  rw [listing, List.filterMap_append, List.filterMap_append, hnone,
    List.append_nil,
    List.filterMap_cons_none (hmagic _ _),
    List.filterMap_cons_none (hblocks _ _), List.filterMap_map,
    List.filterMap_flatMap]

theorem ImageFile.objects_listing (limit : Nat) :
    (image.listing limit).filterMap ReadLine.object =
      (preorder image.children limit ([], 2)).map fun node =>
        (printedName node.1, node.2) := by
  have hnone : ∀ values : List Nat,
      values.filterMap (ReadLine.object ∘ .used) = [] := fun values =>
    List.filterMap_eq_nil_iff.mpr fun _ _ => rfl
  have hblocks : ∀ inode : FsInode,
      (image.blockLines inode).filterMap ReadLine.object = [] := by
    intro inode
    rw [blockLines, List.filterMap_flatMap, List.flatMap_eq_nil_iff]
    intro i _
    split
    · rfl
    · rw [List.filterMap_cons_none rfl]
      exact filterMap_entryLines (fun _ _ _ => rfl) _
  rw [image.filterMap_listing (fun _ _ => rfl) (fun _ _ => rfl)
    (fun _ => rfl), hnone, List.nil_append, List.map_eq_flatMap]
  exact List.flatMap_congr fun node _ =>
    congrArg (List.cons _) (hblocks (image.disk.inode node.2))

theorem ImageFile.used_listing (limit : Nat) :
    (image.listing limit).filterMap ReadLine.usedBlock =
      (List.range image.nblks).filter fun i =>
        decide (Marked (image.disk 1) i) := by
  have hnone : ∀ node : Name × Nat,
      (image.objectLines node).filterMap ReadLine.usedBlock = [] := by
    intro node
    rw [objectLines, List.filterMap_cons_none rfl, blockLines,
      List.filterMap_flatMap, List.flatMap_eq_nil_iff]
    intro i _
    split
    · rfl
    · rw [List.filterMap_cons_none rfl]
      exact filterMap_entryLines (fun _ _ _ => rfl) _
  have hnil : ∀ nodes : List (Name × Nat), (nodes.flatMap fun node =>
      (image.objectLines node).filterMap ReadLine.usedBlock) = [] :=
    fun nodes => List.flatMap_eq_nil_iff.mpr fun node _ => hnone node
  rw [image.filterMap_listing (fun _ _ => rfl) (fun _ _ => rfl)
    (fun _ => rfl), hnil, List.append_nil]
  exact List.filterMap_some

/-- The numbers of the inode and of the blocks of an object. -/
def ImageFile.numbers (image : ImageFile) (i : Nat) : List Nat :=
  i :: (List.range (image.disk.inode i).xblks).map (image.disk.inode i).ptr

theorem ImageFile.held_listing (limit : Nat) :
    (image.listing limit).filterMap ReadLine.heldBlock =
      (preorder image.children limit ([], 2)).flatMap fun node =>
        image.numbers node.2 := by
  have hnone : ∀ values : List Nat,
      values.filterMap (ReadLine.heldBlock ∘ .used) = [] := fun values =>
    List.filterMap_eq_nil_iff.mpr fun _ _ => rfl
  have hblocks : ∀ inode : FsInode,
      (image.blockLines inode).filterMap ReadLine.heldBlock =
        (List.range inode.xblks).map inode.ptr := by
    intro inode
    rw [blockLines, List.filterMap_flatMap, List.map_eq_flatMap]
    refine List.flatMap_congr fun i _ => ?_
    rw [← inode.toNat_word]
    split
    · rfl
    · exact congrArg (List.cons _)
        (filterMap_entryLines (fun _ _ _ => rfl) _)
  rw [image.filterMap_listing (fun _ _ => rfl) (fun _ _ => rfl)
    (fun _ => rfl), hnone, List.nil_append]
  exact List.flatMap_congr fun node _ =>
    congrArg (List.cons _) (hblocks (image.disk.inode node.2))

/-- What a run of the script says: it ends without a complaint exactly when
every node of its walk passes, and then its output is the listing. -/
theorem readImg_spec {limit : Nat} :
    (Quiet (readImg limit image) ↔ WellMarked limit image) ∧
      (Quiet (readImg limit image) →
        (readImg limit image).printed = image.listing limit) :=
  ⟨quiet_readImg, fun hquiet => (quiet_readImg.mp hquiet).printed_readImg⟩

end

end Fs5600
