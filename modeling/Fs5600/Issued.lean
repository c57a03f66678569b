/-
The writes that a call issues, one by one, and what a failed call leaves
behind.
-/
import Fs5600.Errors

namespace Fs5600

open MachineWord EffectProgram Program

/-- A write inside the file system of `size` blocks that spares the
superblock; one to block 1 stores the bitmap in memory. -/
def GoodWrite (size : Nat) (world : World) : Access → Prop
  | .write buf lba =>
      1 ≤ lba ∧ lba < size ∧ (lba = 1 → buf = world.globals.bitmap)
  | .read _ | .load | .store _ => True

/-- All writes that the code issues from this world on are good. -/
abbrev WritesWell {A : Type} (size : Nat) (code : Fs A) (world : World) :
    Prop := code.Issues handle (GoodWrite size) world

/-! Reading code. -/

theorem leafName_reads (argv : List Name) :
    (leafName argv).Only Access.Reads := by
  rw [leafName]
  split
  · exact only_pure _
  · exact trivial

theorem findFreeDirEntry_reads (dirBlock : Directory) (startIdx : Nat) :
    (findFreeDirEntry dirBlock startIdx).Only Access.Reads := by
  rw [findFreeDirEntry]
  split
  · exact only_pure _
  · exact trivial

theorem findIndexInDir_reads (filename : Name) (dirBlock : Directory) :
    (findIndexInDir filename dirBlock).Only Access.Reads := by
  rw [findIndexInDir]
  split
  · exact only_pure _
  · exact trivial

theorem validateDirectoryAndEntry_reads (path : CString)
    (dirInode : FsInode) :
    (validateDirectoryAndEntry path dirInode).Only Access.Reads := by
  refine (Only.rejectIf _ _).bind fun _ => ?_
  refine (readDirectory_reads _).bind fun dirBlock => ?_
  refine (leafName_reads _).bind fun filename => ?_
  exact (Only.rejectIf _ _).bind fun _ => only_pure _

theorem fileDir_reads (filePath : CString) :
    (fileDir filePath).Only Access.Reads := by
  refine (pathToInode_reads filePath 1).bind fun there => ?_
  refine (Only.rejectIf _ _).bind fun _ => ?_
  refine (readDirectory_reads _).bind fun dir => ?_
  exact (leafName_reads _).bind fun filename => only_pure _

theorem checkDirEmpty_reads (path : CString) :
    (checkDirEmpty path).Only Access.Reads := by
  refine (pathToInode_reads path 0).bind fun there => ?_
  refine (Only.rejectIf _ _).bind fun _ => ?_
  refine (readDirectory_reads _).bind fun dirBlock => ?_
  refine (findFreeDirEntry_reads _ _).bind fun freeDirEntry => ?_
  exact (Only.rejectIf _ _).bind fun _ => only_pure _

theorem loadGlobals_reads : loadGlobals.Only Access.Reads :=
  ⟨trivial, fun _ => trivial⟩

theorem findFreeLoop_reads (map : Block) (blocks : List Nat) (n : Nat) :
    (findFreeLoop map blocks n).Only Access.Reads := by
  induction blocks generalizing n with
  | nil => cases n <;> exact trivial
  | cons blkIdx rest ih =>
      cases n with
      | zero => exact trivial
      | succ n =>
          refine (Only.require _).bind fun _ => ?_
          split
          · exact (ih n).bind fun _ => only_pure _
          · exact ih (n + 1)

theorem findFirstNfreeBlocks_reads (startIdx n : Nat) :
    (findFirstNfreeBlocks startIdx n).Only Access.Reads :=
  loadGlobals_reads.bind fun _ => findFreeLoop_reads _ _ _

theorem copyPtrs_reads (inode : FsInode) (count : Nat) (blkIdx : Int) :
    (copyPtrs inode count blkIdx).Only Access.Reads := by
  induction count generalizing blkIdx with
  | zero => exact only_pure _
  | succ count ih =>
      refine (ptrAt_reads inode blkIdx).bind fun ptr => ?_
      exact (ih (blkIdx + 1)).bind fun _ => only_pure _

theorem storePtrs_reads (inode : FsInode) (blocks : List Nat)
    (blkIdx : Int) : (storePtrs inode blocks blkIdx).Only Access.Reads := by
  induction blocks generalizing inode blkIdx with
  | nil => exact only_pure _
  | cons block blocks ih =>
      rw [storePtrs]
      split
      · exact ih _ _
      · exact trivial

theorem copyIn_reads (dst : List UInt8) (off : Int) (src : List UInt8) :
    (copyIn dst off src).Only Access.Reads :=
  (Only.require _).bind fun _ => only_pure _

theorem copyBlockIn_reads (finode : FsInode) (pIdx : Int)
    (blkBuf : List UInt8) (off : Int) :
    (copyBlockIn finode pIdx blkBuf off).Only Access.Reads := by
  refine (ptrAt_reads finode pIdx).bind fun ptr => ?_
  refine (blockRead_reads _).bind fun blk => ?_
  exact copyIn_reads _ _ _

theorem mergeBuffer_reads (finode : FsInode) (buf : List UInt8)
    (writeStartBlock writeStartOffset writeEndBlock writeBlockCount
      fileSizeInBlocks : Int) :
    (mergeBuffer finode buf writeStartBlock writeStartOffset writeEndBlock
      writeBlockCount fileSizeInBlocks).Only Access.Reads := by
  have hblock : ∀ (test : Prop) [Decidable test] (pIdx : Int)
      (blkBuf : List UInt8) (off : Int),
      (if test then copyBlockIn finode pIdx blkBuf off
        else pure blkBuf : Fs (List UInt8)).Only Access.Reads := by
    intro test _ pIdx blkBuf off
    split
    · exact copyBlockIn_reads _ _ _ _
    · exact only_pure _
  refine (hblock _ _ _ _).bind fun blkBuf => ?_
  refine (hblock _ _ _ _).bind fun blkBuf => ?_
  exact copyIn_reads _ _ _

/-! Good writes. -/

section

variable {A B : Type} {size : Nat} {world : World}

theorem WritesWell.of_reads {code : Fs A} (honly : code.Only Access.Reads)
    (world : World) : WritesWell size code world := by
  refine Issues.of_only (fun _ query hallowed => ?_) honly world
  cases query with
  | write buf lba => cases hallowed
  | read | load | store => exact trivial

/-- A sequence whose second part writes well whatever the first left. -/
theorem WritesWell.bind {code : Fs A} {next : A → Fs B}
    (hcode : WritesWell size code world)
    (hnext : ∀ value world', WritesWell size (next value) world') :
    WritesWell size (code >>= next) world :=
  Issues.bind hcode fun value world' _ => hnext value world'

theorem WritesWell.write (buf : Block) {lba : Int} (hlow : 2 ≤ lba)
    (hlt : lba < size) (world : World) :
    WritesWell size (blockWrite buf lba) world := by
  intro entry hmem
  obtain rfl := eq_of_issued_blockWrite hmem
  exact ⟨by omega, hlt, by omega⟩

theorem WritesWell.modify (change : Globals → Globals) (world : World) :
    WritesWell size (modifyGlobals change) world := by
  refine Issues.of_only (fun _ query hallowed => ?_)
    (modifyGlobals_inMemory change) world
  cases query with
  | write buf lba => cases hallowed
  | read | load | store => exact trivial

/-- The one write to block 1. -/
theorem WritesWell.modifyBitmap (blocks : List Int) (setFlag : Bool)
    (hsize : 1 < size) (world : World) :
    WritesWell size (modifyBitmapAndWritebackToDisk blocks setFlag)
      world := by
  refine WritesWell.bind (.of_reads (Only.require _) _) fun _ world => ?_
  refine WritesWell.bind (.modify _ _) fun _ world => ?_
  refine Issues.bind (WritesWell.of_reads loadGlobals_reads _) ?_
  rintro globals world' hload entry hmem
  cases hload
  obtain rfl := eq_of_issued_blockWrite hmem
  exact ⟨le_rfl, by omega, fun _ => rfl⟩

end

/-! The calls. -/

section

variable {A B : Type} {size : Nat} {world : World} (hmount : Mounted world)

include hmount

/-- Reading leaves a mounted world as it is. -/
theorem Mounted.writesWell_bind {code : Fs A} {next : A → Fs B}
    (honly : code.Only Access.Reads)
    (hnext : ∀ value, run code world = some (.ok value, world) →
      WritesWell size (next value) world) :
    WritesWell size (code >>= next) world := by
  refine Issues.bind (.of_only ?_ honly world) fun value world' hrun => ?_
  · exact fun _ query hallowed => by cases query <;> trivial
  · obtain rfl : world' = world := run_reads honly hmount.reads hrun
    exact hnext value hrun

/-- `path_to_inode` finds objects of the graph. -/
theorem Mounted.node_of_run {path : CString} {depth : Nat}
    {there : Int × FsInode} {world' : World}
    (hrun : run (pathToInode path depth) world = some (.ok there, world')) :
    ∃ site names i, world.disk.node site = some (names, i) ∧
      there = ((i : Int), world.disk.inode i) := by
  rw [hmount.run_pathToInode] at hrun
  cases hresolve : world.disk.resolve
      ((parse path).take ((parse path).length - depth)) with
  | error status =>
      rw [hresolve] at hrun
      cases hrun
  | ok here =>
      rw [hresolve] at hrun
      cases hrun
      exact ⟨here.1, _, here.2, Disk.node_of_resolve hresolve, rfl⟩

theorem Mounted.one_lt : 1 < world.disk.diskSize :=
  Nat.lt_trans Nat.one_lt_two hmount.two_lt

variable {site : List Slot} {names : List Name} {i : Nat}

theorem Mounted.writesWell_inode
    (hnode : world.disk.node site = some (names, i)) (buf : Block)
    (world' : World) :
    WritesWell world.disk.diskSize (blockWrite buf i) world' := by
  have hrange := hmount.consistent.inode_range hnode
  exact .write buf (by omega) (by omega) world'

theorem Mounted.writesWell_entries
    (hnode : world.disk.node site = some (names, i))
    (hdir : (world.disk.inode i).isDir = true) (buf : Block)
    (world' : World) :
    WritesWell world.disk.diskSize
      (blockWrite buf (wordToInt ((world.disk.inode i).ptrs 0))) world' := by
  have hrange := hmount.consistent.entries_range hnode hdir
  have hle := hmount.consistent.size_le
  rw [wordToInt_ptrs_zero _ (by omega)]
  exact .write buf (by omega) (by omega) world'

omit hmount in
theorem isDir_of_validate {path : CString} {dirInode : FsInode}
    {dirBlock : Directory} {world' : World}
    (hrun : run (validateDirectoryAndEntry path dirInode) world =
      some (.ok dirBlock, world')) : dirInode.isDir = true := by
  rw [validateDirectoryAndEntry, run_rejectIf_bind] at hrun
  split at hrun
  next => cases hrun
  next hdir => exact not_not.mp hdir

theorem Mounted.writesWell_writeNewEntry (ctx : Context) (path : CString)
    (mode : UInt32) (dirflag : Bool) (dirBlock : Directory)
    (hnode : world.disk.node site = some (names, i))
    (hdir : (world.disk.inode i).isDir = true) (slot : Slot)
    {blocks : List Nat}
    (hfree : lowestFree world.globals.bitmap world.disk.diskSize
      (if dirflag then 2 else 1) = some blocks) :
    WritesWell world.disk.diskSize (writeNewEntry ctx path mode dirflag
      dirBlock (wordToInt ((world.disk.inode i).ptrs 0)) slot blocks)
      world := by
  have husable := hmount.usable_of_lowestFree hfree
  have hlength := (lowestFree_eq_some hfree).1
  have hget : ∀ n, n < blocks.length → ∀ (buf : Block) world',
      WritesWell world.disk.diskSize
        (blockWrite buf ((blocks.getD n 0 : Nat) : Int)) world' := by
    intro n hn buf world'
    rw [List.getD_eq_getElem _ _ hn]
    have hrange := husable _ (List.getElem_mem hn)
    exact .write buf (by omega) (by omega) world'
  have hpos : 0 < blocks.length := by
    rw [hlength]
    split <;> omega
  refine (hget 0 hpos _ _).bind fun _ world₁ => ?_
  refine .bind (.of_reads (leafName_reads _) _) fun _ world₂ => ?_
  refine (hmount.writesWell_entries hnode hdir _ _).bind fun _ world₃ => ?_
  have hmark : ∀ world', WritesWell world.disk.diskSize (do
      modifyGlobals (Globals.addFree (if dirflag then -2 else -1))
      modifyBitmapAndWritebackToDisk (blocks.map Int.ofNat) true)
      world' := fun world' =>
    (WritesWell.modify _ _).bind fun _ _ =>
      .modifyBitmap _ _ hmount.one_lt _
  cases dirflag with
  | false => exact hmark _
  | true => exact (hget 1 (by simp [hlength]) _ _).bind fun _ _ => hmark _

theorem Mounted.writesWell_create (ctx : Context) (path : CString)
    (mode : UInt32) (dirflag : Bool) :
    WritesWell world.disk.diskSize
      (createDirectoryEntry ctx path mode dirflag) world := by
  refine hmount.writesWell_bind (pathToInode_reads path 1)
    fun there hfound => ?_
  obtain ⟨site, names, i, hnode, rfl⟩ := hmount.node_of_run hfound
  refine hmount.writesWell_bind (validateDirectoryAndEntry_reads path _)
    fun dirBlock hvalid => ?_
  have hdir := isDir_of_validate hvalid
  refine hmount.writesWell_bind (findFreeDirEntry_reads dirBlock 0)
    fun slot _ => ?_
  refine hmount.writesWell_bind (findFirstNfreeBlocks_reads 0 _)
    fun blocks hblocks => ?_
  have hfree : lowestFree world.globals.bitmap world.disk.diskSize
      (if dirflag then 2 else 1) = some blocks := by
    rw [hmount.run_findFirstNfreeBlocks] at hblocks
    split at hblocks
    next => cases hblocks
    next hsome =>
      cases hblocks
      exact hsome
  exact (hmount.writesWell_writeNewEntry ctx path mode dirflag dirBlock hnode
    hdir slot hfree).bind fun _ _ => Issues.pure 0

/-- What `path_to_inode` finds one level up from an object is a directory. -/
theorem Mounted.parent_of_run {path : CString} (hne : parse path ≠ [])
    {there : List Slot × Nat}
    (hresolve : world.disk.resolve (parse path) = .ok there)
    {parent : Int × FsInode}
    (hrun : run (pathToInode path 1) world = some (.ok parent, world)) :
    ∃ site names i, world.disk.node site = some (names, i) ∧
      parent = ((i : Int), world.disk.inode i) ∧
      (world.disk.inode i).isDir = true := by
  obtain ⟨site, i, slot, hparent, hdir, -⟩ :=
    Disk.resolve_parent hne hresolve
  rw [hmount.run_parent hparent] at hrun
  cases hrun
  exact ⟨site, _, i, Disk.node_of_resolve hparent, rfl, hdir⟩

theorem Mounted.writesWell_unlinkDirectoryEntry {path : CString}
    (hne : parse path ≠ []) {there : List Slot × Nat}
    (hresolve : world.disk.resolve (parse path) = .ok there) :
    WritesWell world.disk.diskSize (unlinkDirectoryEntry path) world := by
  refine hmount.writesWell_bind (pathToInode_reads path 1)
    fun parent hfound => ?_
  obtain ⟨site, names, i, hnode, rfl, hdir⟩ :=
    hmount.parent_of_run hne hresolve hfound
  refine hmount.writesWell_bind (readDirectory_reads _) fun dirBlock _ => ?_
  refine hmount.writesWell_bind (leafName_reads _) fun entryname _ => ?_
  refine hmount.writesWell_bind (findIndexInDir_reads _ _) fun slot _ => ?_
  exact hmount.writesWell_entries hnode hdir _ world

theorem Mounted.writesWell_unlink {path : CString}
    (hne : parse path ≠ []) :
    WritesWell world.disk.diskSize (fsUnlink path) world := by
  refine hmount.writesWell_bind (pathToInode_reads path 0)
    fun there hfound => ?_
  obtain ⟨target, inum, hresolve, -⟩ := hmount.resolve_of_run hfound
  refine hmount.writesWell_bind (Only.require _) fun _ _ => ?_
  refine hmount.writesWell_bind (copyPtrs_reads _ _ _) fun _ _ => ?_
  refine (hmount.writesWell_unlinkDirectoryEntry hne hresolve).bind
    fun _ _ => ?_
  refine (WritesWell.modifyBitmap _ _ hmount.one_lt _).bind fun _ _ => ?_
  exact (WritesWell.modify _ _).bind fun _ _ => Issues.pure 0

theorem Mounted.writesWell_rmdir {path : CString} (hne : parse path ≠ []) :
    WritesWell world.disk.diskSize (fsRmdir path) world := by
  refine hmount.writesWell_bind (checkDirEmpty_reads path)
    fun there hfound => ?_
  rw [checkDirEmpty] at hfound
  obtain ⟨target, _, htarget, -⟩ := exec_bind_eq_ok.mp hfound
  obtain ⟨_, _, hresolve, -⟩ := hmount.resolve_of_run htarget
  refine (hmount.writesWell_unlinkDirectoryEntry hne hresolve).bind
    fun _ _ => ?_
  refine (WritesWell.modifyBitmap _ _ hmount.one_lt _).bind fun _ _ => ?_
  exact (WritesWell.modify _ _).bind fun _ _ => Issues.pure 0

/-- The block that `file_dir` returns is that of a directory. -/
theorem Mounted.fileDir_of_run {path : CString} {lba : Int}
    {dir : Directory} {entry : Option (Fin 128)} {world' : World}
    (hrun : run (fileDir path) world =
      some (.ok (lba, dir, entry), world')) :
    ∃ site names i, world.disk.node site = some (names, i) ∧
      (world.disk.inode i).isDir = true ∧
      lba = wordToInt ((world.disk.inode i).ptrs 0) := by
  rw [fileDir] at hrun
  obtain ⟨parent, _, hparent, hrun⟩ := exec_bind_eq_ok.mp hrun
  obtain ⟨site, names, i, hnode, rfl⟩ := hmount.node_of_run hparent
  obtain ⟨_, _, hcheck, hrun⟩ := exec_bind_eq_ok.mp hrun
  obtain ⟨_, _, -, hrun⟩ := exec_bind_eq_ok.mp hrun
  obtain ⟨filename, _, -, hrun⟩ := exec_bind_eq_ok.mp hrun
  rw [exec_pure, Option.some.injEq, Prod.mk.injEq, Except.ok.injEq,
    Prod.mk.injEq] at hrun
  refine ⟨site, names, i, hnode, ?_, hrun.1.1.symm⟩
  by_contra hnot
  rw [rejectIf, if_pos hnot] at hcheck
  cases hcheck

theorem Mounted.writesWell_renameEntry (srcPath : CString)
    (dargv : List Name) :
    WritesWell world.disk.diskSize (renameEntry srcPath dargv) world := by
  refine hmount.writesWell_bind (fileDir_reads srcPath)
    fun there hfound => ?_
  obtain ⟨lba, dir, entry⟩ := there
  obtain ⟨site, names, i, hnode, hdir, hlba⟩ :=
    hmount.fileDir_of_run hfound
  refine WritesWell.bind (.of_reads (Only.rejectIf _ _) _) fun _ world' => ?_
  cases entry with
  | none => exact fun _ hmem => absurd hmem List.not_mem_nil
  | some entryIdx =>
      refine WritesWell.bind (.of_reads (leafName_reads dargv) _)
        fun name world'' => ?_
      rw [hlba]
      exact (hmount.writesWell_entries hnode hdir _ _).bind fun _ _ =>
        Issues.pure 0

theorem Mounted.writesWell_rename (srcPath dstPath : CString) :
    WritesWell world.disk.diskSize (fsRename srcPath dstPath) world := by
  rw [fsRename_eq]
  refine hmount.writesWell_bind (pathToInode_reads srcPath 0) fun _ _ => ?_
  refine hmount.writesWell_bind (pathToInode_reads dstPath 0).attempt
    fun _ _ => ?_
  refine hmount.writesWell_bind (Only.rejectIf _ _) fun _ _ => ?_
  refine hmount.writesWell_bind (Only.rejectIf _ _) fun _ _ => ?_
  refine hmount.writesWell_bind (Only.rejectIf _ _) fun _ _ => ?_
  exact hmount.writesWell_renameEntry srcPath _

theorem Mounted.writesWell_chmod (path : CString) (mode : UInt32) :
    WritesWell world.disk.diskSize (fsChmod path mode) world := by
  refine hmount.writesWell_bind (pathToInode_reads path 0)
    fun there hfound => ?_
  obtain ⟨site, names, i, hnode, rfl⟩ := hmount.node_of_run hfound
  exact (hmount.writesWell_inode hnode _ _).bind fun _ _ => Issues.pure 0

theorem Mounted.writesWell_utime (path : CString) (modtime : Int) :
    WritesWell world.disk.diskSize (fsUtime path modtime) world := by
  refine hmount.writesWell_bind (pathToInode_reads path 0)
    fun there hfound => ?_
  obtain ⟨site, names, i, hnode, rfl⟩ := hmount.node_of_run hfound
  refine hmount.writesWell_bind (Only.rejectIf _ _) fun _ _ => ?_
  exact (hmount.writesWell_inode hnode _ _).bind fun _ _ => Issues.pure 0

theorem Mounted.writesWell_truncate (path : CString) (len : Int) :
    WritesWell world.disk.diskSize (fsTruncate path len) world := by
  rw [fsTruncate]
  refine hmount.writesWell_bind (Only.rejectIf _ _) fun _ _ => ?_
  refine hmount.writesWell_bind (pathToInode_reads path 0)
    fun there hfound => ?_
  obtain ⟨site, names, i, hnode, rfl⟩ := hmount.node_of_run hfound
  refine hmount.writesWell_bind (Only.rejectIf _ _) fun _ _ => ?_
  refine hmount.writesWell_bind (Only.rejectIf _ _) fun _ _ => ?_
  refine hmount.writesWell_bind (copyPtrs_reads _ _ _) fun _ _ => ?_
  refine (hmount.writesWell_inode hnode _ _).bind fun _ _ => ?_
  refine (WritesWell.modifyBitmap _ _ hmount.one_lt _).bind fun _ _ => ?_
  exact (WritesWell.modify _ _).bind fun _ _ => Issues.pure 0

omit hmount in
/-- The loop over blocks of a file. -/
theorem writesWell_writeBlocks {size : Nat} (inode : FsInode)
    (blkBuf : List UInt8) (count pIdx blkIdx : Nat)
    (hptr : ∀ k, pIdx ≤ k → k < pIdx + count →
      2 ≤ inode.ptr k ∧ inode.ptr k < size ∧ inode.ptr k < 32768)
    (world : World) :
    WritesWell size (writeBlocks inode blkBuf count pIdx blkIdx) world := by
  induction count generalizing pIdx blkIdx world with
  | zero => exact Issues.pure ()
  | succ count ih =>
      refine Issues.bind (WritesWell.of_reads (ptrAt_reads _ _) _)
        fun ptr world' hptrAt => ?_
      have hword : wordToInt ptr = inode.ptr pIdx := by
        by_cases hlt : pIdx < 1019
        · cases (run_ptrAt inode hlt world).symm.trans hptrAt
          exact wordToInt_ptrs inode ⟨pIdx, hlt⟩
            (hptr pIdx le_rfl (by omega)).2.2
        · rw [ptrAt, dif_neg (by omega)] at hptrAt
          cases hptrAt
      have hrange := hptr pIdx le_rfl (by omega)
      refine WritesWell.bind (.of_reads (Only.require _) _)
        fun _ world'' => ?_
      rw [hword]
      refine (WritesWell.write _ (by omega) (by omega) _).bind
        fun _ world''' => ?_
      exact ih (pIdx + 1) (blkIdx + 1)
        (fun k hlow hhigh => hptr k (by omega) (by omega)) world'''

theorem Mounted.writesWell_reserveBlocks (inode : FsInode)
    (fileSizeInBlocks blksNeeded : Int) :
    WritesWell world.disk.diskSize
      (reserveBlocks inode fileSizeInBlocks blksNeeded) world := by
  rw [reserveBlocks]
  split
  · refine hmount.writesWell_bind (findFirstNfreeBlocks_reads 0 _)
      fun blocks _ => ?_
    refine (WritesWell.modifyBitmap _ _ hmount.one_lt _).bind fun _ _ => ?_
    exact .of_reads (storePtrs_reads _ _ _) _
  · exact Issues.pure inode

/-- A reservation that succeeds yields the file with fresh blocks behind its
own. -/
theorem Mounted.reserveBlocks_of_run {inode inode' : FsInode}
    {count total : Nat} (hcount : count ≤ 1019) (htotal : total ≤ 1019)
    {world' : World}
    (hrun : run (reserveBlocks inode count ((total : Int) - count)) world =
      some (.ok inode', world')) :
    ∃ fresh, lowestFree world.globals.bitmap world.disk.diskSize
        (total - count) = some fresh ∧
      inode' = inode.placePtrs fresh count := by
  cases hfree : lowestFree world.globals.bitmap world.disk.diskSize
      (total - count) with
  | none =>
      rw [hmount.run_reserveBlocks_fail inode hfree] at hrun
      cases hrun
  | some fresh =>
      have hperforms := hmount.performs_reserveBlocks inode hcount htotal
        hfree
      rw [hperforms] at hrun
      refine ⟨fresh, rfl, ?_⟩
      cases hcommit : commit (if fresh = [] then []
          else markEffects (bitSetAll world.globals.bitmap fresh)) world with
      | mk status world'' =>
          rw [hcommit] at hrun
          cases status with
          | error status => cases hrun
          | ok done =>
              cases hrun
              rfl

theorem Mounted.writesWell_write (ctx : Context) (path : CString)
    {buf : List UInt8} (hbuf : 1 ≤ buf.length) {offset : Int}
    (hpos : 0 ≤ offset) (hend : offset + buf.length ≤ 4173824) :
    WritesWell world.disk.diskSize (fsWrite ctx path buf offset) world := by
  obtain ⟨o, rfl⟩ := Int.eq_ofNat_of_zero_le hpos
  refine hmount.writesWell_bind (pathToInode_reads path 0)
    fun there hfound => ?_
  obtain ⟨site, names, i, hnode, rfl⟩ := hmount.node_of_run hfound
  have hobject := hmount.consistent.object _ _ _ hnode
  have hcount := hobject.blockCount_le
  have hstop := blockCount_eq_succ o hbuf
  have hmax : blockCount (o + buf.length) ≤ 1019 := by omega
  have hlt : o + buf.length < 2147483648 := by omega
  obtain ⟨hstart, hoff, hlast⟩ := writeRange_eq o hbuf hlt
  have hneeded := blksNeeded_eq o hbuf hlt hcount
  refine hmount.writesWell_bind (Only.rejectIf _ _) fun _ _ => ?_
  rw [hobject.size_eq]
  refine hmount.writesWell_bind (Only.rejectIf _ _) fun _ _ => ?_
  simp only [sizeInBlocks_natCast, hstart, hoff, hlast, hneeded]
  refine Issues.bind (hmount.writesWell_reserveBlocks _ _ _)
    fun finode world' hreserve => ?_
  obtain ⟨fresh, hfree, rfl⟩ :=
    hmount.reserveBlocks_of_run hcount hmax hreserve
  rw [extend_eq _ _ (hobject.length_le.trans_lt (by decide)) hlt]
  refine (hmount.writesWell_inode hnode _ _).bind fun _ world' => ?_
  refine WritesWell.bind (.of_reads (Only.rejectIf _ _) _)
    fun _ world' => ?_
  refine WritesWell.bind (.of_reads (mergeBuffer_reads _ _ _ _ _ _ _) _)
    fun blkBuf world' => ?_
  refine WritesWell.bind ?_ fun _ world' =>
    (WritesWell.modify _ _).bind fun _ _ => Issues.pure _
  refine writesWell_writeBlocks _ _ _ _ _ (fun k _ hk => ?_) _
  obtain ⟨hlow, hhigh⟩ := hmount.extend_ptr_range hmax hfree
    (wordOfInt (ctx.time 0)) (show k < blockCount (o + buf.length) by omega)
    hnode
  exact ⟨hlow, hhigh, hhigh.trans_le hmount.consistent.size_le⟩

end

/-- Every write that a mutating call issues lies inside the file system and
spares the superblock, and a write to block 1 stores the bitmap in memory. -/
theorem issued_writes_good {world : World} (hreach : Reachable world)
    {request : Request} (hmut : request.call.Mutates)
    (hrange : request.call.InRange) :
    WritesWell world.disk.diskSize request.perform world := by
  have hmount := hreach.steady.toMounted
  have hlift : ∀ {code : Fs Int},
      WritesWell world.disk.diskSize code world →
      WritesWell world.disk.diskSize
        (do pure (.code (← code)) : Fs Reply) world :=
    fun hcode => hcode.bind fun _ _ => Issues.pure _
  obtain ⟨ctx, call⟩ := request
  cases call with
  | create path mode => exact hlift (hmount.writesWell_create ctx path mode _)
  | mkdir path mode => exact hlift (hmount.writesWell_create ctx path mode _)
  | unlink path =>
      exact hlift (hmount.writesWell_unlink (parse_ne_nil hrange))
  | rmdir path =>
      exact hlift (hmount.writesWell_rmdir (parse_ne_nil hrange))
  | rename srcPath dstPath =>
      exact hlift (hmount.writesWell_rename srcPath dstPath)
  | chmod path mode => exact hlift (hmount.writesWell_chmod path mode)
  | utime path modtime => exact hlift (hmount.writesWell_utime path modtime)
  | truncate path len => exact hlift (hmount.writesWell_truncate path len)
  | write path buf offset =>
      exact hlift (hmount.writesWell_write ctx path hrange.1 hrange.2.1
        hrange.2.2)
  | init | getattr | readdir | read | statfs => cases hmut

theorem issued_writes_good_sample :
    WritesWell (Sample.world 64 zeroBlock).boot.disk.diskSize
      (Sample.request (.write Sample.pathA [1, 2, 3] 4999)).perform
      (Sample.world 64 zeroBlock).boot :=
  issued_writes_good (Sample.reachable 64 zeroBlock (by decide) (by decide))
    trivial ⟨by decide, by decide, by decide⟩

/-! Failed calls. -/

/-- A mutating call that returns an error leaves every block, the bitmap and
the counters as they were. -/
theorem failed_call_unchanged {world world' : World}
    (hreach : Reachable world) {request : Request}
    (hmut : request.call.Mutates) (hrange : request.call.InRange)
    {reply : Except Int Reply}
    (hrun : run request.perform world = some (reply, world'))
    (hfailed : Alarms reply) : world' = world := by
  rw [hreach.steady.run_inRange hmut hrange] at hrun
  cases hplan : request.plan world with
  | error status =>
      rw [hplan] at hrun
      cases hrun
      rfl
  | ok change =>
      rw [hplan] at hrun
      cases hrun
      have hneg : change.result < 0 := hfailed
      have hpos : 0 ≤ change.result := by
        cases change <;> simp [Change.result]
      omega

/-- Creating below a file fails. -/
theorem failed_call_unchanged_sample :
    ∃ world', run (Sample.request (.mkdir ⟨[47, 97, 47, 99], by decide⟩
        0)).perform (Sample.world 64 zeroBlock).boot =
          some (.error (-eNotDir), world') ∧
      world' = (Sample.world 64 zeroBlock).boot := by
  have hreach := Sample.reachable 64 zeroBlock (by decide) (by decide)
  have hreply : (run (Sample.request (.mkdir ⟨[47, 97, 47, 99], by decide⟩
      0)).perform (Sample.world 64 zeroBlock).boot).map Prod.fst =
        some (.error (-eNotDir)) := by
    decide +kernel
  obtain ⟨⟨reply, world'⟩, hrun, rfl⟩ := Option.map_eq_some_iff.mp hreply
  refine ⟨world', hrun, failed_call_unchanged hreach ?_ ?_ hrun ?_⟩
  · exact trivial
  · exact (show components _ ≠ [] by decide)
  · exact (show (-eNotDir : Int) < 0 by decide)

end Fs5600
