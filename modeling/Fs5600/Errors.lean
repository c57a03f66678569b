/-
Device errors: which calls report every block access that fails, and what the
three others make of it.
-/
import Fs5600.Lib.QueryTrace
import Fs5600.SampleImage

namespace Fs5600

open MachineWord EffectProgram Program

/-- A `block_read` or `block_write` that returns `-EIO`. -/
def AccessFails (world : World) : Access → Prop
  | .read lba => (world.device.blockRead lba).1 = none
  | .write buf lba =>
      ∃ device, world.device.blockWrite buf lba = some (false, device)
  | .load | .store _ => False

/-- Code that leaves with a negative status whenever an access fails. -/
abbrev ReportsErrors {A : Type} (code : Fs A) : Prop :=
  code.Reports handle AccessFails fun status => status < 0

/-- The world after a `block_read` has been issued. -/
def World.afterRead (world : World) (lba : Int) : World :=
  { world with device := (world.device.blockRead lba).2 }

theorem run_blockRead_eq (lba : Int) (world : World) :
    run (blockRead lba) world =
      some (match (world.device.blockRead lba).1 with
        | some block => .ok block
        | none => .error (-eIo), world.afterRead lba) := by
  simp only [run, blockRead, exec, handle, World.afterRead]
  cases (world.device.blockRead lba).1 <;> rfl

theorem issued_blockRead (lba : Int) (world : World) :
    (blockRead lba).issued handle world = [(world, .read lba)] := by
  simp only [blockRead, issued, handle]
  cases (world.device.blockRead lba).1 <;> rfl

theorem blockRead_reports (lba : Int) : ReportsErrors (blockRead lba) := by
  rintro world ⟨entry, hmem, hfails⟩
  rw [issued_blockRead, List.mem_singleton] at hmem
  subst hmem
  refine ⟨-eIo, world.afterRead lba, ?_, by decide⟩
  have hrun := run_blockRead_eq lba world
  rw [show (world.device.blockRead lba).1 = none from hfails] at hrun
  exact hrun

/-- The one access of a `block_write`. -/
theorem eq_of_issued_blockWrite {buf : Block} {lba : Int} {world : World}
    {entry : World × Access}
    (hmem : entry ∈ (blockWrite buf lba).issued handle world) :
    entry = (world, .write buf lba) := by
  simp only [blockWrite, issued, List.mem_cons] at hmem
  rcases hmem with hmem | hmem
  · exact hmem
  · split at hmem
    next => cases hmem
    next reply _ _ => cases reply <;> cases hmem

theorem blockWrite_reports (buf : Block) (lba : Int) :
    ReportsErrors (blockWrite buf lba) := by
  rintro world ⟨entry, hmem, hfails⟩
  obtain rfl := eq_of_issued_blockWrite hmem
  obtain ⟨device, hdevice⟩ := hfails
  refine ⟨-eIo, { world with device := device }, ?_, by decide⟩
  simp only [blockWrite, exec, handle, hdevice]
  rfl

/-- The queries that stay in memory. -/
def Access.InMemory : Access → Prop
  | .load | .store _ => True
  | .read _ | .write _ _ => False

theorem reports_of_inMemory {A : Type} {code : Fs A}
    (honly : code.Only Access.InMemory) : ReportsErrors code := by
  refine Reports.of_only (fun world query hallowed hfails => ?_) honly
  cases query with
  | load => exact hfails
  | store globals => exact hfails
  | read lba => exact hallowed
  | write buf lba => exact hallowed

theorem loadGlobals_inMemory : loadGlobals.Only Access.InMemory :=
  ⟨trivial, fun _ => trivial⟩

theorem modifyGlobals_inMemory (change : Globals → Globals) :
    (modifyGlobals change).Only Access.InMemory :=
  ⟨trivial, fun _ => ⟨trivial, fun _ => trivial⟩⟩

theorem loadGlobals_reports : ReportsErrors loadGlobals :=
  reports_of_inMemory loadGlobals_inMemory

theorem modifyGlobals_reports (change : Globals → Globals) :
    ReportsErrors (modifyGlobals change) :=
  reports_of_inMemory (modifyGlobals_inMemory change)

/-! Lookup. -/

theorem readInode_reports (lba : Int) : ReportsErrors (readInode lba) :=
  (blockRead_reports lba).bind fun _ => Reports.pure _

theorem readDirectory_reports (lba : Int) :
    ReportsErrors (readDirectory lba) :=
  (blockRead_reports lba).bind fun _ => Reports.pure _

theorem translateLoop_reports (tokens : List Name) (inodeIndex : Int) :
    ReportsErrors (translateLoop inodeIndex tokens) := by
  induction tokens generalizing inodeIndex with
  | nil => exact Reports.pure _
  | cons token tokens ih =>
      refine (readInode_reports _).bind fun curInode => ?_
      refine (Reports.rejectIf _ _).bind fun _ => ?_
      refine (readDirectory_reports _).bind fun curDir => ?_
      exact (Reports.rejectIf _ _).bind fun _ => ih _

theorem pathToInode_reports (path : CString) (depth : Nat) :
    ReportsErrors (pathToInode path depth) := by
  refine (translateLoop_reports _ _).bind fun inum => ?_
  exact (readInode_reports _).bind fun _ => Reports.pure _

theorem leafName_reports (argv : List Name) :
    ReportsErrors (leafName argv) := by
  rw [leafName]
  split
  · exact Reports.pure _
  · exact Reports.undefined

theorem findFreeDirEntry_reports (dirBlock : Directory) (startIdx : Nat) :
    ReportsErrors (findFreeDirEntry dirBlock startIdx) := by
  rw [findFreeDirEntry]
  split
  · exact Reports.pure _
  · exact Reports.exit _

theorem findIndexInDir_reports (filename : Name) (dirBlock : Directory) :
    ReportsErrors (findIndexInDir filename dirBlock) := by
  rw [findIndexInDir]
  split
  · exact Reports.pure _
  · exact Reports.exit _

theorem validateDirectoryAndEntry_reports (path : CString)
    (dirInode : FsInode) :
    ReportsErrors (validateDirectoryAndEntry path dirInode) := by
  refine (Reports.rejectIf _ _).bind fun _ => ?_
  refine (readDirectory_reports _).bind fun dirBlock => ?_
  refine (leafName_reports _).bind fun filename => ?_
  exact (Reports.rejectIf _ _).bind fun _ => Reports.pure _

theorem fileDir_reports (filePath : CString) :
    ReportsErrors (fileDir filePath) := by
  refine (pathToInode_reports filePath 1).bind fun there => ?_
  refine (Reports.rejectIf _ _).bind fun _ => ?_
  refine (readDirectory_reports _).bind fun dir => ?_
  exact (leafName_reports _).bind fun filename => Reports.pure _

theorem checkDirEmpty_reports (path : CString) :
    ReportsErrors (checkDirEmpty path) := by
  refine (pathToInode_reports path 0).bind fun there => ?_
  refine (Reports.rejectIf _ _).bind fun _ => ?_
  refine (readDirectory_reports _).bind fun dirBlock => ?_
  refine (findFreeDirEntry_reports _ _).bind fun freeDirEntry => ?_
  exact (Reports.rejectIf _ _).bind fun _ => Reports.pure _

/-! Allocation. -/

theorem findFreeLoop_reports (map : Block) (blocks : List Nat) (n : Nat) :
    ReportsErrors (findFreeLoop map blocks n) := by
  induction blocks generalizing n with
  | nil =>
      cases n with
      | zero => exact Reports.pure _
      | succ n => exact Reports.exit _
  | cons blkIdx rest ih =>
      cases n with
      | zero => exact Reports.pure _
      | succ n =>
          refine (Reports.require _).bind fun _ => ?_
          split
          · exact (ih n).bind fun _ => Reports.pure _
          · exact ih (n + 1)

theorem findFirstNfreeBlocks_reports (startIdx n : Nat) :
    ReportsErrors (findFirstNfreeBlocks startIdx n) :=
  loadGlobals_reports.bind fun _ => findFreeLoop_reports _ _ _

theorem modifyBitmap_reports (blocks : List Int) (setFlag : Bool) :
    ReportsErrors (modifyBitmapAndWritebackToDisk blocks setFlag) := by
  refine (Reports.require _).bind fun _ => ?_
  refine (modifyGlobals_reports _).bind fun _ => ?_
  exact loadGlobals_reports.bind fun _ => blockWrite_reports _ _

/-! Calls that change directories. -/

theorem writeNewEntry_reports (ctx : Context) (path : CString)
    (mode : UInt32) (dirflag : Bool) (dirBlock : Directory)
    (dirBlockInum : Int) (freeDirEntry : Fin 128)
    (allocatableBlocksInums : List Nat) :
    ReportsErrors (writeNewEntry ctx path mode dirflag dirBlock dirBlockInum
      freeDirEntry allocatableBlocksInums) := by
  refine (blockWrite_reports _ _).bind fun _ => ?_
  refine (leafName_reports _).bind fun filename => ?_
  refine (blockWrite_reports _ _).bind fun _ => ?_
  have hmark : ReportsErrors (do
      modifyGlobals (Globals.addFree (if dirflag then -2 else -1))
      modifyBitmapAndWritebackToDisk
        (allocatableBlocksInums.map Int.ofNat) true) :=
    (modifyGlobals_reports _).bind fun _ => modifyBitmap_reports _ _
  cases dirflag with
  | false => exact (Reports.pure ()).bind fun _ => hmark
  | true => exact (blockWrite_reports _ _).bind fun _ => hmark

theorem createDirectoryEntry_reports (ctx : Context) (path : CString)
    (mode : UInt32) (dirflag : Bool) :
    ReportsErrors (createDirectoryEntry ctx path mode dirflag) := by
  refine (pathToInode_reports path 1).bind fun there => ?_
  refine (validateDirectoryAndEntry_reports path _).bind fun dirBlock => ?_
  refine (findFreeDirEntry_reports _ _).bind fun freeDirEntry => ?_
  refine (findFirstNfreeBlocks_reports _ _).bind fun blocks => ?_
  exact (writeNewEntry_reports ctx path mode dirflag _ _ _ _).bind fun _ =>
    Reports.pure _

theorem unlinkDirectoryEntry_reports (path : CString) :
    ReportsErrors (unlinkDirectoryEntry path) := by
  refine (pathToInode_reports path 1).bind fun there => ?_
  refine (readDirectory_reports _).bind fun dirBlock => ?_
  refine (leafName_reports _).bind fun entryname => ?_
  refine (findIndexInDir_reports _ _).bind fun fileIdx => ?_
  exact blockWrite_reports _ _

theorem ptrAt_reports (inode : FsInode) (i : Int) :
    ReportsErrors (ptrAt inode i) := by
  rw [ptrAt]
  split
  · exact Reports.pure _
  · exact Reports.undefined

theorem copyPtrs_reports (inode : FsInode) (count : Nat) (blkIdx : Int) :
    ReportsErrors (copyPtrs inode count blkIdx) := by
  induction count generalizing blkIdx with
  | zero => exact Reports.pure _
  | succ count ih =>
      refine (ptrAt_reports inode blkIdx).bind fun ptr => ?_
      exact (ih (blkIdx + 1)).bind fun _ => Reports.pure _

theorem fsUnlink_reports (path : CString) :
    ReportsErrors (fsUnlink path) := by
  refine (pathToInode_reports path 0).bind fun there => ?_
  refine (Reports.require _).bind fun _ => ?_
  refine (copyPtrs_reports _ _ _).bind fun fileBlocks => ?_
  refine (unlinkDirectoryEntry_reports path).bind fun _ => ?_
  refine (modifyBitmap_reports _ _).bind fun _ => ?_
  exact (modifyGlobals_reports _).bind fun _ => Reports.pure _

theorem fsRmdir_reports (path : CString) : ReportsErrors (fsRmdir path) := by
  refine (checkDirEmpty_reports path).bind fun there => ?_
  refine (unlinkDirectoryEntry_reports path).bind fun _ => ?_
  refine (modifyBitmap_reports _ _).bind fun _ => ?_
  exact (modifyGlobals_reports _).bind fun _ => Reports.pure _

/-! Attributes and contents. -/

theorem fsChmod_reports (path : CString) (mode : UInt32) :
    ReportsErrors (fsChmod path mode) := by
  refine (pathToInode_reports path 0).bind fun there => ?_
  exact (blockWrite_reports _ _).bind fun _ => Reports.pure _

theorem fsUtime_reports (path : CString) (modtime : Int) :
    ReportsErrors (fsUtime path modtime) := by
  refine (pathToInode_reports path 0).bind fun there => ?_
  refine (Reports.rejectIf _ _).bind fun _ => ?_
  exact (blockWrite_reports _ _).bind fun _ => Reports.pure _

theorem fsTruncate_reports (path : CString) (len : Int) :
    ReportsErrors (fsTruncate path len) := by
  refine (Reports.rejectIf _ _).bind fun _ => ?_
  refine (pathToInode_reports path 0).bind fun there => ?_
  refine (Reports.rejectIf _ _).bind fun _ => ?_
  refine (Reports.rejectIf _ _).bind fun _ => ?_
  refine (copyPtrs_reports _ _ _).bind fun removed => ?_
  refine (blockWrite_reports _ _).bind fun _ => ?_
  refine (modifyBitmap_reports _ _).bind fun _ => ?_
  exact (modifyGlobals_reports _).bind fun _ => Reports.pure _

theorem readBlocks_reports (inode : FsInode) (count : Nat) (pIdx : Int) :
    ReportsErrors (readBlocks inode count pIdx) := by
  induction count generalizing pIdx with
  | zero => exact Reports.pure _
  | succ count ih =>
      refine (ptrAt_reports inode pIdx).bind fun ptr => ?_
      refine (blockRead_reports _).bind fun block => ?_
      exact (ih (pIdx + 1)).bind fun _ => Reports.pure _

theorem fsRead_reports (path : CString) (len : Nat) (offset : Int) :
    ReportsErrors (fsRead path len offset) := by
  refine (pathToInode_reports path 0).bind fun there => ?_
  refine (Reports.rejectIf _ _).bind fun _ => ?_
  dsimp only
  split
  · exact Reports.pure _
  · refine (Reports.rejectIf _ _).bind fun _ => ?_
    refine (readBlocks_reports _ _ _).bind fun blkBuf => ?_
    refine Reports.bind ?_ fun _ => Reports.pure _
    exact (Reports.require _).bind fun _ => Reports.pure _

theorem copyIn_reports (dst : List UInt8) (off : Int) (src : List UInt8) :
    ReportsErrors (copyIn dst off src) :=
  (Reports.require _).bind fun _ => Reports.pure _

theorem storePtrs_reports (inode : FsInode) (blocks : List Nat)
    (blkIdx : Int) : ReportsErrors (storePtrs inode blocks blkIdx) := by
  induction blocks generalizing inode blkIdx with
  | nil => exact Reports.pure _
  | cons block blocks ih =>
      rw [storePtrs]
      split
      · exact ih _ _
      · exact Reports.undefined

theorem reserveBlocks_reports (finode : FsInode)
    (fileSizeInBlocks blksNeeded : Int) :
    ReportsErrors (reserveBlocks finode fileSizeInBlocks blksNeeded) := by
  rw [reserveBlocks]
  split
  · refine (findFirstNfreeBlocks_reports _ _).bind fun blocks => ?_
    refine (modifyBitmap_reports _ _).bind fun _ => ?_
    exact storePtrs_reports _ _ _
  · exact Reports.pure _

theorem copyBlockIn_reports (finode : FsInode) (pIdx : Int)
    (blkBuf : List UInt8) (off : Int) :
    ReportsErrors (copyBlockIn finode pIdx blkBuf off) := by
  refine (ptrAt_reports finode pIdx).bind fun ptr => ?_
  refine (blockRead_reports _).bind fun blk => ?_
  exact copyIn_reports _ _ _

theorem mergeBuffer_reports (finode : FsInode) (buf : List UInt8)
    (writeStartBlock writeStartOffset writeEndBlock writeBlockCount
      fileSizeInBlocks : Int) :
    ReportsErrors (mergeBuffer finode buf writeStartBlock writeStartOffset
      writeEndBlock writeBlockCount fileSizeInBlocks) := by
  have hblock : ∀ (test : Prop) [Decidable test] (pIdx : Int)
      (blkBuf : List UInt8) (off : Int), ReportsErrors
        (if test then copyBlockIn finode pIdx blkBuf off
          else pure blkBuf) := by
    intro test _ pIdx blkBuf off
    split
    · exact copyBlockIn_reports _ _ _ _
    · exact Reports.pure _
  refine (hblock _ _ _ _).bind fun blkBuf => ?_
  refine (hblock _ _ _ _).bind fun blkBuf => ?_
  exact copyIn_reports _ _ _

theorem writeBlocks_reports (finode : FsInode) (blkBuf : List UInt8)
    (count : Nat) (pIdx : Int) (blkIdx : Nat) :
    ReportsErrors (writeBlocks finode blkBuf count pIdx blkIdx) := by
  induction count generalizing pIdx blkIdx with
  | zero => exact Reports.pure _
  | succ count ih =>
      refine (ptrAt_reports finode pIdx).bind fun ptr => ?_
      refine (Reports.require _).bind fun _ => ?_
      refine (blockWrite_reports _ _).bind fun _ => ?_
      exact ih _ _

theorem fsWrite_reports (ctx : Context) (path : CString)
    (buf : List UInt8) (offset : Int) :
    ReportsErrors (fsWrite ctx path buf offset) := by
  refine (pathToInode_reports path 0).bind fun there => ?_
  refine (Reports.rejectIf _ _).bind fun _ => ?_
  refine (Reports.rejectIf _ _).bind fun _ => ?_
  refine (reserveBlocks_reports _ _ _).bind fun finode => ?_
  refine (blockWrite_reports _ _).bind fun _ => ?_
  refine (Reports.rejectIf _ _).bind fun _ => ?_
  refine (mergeBuffer_reports _ _ _ _ _ _ _).bind fun blkBuf => ?_
  refine (writeBlocks_reports _ _ _ _ _).bind fun _ => ?_
  exact (modifyGlobals_reports _).bind fun _ => Reports.pure _

/-! Replies. -/

/-- What a caller takes for an error: a negative value, or a result of
`fs_init` other than `NULL`. -/
def Alarms : Except Int Reply → Prop
  | .error status => status < 0
  | .ok (.code result) => result < 0
  | .ok (.null result) => result ≠ 0
  | .ok (.listing result _) => result < 0
  | .ok (.data result _) => result < 0
  | .ok (.attr _) | .ok (.vfs _) => False

/-- If an access fails during the call, the call ends, and with an error. -/
def ErrorsReported (request : Request) (world : World) : Prop :=
  (∃ entry ∈ request.perform.issued handle world,
      AccessFails entry.1 entry.2) →
    ∃ outcome world', run request.perform world = some (outcome, world') ∧
      Alarms outcome

theorem errorsReported_of_reports {request : Request}
    (hreports : ReportsErrors request.perform) (world : World) :
    ErrorsReported request world := by
  intro hfails
  obtain ⟨status, world', hrun, hstatus⟩ := hreports world hfails
  exact ⟨.error status, world', hrun, hstatus⟩

/-- A failing access while the program before an `attempt` runs is met by its
status, a later one by the rest. -/
theorem issued_attempt_bind {A B : Type} {code : Fs A}
    {next : Except Int A → Fs B} {world world' : World}
    {result : Except Int A} (hrun : run code world = some (result, world')) :
    (code.attempt >>= next).issued handle world =
      code.issued handle world ++ (next result).issued handle world' := by
  rw [issued_bind, issued_attempt, show code.attempt.exec handle world =
    some (.ok result, world') from run_attempt hrun]

/-! `fs_init`: its status is unsigned and never below 0. -/

/-- The device does not deliver its first three blocks. -/
def InitUnread (world : World) : Prop :=
  ∃ k, k < 3 ∧
    (world.device.readFails k = true ∨ world.device.size ≤ k)

theorem Device.blockRead_snd (device : Device) (lba : Int) :
    (device.blockRead lba).2 =
      { device with readFails := fun n => device.readFails (n + 1) } := by
  rw [blockRead]
  split
  · rfl
  · split <;> rfl

theorem accessFails_read {world : World} {b : Nat} (hb : b < 32768) :
    AccessFails world (.read b) ↔
      world.device.readFails 0 = true ∨ world.device.size ≤ b := by
  simp only [AccessFails, Device.blockRead, seekBlock_natCast
    (show b < 524288 by omega)]
  cases world.device.readFails 0 <;> simp

/-- In memory nothing fails. -/
theorem not_fails_of_inMemory {A : Type} {code : Fs A}
    (honly : code.Only Access.InMemory) (world : World) :
    ¬ ∃ entry ∈ code.issued handle world, AccessFails entry.1 entry.2 := by
  rintro ⟨entry, hmem, hfails⟩
  have hall : code.Issues handle (fun world query =>
      ¬ AccessFails world query) world := by
    refine Issues.of_only (fun world query hallowed hfails => ?_) honly world
    cases query with
    | load => exact hfails
    | store globals => exact hfails
    | read lba => exact hallowed
    | write buf lba => exact hallowed
  exact hall entry hmem hfails

theorem initRead_run (lba : Int) (keep : Block → Globals → Globals)
    (world : World) : ∃ value globals, run (initRead lba keep) world =
      some (.ok value, ⟨(world.device.blockRead lba).2, globals⟩) ∧
      ((∃ entry ∈ (initRead lba keep).issued handle world,
        AccessFails entry.1 entry.2) ↔ AccessFails world (.read lba)) := by
  have hread := run_blockRead_eq lba world
  have hissued := issued_blockRead lba world
  have hmemory : ∀ {code : Fs UInt64}, code.Only Access.InMemory →
      ∀ world', ((∃ entry ∈ [(world, Access.read lba)] ++
        code.issued handle world', AccessFails entry.1 entry.2) ↔
          AccessFails world (.read lba)) := by
    intro code honly world'
    have hnone := not_fails_of_inMemory honly world'
    simp only [List.mem_append, or_and_right, exists_or, hnone, or_false,
      List.mem_singleton, exists_eq_left]
  cases hblock : (world.device.blockRead lba).1 with
  | none =>
      rw [hblock] at hread
      refine ⟨_, world.globals, run_bind_ok (run_attempt hread), ?_⟩
      rw [initRead, issued_attempt_bind hread, hissued]
      exact hmemory (only_pure _) _
  | some block =>
      rw [hblock] at hread
      refine ⟨0, keep block world.globals,
        run_bind_ok (run_attempt hread), ?_⟩
      rw [initRead, issued_attempt_bind hread, hissued]
      exact hmemory ((modifyGlobals_inMemory _).bind fun _ => only_pure _) _

/-- One read of `fs_init` and the rest. -/
theorem initRead_bind (lba : Int) (keep : Block → Globals → Globals)
    (rest : Fs UInt64) (world : World) : ∃ globals,
      run (do
        let status ← initRead lba keep
        if status < 0 then return status else rest) world =
          run rest ⟨(world.device.blockRead lba).2, globals⟩ ∧
      ((∃ entry ∈ (do
          let status ← initRead lba keep
          if status < 0 then return status else rest : Fs UInt64).issued
            handle world, AccessFails entry.1 entry.2) ↔
        AccessFails world (.read lba) ∨
          ∃ entry ∈ rest.issued handle
            ⟨(world.device.blockRead lba).2, globals⟩,
              AccessFails entry.1 entry.2) := by
  obtain ⟨value, globals, hrun, hfails⟩ := initRead_run lba keep world
  have hnot : ¬ value < 0 := UInt64.not_lt_zero
  refine ⟨globals, ?_, ?_⟩
  · rw [run_bind_ok hrun, if_neg hnot]
  · rw [issued_bind, show (initRead lba keep).exec handle world = _ from hrun]
    simp only [if_neg hnot, List.mem_append, or_and_right, exists_or, hfails]

/-- `fs_init` after its three reads. -/
def initCount : Fs UInt64 := do
  let globals ← loadGlobals
  let diskSize := globals.superblock.diskSize
  require (diskSize.toNat ≤ 32768)
  let blocksFree : UInt64 :=
    .ofNat (freeCount globals.bitmap diskSize.toNat)
  modifyGlobals fun globals =>
    { globals with statVfs :=
        { bsize := 4096
          blocks := (diskSize - 2).toUInt64
          bfree := blocksFree
          bavail := blocksFree
          namemax := 27 } }
  return 0

theorem initCount_inMemory : initCount.Only Access.InMemory := by
  refine loadGlobals_inMemory.bind fun globals => ?_
  refine (Only.require _).bind fun _ => ?_
  exact (modifyGlobals_inMemory _).bind fun _ => only_pure _

theorem initCount_run {world world' : World} {outcome : Except Int UInt64}
    (hrun : run initCount world = some (outcome, world')) :
    outcome = .ok 0 := by
  rw [initCount, run_bind_ok (run_loadGlobals world), run_require_bind]
    at hrun
  split at hrun
  · rw [run_bind_ok (run_modifyGlobals _ _)] at hrun
    cases hrun
    rfl
  · cases hrun

theorem fsInit_run (world : World) :
    (∀ outcome world', run fsInit world = some (outcome, world') →
      outcome = .ok 0) ∧
    ((∃ entry ∈ fsInit.issued handle world,
      AccessFails entry.1 entry.2) ↔ InitUnread world) := by
  obtain ⟨globals₁, hrun₁, hfails₁⟩ := initRead_bind 0 (fun block globals =>
    { globals with superblock := .decode block }) (do
      let status ← initRead 1 fun block globals => globals.setBitmap block
      if status < 0 then return status else do
      let status ← initRead 2 fun block globals =>
        { globals with rootInode := .decode block }
      if status < 0 then return status else initCount) world
  obtain ⟨globals₂, hrun₂, hfails₂⟩ := initRead_bind 1
    (fun block globals => globals.setBitmap block) (do
      let status ← initRead 2 fun block globals =>
        { globals with rootInode := .decode block }
      if status < 0 then return status else initCount)
    ⟨(world.device.blockRead 0).2, globals₁⟩
  obtain ⟨globals₃, hrun₃, hfails₃⟩ := initRead_bind 2
    (fun block globals => { globals with rootInode := .decode block })
    initCount ⟨((world.device.blockRead 0).2.blockRead 1).2, globals₂⟩
  refine ⟨fun outcome world' hrun => ?_, ?_⟩
  · exact initCount_run
      ((hrun₁.trans (hrun₂.trans hrun₃)).symm.trans hrun)
  · refine hfails₁.trans ?_
    rw [hfails₂, hfails₃]
    simp only [not_fails_of_inMemory initCount_inMemory, or_false]
    rw [show (0 : Int) = (0 : Nat) from rfl, show (1 : Int) = (1 : Nat) from
      rfl, show (2 : Int) = (2 : Nat) from rfl,
      accessFails_read (by omega), accessFails_read (by omega),
      accessFails_read (by omega)]
    simp only [Device.blockRead_snd, InitUnread]
    constructor
    · rintro (hfail | hfail | hfail)
      · exact ⟨0, by omega, hfail⟩
      · exact ⟨1, by omega, hfail⟩
      · exact ⟨2, by omega, hfail⟩
    · rintro ⟨k, hk, hfail⟩
      interval_cases k
      · exact Or.inl hfail
      · exact Or.inr (Or.inl hfail)
      · exact Or.inr (Or.inr hfail)

theorem errorsReported_init (ctx : Context) (world : World) :
    ErrorsReported ⟨ctx, .init⟩ world ↔ ¬ InitUnread world := by
  obtain ⟨hnull, hfails⟩ := fsInit_run world
  have hissued : (∃ entry ∈ (Request.perform ⟨ctx, .init⟩).issued handle
      world, AccessFails entry.1 entry.2) ↔ InitUnread world := by
    rw [← hfails, Request.perform, issued_bind]
    cases fsInit.exec handle world with
    | none => simp
    | some outcome =>
        obtain ⟨result, world'⟩ := outcome
        cases result <;> simp [issued, Pure.pure]
  rw [ErrorsReported, hissued]
  constructor
  · intro hreport hunread
    obtain ⟨outcome, world', hrun, halarm⟩ := hreport hunread
    cases hinit : run fsInit world with
    | none =>
        rw [Request.perform, run_bind_none hinit] at hrun
        cases hrun
    | some result =>
        obtain ⟨result, world''⟩ := result
        obtain rfl := hnull result world'' hinit
        rw [Request.perform, run_bind_ok hinit] at hrun
        cases hrun
        exact halarm rfl
  · exact fun hread hunread => absurd hunread hread

/-! `fs_readdir`: the status of its directory read is the result of a
comparison. -/

section

variable {A B : Type} {code : Fs A} {world : World}

theorem bind_fails {next : A → Fs B}
    (hfails : ∃ entry ∈ (code >>= next).issued handle world,
      AccessFails entry.1 entry.2) :
    (∃ entry ∈ code.issued handle world, AccessFails entry.1 entry.2) ∨
      ∃ value world', run code world = some (.ok value, world') ∧
        ∃ entry ∈ (next value).issued handle world',
          AccessFails entry.1 entry.2 := by
  obtain ⟨entry, hmem, hfail⟩ := hfails
  rw [issued_bind, List.mem_append] at hmem
  rcases hmem with hmem | hmem
  · exact Or.inl ⟨entry, hmem, hfail⟩
  · split at hmem
    next value world' hrun =>
      exact Or.inr ⟨value, world', hrun, entry, hmem, hfail⟩
    next => cases hmem

/-- Where an access fails under an `attempt` or after it. -/
theorem attempt_bind_fails {next : Except Int A → Fs B}
    (hreports : ReportsErrors code)
    (hfails : ∃ entry ∈ (code.attempt >>= next).issued handle world,
      AccessFails entry.1 entry.2) :
    (∃ status world', run code world = some (.error status, world') ∧
      status < 0) ∨
    ∃ result world', run code world = some (result, world') ∧
      ∃ entry ∈ (next result).issued handle world',
        AccessFails entry.1 entry.2 := by
  rcases bind_fails hfails with hfails | ⟨result, world', hrun, hfails⟩
  · rw [issued_attempt] at hfails
    exact Or.inl (hreports world hfails)
  · rw [run, exec_attempt, Option.map_eq_some_iff] at hrun
    obtain ⟨outcome, hrun, heq⟩ := hrun
    cases heq
    exact Or.inr ⟨outcome.1, outcome.2, hrun, hfails⟩

end

theorem readdirLoop_run (entries : List FsDirent) (world : World)
    (hfails : ∃ entry ∈ (readdirLoop entries).issued handle world,
      AccessFails entry.1 entry.2) :
    ∃ status filled world', run (readdirLoop entries) world =
      some (.ok (status, filled), world') ∧ status < 0 := by
  induction entries generalizing world with
  | nil =>
      obtain ⟨entry, hmem, -⟩ := hfails
      cases hmem
  | cons dirent entries ih =>
      rw [readdirLoop] at hfails ⊢
      split at hfails
      next hvalid =>
        rw [if_pos hvalid]
        rcases attempt_bind_fails (readInode_reports _) hfails with
          ⟨status, world', hread, hneg⟩ | ⟨result, world', hread, hfails⟩
        · rw [run_bind_ok (run_attempt hread)]
          exact ⟨status, [], world', rfl, hneg⟩
        · rw [run_bind_ok (run_attempt hread)]
          cases result with
          | error status =>
              obtain ⟨entry, hmem, -⟩ := hfails
              cases hmem
          | ok inode =>
              rcases bind_fails hfails with hfails | ⟨_, _, _, _, hmem, _⟩
              · obtain ⟨status, filled, world'', hrun, hneg⟩ := ih _ hfails
                exact ⟨status, _, world'', run_bind_ok hrun, hneg⟩
              · cases hmem
      next hinvalid =>
        rw [if_neg hinvalid]
        exact ih world hfails

/-- The block of the directory to be listed cannot be read. -/
def ReaddirUnread (path : CString) (world : World) : Prop :=
  ∃ inum inode world', run (pathToInode path 0) world =
      some (.ok (inum, inode), world') ∧ sIsDir inode.mode = true ∧
    AccessFails world' (.read (wordToInt (inode.ptrs 0)))

theorem readDirectory_fails {lba : Int} {world world' : World}
    {status : Int} (hrun : run (readDirectory lba) world =
      some (.error status, world')) : AccessFails world (.read lba) := by
  have hread := run_blockRead_eq lba world
  rw [AccessFails]
  cases hblock : (world.device.blockRead lba).1 with
  | none => rfl
  | some block =>
      rw [hblock] at hread
      rw [readDirectory, run_bind_ok hread] at hrun
      cases hrun

theorem readDirectory_unread {lba : Int} {world : World}
    (hfails : AccessFails world (.read lba)) :
    run (readDirectory lba) world =
      some (.error (-eIo), world.afterRead lba) := by
  have hread := run_blockRead_eq lba world
  rw [show (world.device.blockRead lba).1 = none from hfails] at hread
  exact run_bind_error hread

theorem fsReaddir_run {path : CString} {world : World}
    (hread : ¬ ReaddirUnread path world)
    (hfails : ∃ entry ∈ (fsReaddir path).issued handle world,
      AccessFails entry.1 entry.2) :
    (∃ status world', run (fsReaddir path) world =
      some (.error status, world') ∧ status < 0) ∨
    ∃ status filled world', run (fsReaddir path) world =
      some (.ok (status, filled), world') ∧ status < 0 := by
  rcases bind_fails hfails with hfails | ⟨there, world₁, hfound, hfails⟩
  · obtain ⟨status, world', hrun, hneg⟩ := pathToInode_reports path 0 _ hfails
    exact Or.inl ⟨status, world', run_bind_error hrun, hneg⟩
  · obtain ⟨inum, inode⟩ := there
    rw [fsReaddir, run_bind_ok hfound]
    dsimp only at hfails ⊢
    rw [run_rejectIf_bind]
    rw [issued_rejectIf_bind] at hfails
    by_cases hdir : sIsDir inode.mode = true
    · rw [if_neg (not_not.mpr hdir)] at hfails ⊢
      rcases attempt_bind_fails (readDirectory_reports _) hfails with
        ⟨status, world', hunread, -⟩ | ⟨result, world', hrun, hfails⟩
      · exact absurd ⟨inum, inode, world₁, hfound, hdir,
          readDirectory_fails hunread⟩ hread
      · rw [run_bind_ok (run_attempt hrun)]
        cases result with
        | error status =>
            obtain ⟨entry, hmem, -⟩ := hfails
            cases hmem
        | ok curDir => exact Or.inr (readdirLoop_run _ _ hfails)
    · rw [if_pos hdir] at hfails
      obtain ⟨entry, hmem, -⟩ := hfails
      cases hmem

theorem errorsReported_readdir (ctx : Context) (path : CString)
    (world : World) :
    ErrorsReported ⟨ctx, .readdir path⟩ world ↔
      ¬ ReaddirUnread path world := by
  constructor
  · rintro hreport ⟨inum, inode, world₁, hfound, hdir, hunread⟩
    have hone : run (fsReaddir path) world =
        some (.ok (1, []), world₁.afterRead (wordToInt (inode.ptrs 0))) := by
      rw [fsReaddir, run_bind_ok hfound]
      dsimp only
      rw [run_rejectIf_bind, if_neg (not_not.mpr hdir),
        run_bind_ok (run_attempt (readDirectory_unread hunread))]
      rfl
    have hmem : (world₁, Access.read (wordToInt (inode.ptrs 0))) ∈
        (Request.perform ⟨ctx, .readdir path⟩).issued handle world := by
      rw [Request.perform, issued_bind, fsReaddir, issued_bind,
        show (pathToInode path 0).exec handle world = _ from hfound]
      refine List.mem_append_left _ (List.mem_append_right _ ?_)
      dsimp only
      rw [issued_rejectIf_bind, if_neg (not_not.mpr hdir),
        issued_attempt_bind (readDirectory_unread hunread), readDirectory,
        issued_bind, issued_blockRead]
      exact List.mem_append_left _ (List.mem_append_left _
        (List.mem_singleton.mpr rfl))
    obtain ⟨outcome, world', hrun, halarm⟩ := hreport ⟨_, hmem, hunread⟩
    rw [Request.perform, run_bind_ok hone] at hrun
    cases hrun
    exact absurd (show (1 : Int) < 0 from halarm) (by decide)
  · intro hread hfails
    rcases bind_fails hfails with hfails | ⟨_, _, _, _, hmem, _⟩
    · rcases fsReaddir_run hread hfails with ⟨status, world', hrun, hneg⟩ |
        ⟨status, filled, world', hrun, hneg⟩
      · exact ⟨.error status, world', run_bind_error hrun, hneg⟩
      · exact ⟨_, world', run_bind_ok hrun, hneg⟩
    · cases hmem

/-! `fs_rename`: whatever keeps the destination from being found, it takes
the name to be free. -/

/-- `fs_rename` once it takes the destination to be free. -/
def renameEntry (srcPath : CString) (dargv : List Name) : Fs Int := do
  let (sfileDirLBA, sfileDirBlock, sfileDirEntry) ← fileDir srcPath
  rejectIf (sfileDirLBA < 0) sfileDirLBA
  match sfileDirEntry with
  | none => .undefined
  | some entryIdx => do
      let name ← leafName dargv
      let sfileDirBlock := Function.update sfileDirBlock entryIdx
        { sfileDirBlock entryIdx with name := strncpy (fun _ => 0) name }
      blockWrite (Directory.encode sfileDirBlock) sfileDirLBA
      pure 0

theorem fsRename_eq (srcPath dstPath : CString) :
    fsRename srcPath dstPath = (do
      let _ ← pathToInode srcPath 0
      let dinum ← (pathToInode dstPath 0).attempt
      rejectIf (dinum.isOk) (-eExist)
      rejectIf ((parse dstPath).length ≠ (parse srcPath).length) (-eInval)
      rejectIf ((parse srcPath).dropLast ≠ (parse dstPath).dropLast) (-eInval)
      renameEntry srcPath (parse dstPath)) := rfl

theorem renameEntry_reports (srcPath : CString) (dargv : List Name) :
    ReportsErrors (renameEntry srcPath dargv) := by
  refine (fileDir_reports srcPath).bind fun there => ?_
  refine (Reports.rejectIf _ _).bind fun _ => ?_
  obtain ⟨lba, dir, entry⟩ := there
  cases entry with
  | none => exact Reports.undefined
  | some entryIdx =>
      refine (leafName_reports dargv).bind fun name => ?_
      exact (blockWrite_reports _ _).bind fun _ => Reports.pure _

/-- From here on `fs_rename` meets no error: `file_dir` returns no negative
value, and the directory block it returns with the entry can be written. -/
def RenameGoesOn (srcPath : CString) (world : World) : Prop :=
  (¬ ∃ status world', run (fileDir srcPath) world =
    some (.error status, world') ∧ status < 0) ∧
  ∀ lba dir entry world', run (fileDir srcPath) world =
    some (.ok (lba, dir, entry), world') →
      0 ≤ lba ∧ (entry.isSome → ¬ AccessFails world' (.write zeroBlock lba))

/-- A read fails while the destination is looked up, the paths pass for names
in one directory, and nothing fails afterwards. -/
def RenameUnread (srcPath dstPath : CString) (world : World) : Prop :=
  ∃ found world₁ status world₂,
    run (pathToInode srcPath 0) world = some (.ok found, world₁) ∧
    run (pathToInode dstPath 0) world₁ = some (.error status, world₂) ∧
    (∃ entry ∈ (pathToInode dstPath 0).issued handle world₁,
      AccessFails entry.1 entry.2) ∧
    (parse dstPath).length = (parse srcPath).length ∧
    (parse srcPath).dropLast = (parse dstPath).dropLast ∧
    RenameGoesOn srcPath world₂

/-- Whether a write fails does not depend on what is written. -/
theorem accessFails_write {world : World} {lba : Int} (buf buf' : Block) :
    AccessFails world (.write buf lba) ↔
      AccessFails world (.write buf' lba) := by
  simp only [AccessFails, Device.blockWrite]
  split
  · simp
  · split
    · simp
    · split
      · simp
      · split <;> simp

theorem fileDir_ne_nil {path : CString} {world world' : World}
    {there : Int × Directory × Option (Fin 128)}
    (hrun : run (fileDir path) world = some (.ok there, world')) :
    parse path ≠ [] := by
  intro hnil
  rw [fileDir] at hrun
  obtain ⟨there, world₁, -, hrun⟩ := exec_bind_eq_ok.mp hrun
  obtain ⟨_, world₂, -, hrun⟩ := exec_bind_eq_ok.mp hrun
  obtain ⟨dir, world₃, -, hrun⟩ := exec_bind_eq_ok.mp hrun
  obtain ⟨name, world₄, hname, -⟩ := exec_bind_eq_ok.mp hrun
  rw [hnil] at hname
  cases hname

theorem run_leafName_some {argv : List Name} (hne : argv ≠ [])
    (world : World) :
    ∃ name, run (leafName argv) world = some (.ok name, world) := by
  rw [leafName]
  cases hlast : argv.getLast? with
  | none => exact absurd (List.getLast?_eq_none_iff.mp hlast) hne
  | some name => exact ⟨name, rfl⟩

/-- A write that does not fail. -/
theorem blockWrite_run {buf : Block} {lba : Int} {world : World}
    (hwrites : ¬ AccessFails world (.write buf lba)) :
    run (blockWrite buf lba) world = none ∨
      ∃ world', run (blockWrite buf lba) world = some (.ok (), world') := by
  cases hwrite : world.device.blockWrite buf lba with
  | none =>
      refine Or.inl ?_
      simp only [run, blockWrite, exec, handle, hwrite]
      rfl
  | some answer =>
      obtain ⟨reply, device⟩ := answer
      cases reply with
      | false => exact absurd ⟨device, hwrite⟩ hwrites
      | true =>
          refine Or.inr ⟨{ world with device := device }, ?_⟩
          simp only [run, blockWrite, exec, handle, hwrite]
          rfl

theorem issued_blockWrite {buf : Block} {lba : Int} {world : World}
    (hfails : AccessFails world (.write buf lba)) :
    ∃ entry ∈ (blockWrite buf lba).issued handle world,
      AccessFails entry.1 entry.2 := by
  refine ⟨(world, .write buf lba), ?_, hfails⟩
  simp only [blockWrite, issued, List.mem_cons, true_or]

/-- The status of `fs_rename` when its remaining work goes through. -/
theorem renameEntry_run {srcPath : CString} {dargv : List Name}
    {world : World} (hgoes : RenameGoesOn srcPath world)
    {outcome : Except Int Int} {world' : World}
    (hrun : run (renameEntry srcPath dargv) world =
      some (outcome, world')) :
    outcome = .ok 0 ∨ ∃ status, outcome = .error status ∧ 0 ≤ status := by
  cases hdir : run (fileDir srcPath) world with
  | none =>
      rw [renameEntry, run_bind_none hdir] at hrun
      cases hrun
  | some result =>
      obtain ⟨status | ⟨lba, dir, entry⟩, world₃⟩ := result
      · rw [renameEntry, run_bind_error hdir] at hrun
        cases hrun
        exact Or.inr ⟨status, rfl, not_lt.mp fun hneg =>
          hgoes.1 ⟨status, world', hdir, hneg⟩⟩
      · obtain ⟨hlba, hwrites⟩ := hgoes.2 lba dir entry world₃ hdir
        rw [renameEntry, run_bind_ok hdir] at hrun
        dsimp only at hrun
        rw [run_rejectIf_bind, if_neg (not_lt.mpr hlba)] at hrun
        cases entry with
        | none => cases hrun
        | some entryIdx =>
            dsimp only at hrun
            by_cases hne : dargv = []
            · rw [hne] at hrun
              cases hrun
            · obtain ⟨name, hname⟩ := run_leafName_some hne world₃
              rw [run_bind_ok hname] at hrun
              have hwrite := fun buf =>
                (accessFails_write buf zeroBlock).not.mpr (hwrites rfl)
              rcases blockWrite_run (hwrite _) with hnone | ⟨world₄, hok⟩
              · rw [run_bind_none hnone] at hrun
                cases hrun
              · rw [run_bind_ok hok] at hrun
                cases hrun
                exact Or.inl rfl

/-- Where the remaining work does not go through, it reports that. -/
theorem renameEntry_fails {srcPath dstPath : CString} {world : World}
    (hlength : (parse dstPath).length = (parse srcPath).length)
    (hgoes : ¬ RenameGoesOn srcPath world) :
    ∃ status world', run (renameEntry srcPath (parse dstPath)) world =
      some (.error status, world') ∧ status < 0 := by
  rw [RenameGoesOn, not_and_or, not_not] at hgoes
  rcases hgoes with ⟨status, world', hdir, hneg⟩ | hgoes
  · exact ⟨status, world', run_bind_error hdir, hneg⟩
  · push Not at hgoes
    obtain ⟨lba, dir, entry, world₃, hdir, hlate⟩ := hgoes
    rw [renameEntry, run_bind_ok hdir]
    dsimp only
    rw [run_rejectIf_bind]
    by_cases hneg : lba < 0
    · rw [if_pos hneg]
      exact ⟨lba, world₃, rfl, hneg⟩
    · rw [if_neg hneg]
      obtain ⟨hsome, hfails⟩ := hlate (not_lt.mp hneg)
      obtain ⟨entryIdx, rfl⟩ := Option.isSome_iff_exists.mp hsome
      have hne : parse dstPath ≠ [] := by
        intro hnil
        rw [hnil, List.length_nil] at hlength
        exact fileDir_ne_nil hdir (List.length_eq_zero_iff.mp hlength.symm)
      obtain ⟨name, hname⟩ := run_leafName_some hne world₃
      dsimp only
      rw [run_bind_ok hname]
      obtain ⟨status, world₄, hrun, hneg⟩ := blockWrite_reports _ lba world₃
        (issued_blockWrite ((accessFails_write _ _).mp hfails))
      exact ⟨status, world₄, run_bind_error hrun, hneg⟩

theorem fsRename_run {srcPath dstPath : CString} {world : World}
    (hread : ¬ RenameUnread srcPath dstPath world)
    (hfails : ∃ entry ∈ (fsRename srcPath dstPath).issued handle world,
      AccessFails entry.1 entry.2) :
    ∃ status world', run (fsRename srcPath dstPath) world =
      some (.error status, world') ∧ status < 0 := by
  rw [fsRename_eq] at hfails ⊢
  rcases bind_fails hfails with hfails | ⟨found, world₁, hsource, hfails⟩
  · obtain ⟨status, world', hrun, hneg⟩ :=
      pathToInode_reports srcPath 0 _ hfails
    exact ⟨status, world', run_bind_error hrun, hneg⟩
  rw [run_bind_ok hsource]
  rcases bind_fails hfails with hfails | ⟨result, world₂, hdest, hfails⟩
  · rw [issued_attempt] at hfails
    obtain ⟨status, world₂, hdest, -⟩ := pathToInode_reports dstPath 0 _ hfails
    rw [run_bind_ok (run_attempt hdest), run_rejectIf_bind,
      if_neg (by simp [Except.isOk, Except.toBool]), run_rejectIf_bind]
    split
    next hlength => exact ⟨-eInval, world₂, rfl, by decide⟩
    next hlength =>
      rw [run_rejectIf_bind]
      split
      next hdirs => exact ⟨-eInval, world₂, rfl, by decide⟩
      next hdirs =>
        exact renameEntry_fails (not_not.mp hlength) fun hgoes =>
          hread ⟨found, world₁, status, world₂, hsource, hdest, hfails,
            not_not.mp hlength, not_not.mp hdirs, hgoes⟩
  · rw [run_bind_ok hdest]
    refine Reports.bind (Reports.rejectIf _ _) (fun _ => ?_) world₂ hfails
    refine Reports.bind (Reports.rejectIf _ _) fun _ => ?_
    exact Reports.bind (Reports.rejectIf _ _) fun _ =>
      renameEntry_reports _ _

theorem issued_pathToInode_rename {srcPath dstPath : CString}
    {world world₁ world₂ : World} {found : Int × FsInode}
    {result : Except Int (Int × FsInode)}
    (hsource : run (pathToInode srcPath 0) world =
      some (.ok found, world₁))
    (hdest : run (pathToInode dstPath 0) world₁ = some (result, world₂))
    (hfails : ∃ entry ∈ (pathToInode dstPath 0).issued handle world₁,
      AccessFails entry.1 entry.2) (ctx : Context) :
    ∃ entry ∈ (Request.perform ⟨ctx, .rename srcPath dstPath⟩).issued
      handle world, AccessFails entry.1 entry.2 := by
  obtain ⟨entry, hmem, hfail⟩ := hfails
  refine ⟨entry, ?_, hfail⟩
  rw [Request.perform, issued_bind, fsRename_eq, issued_bind,
    show (pathToInode srcPath 0).exec handle world = _ from hsource]
  refine List.mem_append_left _ (List.mem_append_right _ ?_)
  dsimp only
  rw [issued_attempt_bind hdest]
  exact List.mem_append_left _ hmem

theorem errorsReported_rename (ctx : Context) (srcPath dstPath : CString)
    (world : World) :
    ErrorsReported ⟨ctx, .rename srcPath dstPath⟩ world ↔
      ¬ RenameUnread srcPath dstPath world := by
  constructor
  · rintro hreport ⟨found, world₁, status, world₂, hsource, hdest, hfails,
      hlength, hdirs, hgoes⟩
    obtain ⟨outcome, world', hrun, halarm⟩ :=
      hreport (issued_pathToInode_rename hsource hdest hfails ctx)
    have heq : run (fsRename srcPath dstPath) world =
        run (renameEntry srcPath (parse dstPath)) world₂ := by
      rw [fsRename_eq, run_bind_ok hsource,
        run_bind_ok (run_attempt hdest), run_rejectIf_bind,
        if_neg (by simp [Except.isOk, Except.toBool]), run_rejectIf_bind,
        if_neg (not_not.mpr hlength), run_rejectIf_bind,
        if_neg (not_not.mpr hdirs)]
    cases hrename : run (renameEntry srcPath (parse dstPath)) world₂ with
    | none =>
        rw [Request.perform, run_bind_none (heq.trans hrename)] at hrun
        cases hrun
    | some result =>
        obtain ⟨result, world₃⟩ := result
        rcases renameEntry_run hgoes hrename with rfl | ⟨status, rfl, hpos⟩
        · rw [Request.perform, run_bind_ok (heq.trans hrename)] at hrun
          cases hrun
          exact absurd (show (0 : Int) < 0 from halarm) (by decide)
        · rw [Request.perform, run_bind_error (heq.trans hrename)] at hrun
          cases hrun
          exact absurd halarm (not_lt.mpr hpos)
  · intro hread hfails
    rcases bind_fails hfails with hfails | ⟨_, _, _, _, hmem, _⟩
    · obtain ⟨status, world', hrun, hneg⟩ := fsRename_run hread hfails
      exact ⟨.error status, world', run_bind_error hrun, hneg⟩
    · cases hmem

/-- A call that loses the error of a failing access. -/
def Call.SwallowsErrors : Call → World → Prop
  | .init, world => InitUnread world
  | .readdir path, world => ReaddirUnread path world
  | .rename srcPath dstPath, world => RenameUnread srcPath dstPath world
  | _, _ => False

theorem Request.perform_reports {request : Request}
    (hinit : request.call ≠ .init)
    (hreaddir : ∀ path, request.call ≠ .readdir path)
    (hrename : ∀ srcPath dstPath, request.call ≠ .rename srcPath dstPath) :
    ReportsErrors request.perform := by
  obtain ⟨ctx, call⟩ := request
  cases call with
  | init => exact absurd rfl hinit
  | getattr path =>
      refine Reports.bind ?_ fun _ => Reports.pure _
      exact (pathToInode_reports path 0).bind fun _ => Reports.pure _
  | readdir path => exact absurd rfl (hreaddir path)
  | create path mode =>
      refine Reports.bind ?_ fun _ => Reports.pure _
      exact createDirectoryEntry_reports ctx path mode false
  | mkdir path mode =>
      refine Reports.bind ?_ fun _ => Reports.pure _
      exact createDirectoryEntry_reports ctx path mode true
  | unlink path =>
      exact (fsUnlink_reports path).bind fun _ => Reports.pure _
  | rmdir path => exact (fsRmdir_reports path).bind fun _ => Reports.pure _
  | rename srcPath dstPath => exact absurd rfl (hrename srcPath dstPath)
  | chmod path mode =>
      exact (fsChmod_reports path mode).bind fun _ => Reports.pure _
  | utime path modtime =>
      exact (fsUtime_reports path modtime).bind fun _ => Reports.pure _
  | truncate path len =>
      exact (fsTruncate_reports path len).bind fun _ => Reports.pure _
  | read path len offset =>
      exact (fsRead_reports path len offset).bind fun _ => Reports.pure _
  | write path buf offset =>
      exact (fsWrite_reports ctx path buf offset).bind fun _ =>
        Reports.pure _
  | statfs =>
      refine Reports.bind ?_ fun _ => Reports.pure _
      exact loadGlobals_reports.bind fun _ => Reports.pure _

/-- A call reports the failing accesses it meets unless it is one of the
three that swallow them. -/
theorem errorsReported_iff (request : Request) (world : World) :
    ErrorsReported request world ↔
      ¬ request.call.SwallowsErrors world := by
  obtain ⟨ctx, call⟩ := request
  cases call with
  | init => exact errorsReported_init ctx world
  | readdir path => exact errorsReported_readdir ctx path world
  | rename srcPath dstPath =>
      exact errorsReported_rename ctx srcPath dstPath world
  | _ =>
      refine ⟨fun _ => id, fun _ => errorsReported_of_reports ?_ world⟩
      exact Request.perform_reports nofun nofun nofun

namespace Sample

/-- The device fails its first read. -/
def unreadable (n : UInt32) (filler : Block) : World :=
  { world n filler with device :=
      { (world n filler).device with readFails := (· == 0) } }

theorem unreadable_init :
    ¬ ErrorsReported (request .init) (unreadable 10 zeroBlock) := by
  intro hreported
  refine (errorsReported_init context _).mp hreported ⟨0, by decide, ?_⟩
  exact Or.inl rfl

end Sample

end Fs5600
