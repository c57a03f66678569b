/-
The entry points of `fs_ops` in `homework.c`, in the order of the source.
Memory is never exhausted and freeing it has no effect; an index outside an
array, an access through a null pointer and a failing assertion are undefined
behaviour.
-/
import Fs5600.Resolution
import Fs5600.Allocation

namespace Fs5600

open MachineWord EffectProgram Program

/-- What a call learns from `fuse_get_context()` and, call by call, from
`time(NULL)`. -/
structure Context where
  uid : UInt32
  gid : UInt32
  time : Nat → Int

/-! `fs_init`. -/

/-- `block_read` of a block that is kept only if the read succeeds, with the
status stored in an `uint64_t`. -/
def initRead (lba : Int) (keep : Block → Globals → Globals) : Fs UInt64 := do
  match ← (blockRead lba).attempt with
  | .ok block => do
      modifyGlobals (keep block)
      pure 0
  | .error status => pure (.ofNat (toSize status).toNat)

/-- The loop that counts the clear bits runs over all of `disk_size`, so a
size beyond the bitmap's 32768 bits reads past the array. -/
def fsInit : Fs UInt64 := do
  let status ← initRead 0 fun block globals =>
    { globals with superblock := .decode block }
  if status < 0 then return status else do
  let status ← initRead 1 fun block globals => globals.setBitmap block
  if status < 0 then return status else do
  let status ← initRead 2 fun block globals =>
    { globals with rootInode := .decode block }
  if status < 0 then return status else do
  let globals ← loadGlobals
  let diskSize := globals.superblock.diskSize
  require (diskSize.toNat ≤ 32768)
  let blocksFree : UInt64 :=
    .ofNat (freeCount globals.bitmap diskSize.toNat)
  modifyGlobals fun globals =>
    { globals with statVfs :=
        { bsize := 4096
          blocks := (diskSize - 2).toUInt64
          bfree := blocksFree
          bavail := blocksFree
          namemax := 27 } }
  return 0

def fsGetattr (path : CString) : Fs Stat := do
  let (_, inode) ← pathToInode path 0
  pure (inodeToStat inode)

/-- The loop of `fs_readdir`: its status and the calls of `filler`. -/
def readdirLoop : List FsDirent → Fs (Int × List (Name × Stat))
  | [] => pure (0, [])
  | entry :: entries =>
      if entry.valid then do
        match ← (readInode entry.inode.toNat).attempt with
        | .error status => pure (status, [])
        | .ok inode => do
            let (status, filled) ← readdirLoop entries
            pure (status, (entry.nameString, inodeToStat inode) :: filled)
      else readdirLoop entries

/-- When the directory block cannot be read, `status` holds the value of the
comparison `block_read(curDir, inode->ptrs[0], 1) < 0`. -/
def fsReaddir (path : CString) : Fs (Int × List (Name × Stat)) := do
  let (_, inode) ← pathToInode path 0
  rejectIf (¬ sIsDir inode.mode) (-eNotDir)
  match ← (readDirectory (wordToInt (inode.ptrs 0))).attempt with
  | .error _ => pure (1, [])
  | .ok curDir => readdirLoop (List.ofFn curDir)

/-! Creation. -/

def inodeFromMode (ctx : Context) (mode : UInt32) : FsInode where
  uid := .ofNat ctx.uid.toNat
  gid := .ofNat ctx.gid.toNat
  mode := mode
  ctime := wordOfInt (ctx.time 0)
  mtime := wordOfInt (ctx.time 1)
  size := if sIsDir mode then 4096 else 0
  ptrs := fun _ => 0

def FsInode.setPtr (inode : FsInode) (i : Fin 1019) (block : Int) : FsInode :=
  { inode with ptrs := Function.update inode.ptrs i (wordOfInt block) }

/-- The second half of `create_directory_entry`: the four writebacks.  For a
file, `allocatableBlocksInums[1]` is read but not used. -/
def writeNewEntry (ctx : Context) (path : CString) (mode : UInt32)
    (dirflag : Bool) (dirBlock : Directory) (dirBlockInum : Int)
    (freeDirEntry : Fin 128) (allocatableBlocksInums : List Nat) :
    Fs Unit := do
  let newEntryInodeInum : Nat := allocatableBlocksInums.getD 0 0
  let dirEntryBlockInum : Nat := allocatableBlocksInums.getD 1 0
  let mode := if dirflag then mode ||| sIfdir else mode
  let newEntryInode := (inodeFromMode ctx mode).setPtr 0
    (if dirflag then dirEntryBlockInum else 0)
  blockWrite newEntryInode.encode newEntryInodeInum
  let filename ← getEntryNameFromPath path
  let dirBlock := Function.update dirBlock freeDirEntry
    { valid := true
      inode := .ofNat 31 newEntryInodeInum
      name := strncpy (dirBlock freeDirEntry).name filename }
  blockWrite (Directory.encode dirBlock) dirBlockInum
  if dirflag then blockWrite zeroBlock dirEntryBlockInum
  modifyGlobals (Globals.addFree (if dirflag then -2 else -1))
  modifyBitmapAndWritebackToDisk (allocatableBlocksInums.map Int.ofNat) true

def createDirectoryEntry (ctx : Context) (path : CString) (mode : UInt32)
    (dirflag : Bool) : Fs Int := do
  let (_, dirInode) ← pathToInode path 1
  let dirBlock ← validateDirectoryAndEntry path dirInode
  let dirBlockInum := wordToInt (dirInode.ptrs 0)
  let freeDirEntry ← findFreeDirEntry dirBlock 0
  let allocationBlockCount := if dirflag then 2 else 1
  let allocatableBlocksInums ← findFirstNfreeBlocks 0 allocationBlockCount
  writeNewEntry ctx path mode dirflag dirBlock dirBlockInum freeDirEntry
    allocatableBlocksInums
  pure 0

def fsCreate (ctx : Context) (path : CString) (mode : UInt32) : Fs Int :=
  createDirectoryEntry ctx path mode false

def fsMkdir (ctx : Context) (path : CString) (mode : UInt32) : Fs Int :=
  createDirectoryEntry ctx path mode true

/-! Removal. -/

def unlinkDirectoryEntry (path : CString) : Fs Unit := do
  let (_, dirInode) ← pathToInode path 1
  let dirBlockInum := wordToInt (dirInode.ptrs 0)
  let dirBlock ← readDirectory dirBlockInum
  let entryname ← getEntryNameFromPath path
  let fileIdx ← findIndexInDir entryname dirBlock
  let dirBlock := Function.update dirBlock fileIdx
    { dirBlock fileIdx with valid := false }
  blockWrite (Directory.encode dirBlock) dirBlockInum

/-- `inode->ptrs[i]`. -/
def ptrAt (inode : FsInode) (i : Int) : Fs UInt32 :=
  if hbound : 0 ≤ i ∧ i < 1019 then pure (inode.ptrs ⟨i.toNat, by omega⟩)
  else .undefined

/-- A loop copying `count` block pointers, from `blkIdx` on, into an array of
`int`. -/
def copyPtrs (inode : FsInode) : Nat → Int → Fs (List Int)
  | 0, _ => pure []
  | count + 1, blkIdx => do
      let ptr ← ptrAt inode blkIdx
      let rest ← copyPtrs inode count (blkIdx + 1)
      pure (wordToInt ptr :: rest)

def fsUnlink (path : CString) : Fs Int := do
  let (fileInodeInum, fileInode) ← pathToInode path 0
  let fileBlocksAllocated := sizeInBlocks fileInode.size.toInt
  require (0 ≤ fileBlocksAllocated)
  let fileBlocks ← copyPtrs fileInode fileBlocksAllocated.toNat 0
  let allocatedBlockInums := fileBlocks ++ [fileInodeInum]
  unlinkDirectoryEntry path
  modifyBitmapAndWritebackToDisk allocatedBlockInums false
  modifyGlobals (Globals.addFree (fileBlocksAllocated + 1))
  pure 0

def fsRmdir (path : CString) : Fs Int := do
  let (dirInodeInum, dirBlockInum) ← checkDirEmpty path
  unlinkDirectoryEntry path
  modifyBitmapAndWritebackToDisk [dirInodeInum, dirBlockInum] false
  modifyGlobals (Globals.addFree 2)
  pure 0

/-! Attributes. -/

def fsRename (srcPath dstPath : CString) : Fs Int := do
  let _ ← pathToInode srcPath 0
  let dinum ← (pathToInode dstPath 0).attempt
  rejectIf (dinum.isOk) (-eExist)
  let sargv := parse srcPath
  let dargv := parse dstPath
  rejectIf (dargv.length ≠ sargv.length) (-eInval)
  rejectIf (sargv.dropLast ≠ dargv.dropLast) (-eInval)
  let (sfileDirLBA, sfileDirBlock, sfileDirEntry) ← fileDir srcPath
  rejectIf (sfileDirLBA < 0) sfileDirLBA
  match sfileDirEntry with
  | none => .undefined
  | some entryIdx => do
      let name ← leafName dargv
      let sfileDirBlock := Function.update sfileDirBlock entryIdx
        { sfileDirBlock entryIdx with name := strncpy (fun _ => 0) name }
      blockWrite (Directory.encode sfileDirBlock) sfileDirLBA
      pure 0

def permissionsMask : UInt32 := 0o777

def fsChmod (path : CString) (mode : UInt32) : Fs Int := do
  let (inum, finode) ← pathToInode path 0
  let finode := { finode with mode :=
    (finode.mode &&& ~~~permissionsMask) ||| (mode &&& permissionsMask) }
  blockWrite finode.encode inum
  pure 0

def fsUtime (path : CString) (modtime : Int) : Fs Int := do
  let (finodeInum, finode) ← pathToInode path 0
  rejectIf (¬ sIsReg finode.mode) (-eIsDir)
  let finode := { finode with mtime := wordOfInt modtime }
  blockWrite finode.encode finodeInum
  pure 0

/-! File contents. -/

/-- The loop of `fs_truncate` marks the pointers it drops with -1. -/
def FsInode.dropPtrs (inode : FsInode) (low high : Int) : FsInode :=
  { inode with ptrs := fun i =>
      if low ≤ i.val ∧ i.val < high then wordOfInt (-1) else inode.ptrs i }

def fsTruncate (path : CString) (len : Int) : Fs Int := do
  rejectIf (len < 0) (-eInval)
  let (finodeInum, finode) ← pathToInode path 0
  rejectIf (¬ sIsReg finode.mode) (-eIsDir)
  let fileSizeInBlocks := sizeInBlocks finode.size.toInt
  let targetFilesize := toInt32 (sizeInBlocks len)
  rejectIf (targetFilesize > fileSizeInBlocks) (-eInval)
  let blockRemovalCount := fileSizeInBlocks - targetFilesize
  let removed ← copyPtrs finode blockRemovalCount.toNat targetFilesize
  let finode :=
    { finode.dropPtrs targetFilesize fileSizeInBlocks with
      size := .ofInt len }
  blockWrite finode.encode finodeInum
  modifyBitmapAndWritebackToDisk removed false
  modifyGlobals (Globals.addFree blockRemovalCount)
  pure 0

/-- The loop of `fs_read`: `count` blocks from `pIdx` on, one after the other
in the buffer. -/
def readBlocks (inode : FsInode) : Nat → Int → Fs (List UInt8)
  | 0, _ => pure []
  | count + 1, pIdx => do
      let ptr ← ptrAt inode pIdx
      let block ← blockRead (wordToInt ptr)
      let rest ← readBlocks inode count (pIdx + 1)
      pure (List.ofFn block ++ rest)

/-- `memcpy(dst, src + off, len)` out of a buffer. -/
def copyOut (src : List UInt8) (off len : Int) : Fs (List UInt8) := do
  require (0 ≤ off ∧ 0 ≤ len ∧ off + len ≤ src.length)
  pure ((src.drop off.toNat).take len.toNat)

/-- `fs_read`: the result and the bytes stored in the caller's buffer.  The
size of the block buffer is computed in `size_t`, so a negative block count
asks for more memory than there is. -/
def fsRead (path : CString) (len : Nat) (offset : Int) :
    Fs (Int × List UInt8) := do
  let (_, finode) ← pathToInode path 0
  rejectIf (¬ sIsReg finode.mode) (-eIsDir)
  let fileLen := finode.size.toInt
  if offset ≥ fileLen then pure (0, []) else do
  let readStartBlock := toInt32 (offset.tdiv 4096)
  let readStartOffset := toInt32 (offset.tmod 4096)
  let fileSizeInBlocks := sizeInBlocks fileLen
  let beyond : Bool := toSize (offset + len) > toSize fileLen
  let readEndBlock :=
    if beyond then fileSizeInBlocks
    else toInt32 (toSize (offset + len - 1) / 4096)
  let len : Int := if beyond then toSize (fileLen - offset) else len
  let readBlockCount := toInt32 (readEndBlock - readStartBlock + 1)
  rejectIf (readBlockCount < 0) (-eNoMem)
  let blkBuf ← readBlocks finode (readEndBlock - readStartBlock + 1).toNat
    readStartBlock
  let bytes ← copyOut blkBuf readStartOffset len
  pure (toInt32 len, bytes)

/-- `memcpy(dst + off, src, len)` into a buffer. -/
def copyIn (dst : List UInt8) (off : Int) (src : List UInt8) :
    Fs (List UInt8) := do
  require (0 ≤ off ∧ off + src.length ≤ dst.length)
  pure (dst.take off.toNat ++ src ++ dst.drop (off.toNat + src.length))

/-- `finode->ptrs[blkIdx] = allocatedBlockNums[allocationIdx++]` from
`blkIdx` on. -/
def storePtrs (inode : FsInode) : List Nat → Int → Fs FsInode
  | [], _ => pure inode
  | block :: blocks, blkIdx =>
      if hbound : 0 ≤ blkIdx ∧ blkIdx < 1019 then
        storePtrs (inode.setPtr ⟨blkIdx.toNat, by omega⟩ block) blocks
          (blkIdx + 1)
      else .undefined

/-- The allocation of `fs_write`: the bitmap is written before any pointer
is. -/
def reserveBlocks (finode : FsInode) (fileSizeInBlocks blksNeeded : Int) :
    Fs FsInode :=
  if blksNeeded > 0 then do
    let allocatedBlockNums ← findFirstNfreeBlocks 0 blksNeeded.toNat
    modifyBitmapAndWritebackToDisk (allocatedBlockNums.map Int.ofNat) true
    storePtrs finode allocatedBlockNums fileSizeInBlocks
  else pure finode

/-- A block of the file copied into the buffer. -/
def copyBlockIn (finode : FsInode) (pIdx : Int) (blkBuf : List UInt8)
    (off : Int) : Fs (List UInt8) := do
  let ptr ← ptrAt finode pIdx
  let blk ← blockRead (wordToInt ptr)
  copyIn blkBuf off (List.ofFn blk)

/-- The buffer that `fs_write` writes back: zeros, under the old first and
last block, under the caller's bytes. -/
def mergeBuffer (finode : FsInode) (buf : List UInt8)
    (writeStartBlock writeStartOffset writeEndBlock writeBlockCount
      fileSizeInBlocks : Int) : Fs (List UInt8) := do
  let blkBuf := List.replicate (4096 * writeBlockCount).toNat 0
  let blkBuf ← (if fileSizeInBlocks > 0 then
      copyBlockIn finode writeStartBlock blkBuf 0
    else pure blkBuf)
  let blkBuf ← (if fileSizeInBlocks > 1 then
      copyBlockIn finode writeEndBlock blkBuf (4096 * (writeBlockCount - 1))
    else pure blkBuf)
  copyIn blkBuf writeStartOffset buf

/-- The block at `blkBuf + blkIdx * FS_BLOCK_SIZE`. -/
def bufferBlock (blkBuf : List UInt8) (blkIdx : Nat) : Block :=
  fun k => blkBuf.getD (4096 * blkIdx + k.val) 0

/-- The loop of `fs_write` over `count` blocks. -/
def writeBlocks (finode : FsInode) (blkBuf : List UInt8) :
    Nat → Int → Nat → Fs Unit
  | 0, _, _ => pure ()
  | count + 1, pIdx, blkIdx => do
      let ptr ← ptrAt finode pIdx
      require (4096 * (blkIdx + 1) ≤ blkBuf.length)
      blockWrite (bufferBlock blkBuf blkIdx) (wordToInt ptr)
      writeBlocks finode blkBuf count (pIdx + 1) (blkIdx + 1)

/-- `fs_write`.  The size of its buffer is computed in `int`, so it asks for
more memory than there is when the product is negative. -/
def fsWrite (ctx : Context) (path : CString) (buf : List UInt8)
    (offset : Int) : Fs Int := do
  let (finodeInum, finode) ← pathToInode path 0
  rejectIf (¬ sIsReg finode.mode) (-eIsDir)
  let fileLen := finode.size.toInt
  rejectIf (offset > fileLen) (-eInval)
  let len := buf.length
  let writeStartBlock := toInt32 (offset.tdiv 4096)
  let writeStartOffset := toInt32 (offset.tmod 4096)
  let writeEndBlock := toInt32 (toSize (offset + len - 1) / 4096)
  let fileSizeInBlocks := sizeInBlocks fileLen
  let writeBlockCount := toInt32 (writeEndBlock - writeStartBlock + 1)
  let blksNeeded := toInt32 (writeEndBlock - fileSizeInBlocks + 1)
  let finode ← reserveBlocks finode fileSizeInBlocks blksNeeded
  let total := toSize (offset + len)
  let finode :=
    { finode with
      size := if total > toSize fileLen then .ofInt total else finode.size
      mtime := wordOfInt (ctx.time 0) }
  blockWrite finode.encode finodeInum
  rejectIf (toInt32 (4096 * writeBlockCount) < 0) (-eNoMem)
  let blkBuf ← mergeBuffer finode buf writeStartBlock writeStartOffset
    writeEndBlock writeBlockCount fileSizeInBlocks
  writeBlocks finode blkBuf (writeEndBlock - writeStartBlock + 1).toNat
    writeStartBlock 0
  modifyGlobals (Globals.addFree (-blksNeeded))
  pure (toInt32 len)

def fsStatfs : Fs StatVfs := do
  let globals ← loadGlobals
  pure globals.statVfs

end Fs5600
