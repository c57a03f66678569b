/-
Path translation and the directory searches of `homework.c`.
-/
import Fs5600.Device
import Fs5600.Path

namespace Fs5600

open MachineWord EffectProgram Program

def readInode (lba : Int) : Fs FsInode := do
  let block ← blockRead lba
  pure (.decode block)

def readDirectory (lba : Int) : Fs Directory := do
  let block ← blockRead lba
  pure (.decode block)

/-- The loop of `translate` over one directory: `inodeIndex` is overwritten
at every entry that does not match. -/
def translateScan (token : Name) : List FsDirent → Int → Int
  | [], inodeIndex => inodeIndex
  | entry :: entries, _ =>
      if entry.valid && token == entry.nameString then entry.inode.toNat
      else translateScan token entries (-1)

def translateLoop : Int → List Name → Fs Int
  | inodeIndex, [] => pure inodeIndex
  | inodeIndex, token :: tokens => do
      let curInode ← readInode inodeIndex
      rejectIf (¬ sIsDir curInode.mode) (-eNotDir)
      let curDir ← readDirectory (wordToInt (curInode.ptrs 0))
      let next := translateScan token (List.ofFn curDir) inodeIndex
      rejectIf (next = -1) (-eNoEnt)
      translateLoop next tokens

def translate (pathv : List Name) (depth : Nat) : Fs Int :=
  let depth := if depth ≤ pathv.length then depth else pathv.length
  translateLoop 2 (pathv.take (pathv.length - depth))

/-- `path_to_inode(path, &inode, depth)`: the inode number it returns and the
inode it stores. -/
def pathToInode (path : CString) (depth : Nat) : Fs (Int × FsInode) := do
  let inum ← translate (parse path) depth
  let inode ← readInode inum
  pure (inum, inode)

/-- `struct stat`. -/
structure Stat where
  mode : UInt32
  uid : UInt16
  gid : UInt16
  size : Int32
  ctime : UInt32
  mtime : UInt32
  atime : UInt32
  nlink : Nat
deriving Repr, DecidableEq

def inodeToStat (inode : FsInode) : Stat where
  mode := inode.mode
  uid := inode.uid
  gid := inode.gid
  size := inode.size
  ctime := inode.ctime
  mtime := inode.mtime
  atime := inode.mtime
  nlink := 1

/-- `argv[pathc - 1]`, which for an empty path lies before the array. -/
def leafName (argv : List Name) : Fs Name :=
  match argv.getLast? with
  | some name => pure name
  | none => .undefined

/-- `get_entry_name_from_path`.  Its `NULL` result needs a component of more
than 27 bytes, which `parse` never leaves. -/
def getEntryNameFromPath (path : CString) : Fs Name := leafName (parse path)

def validateDirectoryAndEntry (path : CString) (dirInode : FsInode) :
    Fs Directory := do
  rejectIf (¬ sIsDir dirInode.mode) (-eNotDir)
  let dirBlock ← readDirectory (wordToInt (dirInode.ptrs 0))
  let filename ← leafName (parse path)
  rejectIf ((List.ofFn dirBlock).any fun entry =>
    entry.valid && entry.nameString == filename) (-eExist)
  pure dirBlock

/-- The loop of `find_free_dir_entry`. -/
def firstInvalid (dirBlock : Directory) (startIdx : Nat) :
    Option (Fin 128) :=
  ((List.finRange 128).drop startIdx).find? fun entryIdx =>
    !(dirBlock entryIdx).valid

def findFreeDirEntry (dirBlock : Directory) (startIdx : Nat) :
    Fs (Fin 128) :=
  match firstInvalid dirBlock startIdx with
  | some entryIdx => pure entryIdx
  | none => .exit (-eNoSpc)

/-- The loop of `find_index_in_dir` and of `file_dir`: the first valid entry
of a name. -/
def firstNamed (dirBlock : Directory) (filename : Name) : Option (Fin 128) :=
  (List.finRange 128).find? fun entryIdx =>
    (dirBlock entryIdx).valid && (dirBlock entryIdx).nameString == filename

def findIndexInDir (filename : Name) (dirBlock : Directory) : Fs (Fin 128) :=
  match firstNamed dirBlock filename with
  | some dirIdx => pure dirIdx
  | none => .exit (-eNoEnt)

/-- `file_dir`: the block number it returns, the directory it reads and the
entry it resolves, if any.  The final `NULL` test is on the address of the
result, so a missing entry is not reported. -/
def fileDir (filePath : CString) :
    Fs (Int × Directory × Option (Fin 128)) := do
  let (_, fileDirInode) ← pathToInode filePath 1
  rejectIf (¬ sIsDir fileDirInode.mode) (-eNotDir)
  let fileDirBlockLBA := wordToInt (fileDirInode.ptrs 0)
  let dir ← readDirectory fileDirBlockLBA
  let filename ← leafName (parse filePath)
  pure (fileDirBlockLBA, dir, firstNamed dir filename)

/-- `check_dir_empty`: the directory's inode and block number. -/
def checkDirEmpty (path : CString) : Fs (Int × Int) := do
  let (dirInodeInum, dirInode) ← pathToInode path 0
  rejectIf (¬ sIsDir dirInode.mode) (-eNotDir)
  let dirBlockInum := wordToInt (dirInode.ptrs 0)
  let dirBlock ← readDirectory dirBlockInum
  let freeDirEntry ← findFreeDirEntry dirBlock 0
  rejectIf (freeDirEntry ≠ 0) (-eNotEmpty)
  pure (dirInodeInum, dirBlockInum)

end Fs5600
