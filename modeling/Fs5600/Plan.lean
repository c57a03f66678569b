/-
What a mutating call decides before its first write: an error, or a change of
one object or one directory entry, given by the slots that lead to it.
-/
import Fs5600.Session
import Fs5600.Lookup
import Fs5600.Effect

namespace Fs5600

open MachineWord

/-- `path` leads to the inode `inum` that is rewritten, or to the directory
whose entry is. -/
inductive Change where
  | attributes (path : List Slot) (inum : Nat) (inode : FsInode)
  | relabel (path : List Slot) (inum : Nat) (slot : Slot) (name : Name)
  | insert (path : List Slot) (inum : Nat) (slot : Slot) (name : Name)
      (inode : FsInode) (dirflag : Bool) (blocks : List Nat)
  | remove (path : List Slot) (inum : Nat) (slot : Slot) (blocks : List Nat)
  | shrink (path : List Slot) (inum : Nat) (len : Nat)
  | write (path : List Slot) (inum : Nat) (offset : Nat)
      (buf : List UInt8) (mtime : UInt32) (fresh : List Nat)

/-! The blocks that changes store. -/

/-- The inode of a file cut to `len` bytes. -/
def FsInode.shrink (inode : FsInode) (len : Nat) : FsInode :=
  { inode.dropPtrs (blockCount len) (blockCount inode.length) with
    size := .ofInt len }

/-- The pointers of the blocks that are cut off. -/
def FsInode.dropped (inode : FsInode) (len : Nat) : List Nat :=
  (List.range' (blockCount len)
    (blockCount inode.length - blockCount len)).map inode.ptr

/-- Pointers `start` and on replaced by the listed blocks. -/
def FsInode.placePtrs (inode : FsInode) (blocks : List Nat) (start : Nat) :
    FsInode :=
  { inode with ptrs := fun i =>
      if start ≤ i.val then
        match blocks[i.val - start]? with
        | some block => wordOfInt block
        | none => inode.ptrs i
      else inode.ptrs i }

/-- The inode of a file with fresh blocks behind its own, written up to
`stop`. -/
def FsInode.extend (inode : FsInode) (fresh : List Nat) (stop : Nat)
    (mtime : UInt32) : FsInode :=
  { inode.placePtrs fresh (blockCount inode.length) with
    size := if stop > inode.length then .ofInt stop else inode.size
    mtime := mtime }

/-- Block `k` of a file as a write of `buf` at `offset` stores it; the file
had `count` blocks.  Only the first and the last block of the range keep old
bytes, and only where the file had them. -/
def mergedBlock (disk : Disk) (inode : FsInode) (count offset : Nat)
    (buf : List UInt8) (k : Nat) : Block := fun x =>
  let place := 4096 * k + x.val
  if offset ≤ place ∧ place < offset + buf.length then
    buf.getD (place - offset) 0
  else if (k = offset / 4096 ∧ 0 < count) ∨
      (k = (offset + buf.length - 1) / 4096 ∧ 1 < count) then
    disk (inode.ptr k) x
  else 0

def markEffects (map : Block) : List Effect :=
  [.modify (Globals.setBitmap map), .write 1 map]

/-- The entry that creation stores over an old one. -/
def FsDirent.occupied (entry : FsDirent) (inum : Nat) (name : Name) :
    FsDirent :=
  ⟨true, .ofNat 31 inum, strncpy entry.name name⟩

def Disk.setEntry (disk : Disk) (inum : Nat) (slot : Slot)
    (entry : FsDirent) : Effect :=
  .write ((disk.inode inum).ptr 0)
    (Directory.encode (Function.update (disk.entries inum) slot entry))

/-- The data blocks of a write, from the block of `offset` to that of the
last byte. -/
def dataEffects (disk : Disk) (inode : FsInode) (count offset : Nat)
    (buf : List UInt8) : List Effect :=
  (List.range' (offset / 4096)
    (blockCount (offset + buf.length) - offset / 4096)).map fun k =>
      .write (inode.ptr k) (mergedBlock disk inode count offset buf k)

/-- The effects of a change, in the order of the source. -/
def Change.effects (world : World) : Change → List Effect
  | .attributes _ inum inode => [.write inum inode.encode]
  | .relabel _ inum slot name =>
      [world.disk.setEntry inum slot
        { world.disk.entries inum slot with
          name := strncpy (fun _ => 0) name }]
  | .insert _ inum slot name inode dirflag blocks =>
      [.write (blocks.getD 0 0) inode.encode,
        world.disk.setEntry inum slot
          ((world.disk.entries inum slot).occupied (blocks.getD 0 0) name)] ++
      (if dirflag then [.write (blocks.getD 1 0) zeroBlock] else []) ++
      .modify (Globals.addFree (-blocks.length)) ::
        markEffects (bitSetAll world.globals.bitmap blocks)
  | .remove _ inum slot blocks =>
      world.disk.setEntry inum slot
        { world.disk.entries inum slot with valid := false } ::
      markEffects (bitClearAll world.globals.bitmap blocks) ++
      [.modify (Globals.addFree blocks.length)]
  | .shrink _ inum len =>
      .write inum ((world.disk.inode inum).shrink len).encode ::
      markEffects (bitClearAll world.globals.bitmap
        ((world.disk.inode inum).dropped len)) ++
      [.modify (Globals.addFree ((world.disk.inode inum).dropped len).length)]
  | .write _ inum offset buf mtime fresh =>
      let old := world.disk.inode inum
      let inode := old.extend fresh (offset + buf.length) mtime
      let count := blockCount old.length
      (if fresh = [] then []
        else markEffects (bitSetAll world.globals.bitmap fresh)) ++
      .write inum inode.encode ::
        dataEffects world.disk inode count offset buf ++
      [.modify (Globals.addFree
        (count - (blockCount (offset + buf.length) : Nat)))]

/-- What a call returns after its change. -/
def Change.result : Change → Int
  | .write _ _ _ buf _ _ => buf.length
  | _ => 0

/-! The decisions. -/

/-- The last component. -/
def leaf (path : CString) : Name := (parse path).getLastD []

namespace World

variable (world : World)

def planCreate (ctx : Context) (path : CString) (mode : UInt32)
    (dirflag : Bool) : Except Int Change :=
  match world.disk.resolve (parse path).dropLast with
  | .error status => .error status
  | .ok (site, inum) =>
      if ¬ (world.disk.inode inum).isDir then .error (-eNotDir)
      else if (firstNamed (world.disk.entries inum) (leaf path)).isSome then
        .error (-eExist)
      else
        match firstInvalid (world.disk.entries inum) 0 with
        | none => .error (-eNoSpc)
        | some slot =>
            match lowestFree world.globals.bitmap world.disk.diskSize
                (if dirflag then 2 else 1) with
            | none => .error (-eNoSpc)
            | some blocks =>
                .ok (.insert site inum slot (leaf path)
                  ((inodeFromMode ctx
                    (if dirflag then mode ||| sIfdir else mode)).setPtr 0
                      (if dirflag then ((blocks.getD 1 0 : Nat) : Int)
                        else 0))
                  dirflag blocks)

/-- Removal of the entry at `path`, giving back `blocks`. -/
def planRemove (path : CString) (blocks : List Nat) : Except Int Change :=
  match world.disk.resolve (parse path).dropLast with
  | .error status => .error status
  | .ok (site, inum) =>
      match firstNamed (world.disk.entries inum) (leaf path) with
      | none => .error (-eNoEnt)
      | some slot => .ok (.remove site inum slot blocks)

def planUnlink (path : CString) : Except Int Change :=
  match world.disk.resolve (parse path) with
  | .error status => .error status
  | .ok (_, inum) =>
      let inode := world.disk.inode inum
      world.planRemove path
        ((List.range (blockCount inode.length)).map inode.ptr ++ [inum])

def planRmdir (path : CString) : Except Int Change :=
  match world.disk.resolve (parse path) with
  | .error status => .error status
  | .ok (_, inum) =>
      if ¬ (world.disk.inode inum).isDir then .error (-eNotDir)
      else
        match firstInvalid (world.disk.entries inum) 0 with
        | none => .error (-eNoSpc)
        | some slot =>
            if slot ≠ 0 then .error (-eNotEmpty)
            else world.planRemove path
              [inum, (world.disk.inode inum).ptr 0]

def planRename (srcPath dstPath : CString) : Except Int Change :=
  match world.disk.resolve (parse srcPath) with
  | .error status => .error status
  | .ok _ =>
      if (world.disk.resolve (parse dstPath)).isOk then .error (-eExist)
      else if (parse dstPath).length ≠ (parse srcPath).length then
        .error (-eInval)
      else if (parse srcPath).dropLast ≠ (parse dstPath).dropLast then
        .error (-eInval)
      else
        match world.disk.resolve (parse srcPath).dropLast with
        | .error status => .error status
        | .ok (site, inum) =>
            match firstNamed (world.disk.entries inum) (leaf srcPath) with
            | none => .error (-eNoEnt)
            | some slot => .ok (.relabel site inum slot (leaf dstPath))

def planChmod (path : CString) (mode : UInt32) : Except Int Change :=
  match world.disk.resolve (parse path) with
  | .error status => .error status
  | .ok (site, inum) =>
      let inode := world.disk.inode inum
      .ok (.attributes site inum
        { inode with mode :=
          (inode.mode &&& ~~~permissionsMask) ||| (mode &&& permissionsMask) })

def planUtime (path : CString) (modtime : Int) : Except Int Change :=
  match world.disk.resolve (parse path) with
  | .error status => .error status
  | .ok (site, inum) =>
      let inode := world.disk.inode inum
      if ¬ inode.isReg then .error (-eIsDir)
      else .ok (.attributes site inum { inode with mtime := wordOfInt modtime })

def planTruncate (path : CString) (len : Int) : Except Int Change :=
  if len < 0 then .error (-eInval)
  else
    match world.disk.resolve (parse path) with
    | .error status => .error status
    | .ok (site, inum) =>
        let inode := world.disk.inode inum
        if ¬ inode.isReg then .error (-eIsDir)
        else if blockCount len.toNat > blockCount inode.length then
          .error (-eInval)
        else .ok (.shrink site inum len.toNat)

def planWrite (ctx : Context) (path : CString) (buf : List UInt8)
    (offset : Int) : Except Int Change :=
  match world.disk.resolve (parse path) with
  | .error status => .error status
  | .ok (site, inum) =>
      let inode := world.disk.inode inum
      if ¬ inode.isReg then .error (-eIsDir)
      else if offset > inode.length then .error (-eInval)
      else
        match lowestFree world.globals.bitmap world.disk.diskSize
            (blockCount (offset.toNat + buf.length) -
              blockCount inode.length) with
        | none => .error (-eNoSpc)
        | some fresh =>
            .ok (.write site inum offset.toNat buf (wordOfInt (ctx.time 0))
              fresh)

end World

/-- The calls that may write. -/
def Call.Mutates : Call → Prop
  | .create _ _ | .mkdir _ _ | .unlink _ | .rmdir _ | .rename _ _
  | .chmod _ _ | .utime _ _ | .truncate _ _ | .write _ _ _ => True
  | _ => False

/-- What a mutating call decides in a world. -/
def Request.plan (request : Request) (world : World) : Except Int Change :=
  match request.call with
  | .create path mode => world.planCreate request.ctx path mode false
  | .mkdir path mode => world.planCreate request.ctx path mode true
  | .unlink path => world.planUnlink path
  | .rmdir path => world.planRmdir path
  | .rename srcPath dstPath => world.planRename srcPath dstPath
  | .chmod path mode => world.planChmod path mode
  | .utime path modtime => world.planUtime path modtime
  | .truncate path len => world.planTruncate path len
  | .write path buf offset => world.planWrite request.ctx path buf offset
  | _ => .error 0

end Fs5600
