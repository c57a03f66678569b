/-
The on-disk format of `fs5600.h`: blocks of 4096 bytes and the structures the
code lays over them, on a little-endian host.  Every structure fills its block
exactly, so decoding after encoding loses nothing.
-/
import Fs5600.Lib.MachineWord

namespace Fs5600

open MachineWord

/-- `FS_BLOCK_SIZE` bytes. -/
abbrev Block := Fin 4096 → UInt8

def zeroBlock : Block := fun _ => 0

instance wordCount_neZero : NeZero 1024 := ⟨by decide⟩

def Block.word (block : Block) (i : Fin 1024) : UInt32 :=
  wordOfBytes fun place => block ⟨4 * i.val + place.val, by omega⟩

def Block.ofWords (word : Fin 1024 → UInt32) : Block := fun k =>
  byteOfWord (word ⟨k.val / 4, by omega⟩) ⟨k.val % 4, by omega⟩

@[simp] theorem Block.word_ofWords (word : Fin 1024 → UInt32) (i : Fin 1024) :
    (Block.ofWords word).word i = word i := by
  rw [Block.word]
  conv_rhs => rw [← wordOfBytes_byteOfWord (word i)]
  congr 1
  funext place
  have hdiv : (4 * i.val + place.val) / 4 = i.val := by omega
  have hmod : (4 * i.val + place.val) % 4 = place.val := by omega
  simp only [Block.ofWords, hdiv, hmod]

/-- `struct fs_super`, less its padding. -/
structure FsSuper where
  magic : UInt32
  diskSize : UInt32
deriving Repr, DecidableEq

def FsSuper.decode (block : Block) : FsSuper :=
  ⟨block.word 0, block.word 1⟩

instance pointerCount_neZero : NeZero 1019 := ⟨by decide⟩

/-- `struct fs_inode`: 5 header words and 1019 block pointers. -/
@[ext] structure FsInode where
  uid : UInt16
  gid : UInt16
  mode : UInt32
  ctime : UInt32
  mtime : UInt32
  size : Int32
  ptrs : Fin 1019 → UInt32

def FsInode.decode (block : Block) : FsInode where
  uid := .ofNat (block.word 0).toNat
  gid := .ofNat ((block.word 0).toNat / 65536)
  mode := block.word 1
  ctime := block.word 2
  mtime := block.word 3
  size := (block.word 4).toInt32
  ptrs i := block.word ⟨i.val + 5, by omega⟩

def FsInode.words (inode : FsInode) (i : Fin 1024) : UInt32 :=
  if i.val = 0 then .ofNat (inode.uid.toNat + 65536 * inode.gid.toNat)
  else if i.val = 1 then inode.mode
  else if i.val = 2 then inode.ctime
  else if i.val = 3 then inode.mtime
  else if i.val = 4 then inode.size.toUInt32
  else inode.ptrs ⟨i.val - 5, by omega⟩

def FsInode.encode (inode : FsInode) : Block := .ofWords inode.words

@[simp] theorem FsInode.decode_encode (inode : FsInode) :
    FsInode.decode inode.encode = inode := by
  have huid := inode.uid.toNat_lt
  have hgid := inode.gid.toNat_lt
  have hword : (FsInode.words inode 0).toNat =
      inode.uid.toNat + 65536 * inode.gid.toNat := by
    simp only [words, Fin.val_zero, ↓reduceIte, UInt32.toNat_ofNat']
    omega
  apply FsInode.ext
  · simp only [decode, encode, Block.word_ofWords, hword]
    apply UInt16.toNat_inj.mp
    rw [UInt16.toNat_ofNat']
    omega
  · simp only [decode, encode, Block.word_ofWords, hword]
    apply UInt16.toNat_inj.mp
    rw [UInt16.toNat_ofNat']
    omega
  · simp only [decode, encode, Block.word_ofWords]
    rfl
  · simp only [decode, encode, Block.word_ofWords]
    rfl
  · simp only [decode, encode, Block.word_ofWords]
    rfl
  · simp only [decode, encode, Block.word_ofWords]
    rfl
  · funext i
    simp [decode, encode, words]

/-- `struct fs_dirent`, with its two bit fields. -/
@[ext] structure FsDirent where
  valid : Bool
  inode : BitVec 31
  name : Fin 28 → UInt8

instance entryCount_neZero : NeZero 128 := ⟨by decide⟩

/-- The block of a directory, `struct fs_dirent[128]`. -/
abbrev Directory := Fin 128 → FsDirent

def Directory.decode (block : Block) : Directory := fun slot =>
  let header := wordOfBytes fun place =>
    block ⟨32 * slot.val + place.val, by omega⟩
  { valid := header.toNat % 2 == 1
    inode := .ofNat 31 (header.toNat / 2)
    name := fun j => block ⟨32 * slot.val + 4 + j.val, by omega⟩ }

def FsDirent.header (entry : FsDirent) : UInt32 :=
  .ofNat (entry.valid.toNat + 2 * entry.inode.toNat)

def Directory.encode (dir : Directory) : Block := fun k =>
  let entry := dir ⟨k.val / 32, by omega⟩
  if hplace : k.val % 32 < 4 then
    byteOfWord entry.header ⟨k.val % 32, hplace⟩
  else entry.name ⟨k.val % 32 - 4, by omega⟩

theorem FsDirent.header_toNat (entry : FsDirent) :
    entry.header.toNat = entry.valid.toNat + 2 * entry.inode.toNat := by
  have hinode := entry.inode.isLt
  have hvalid := entry.valid.toNat_lt
  simp only [header, UInt32.toNat_ofNat']
  omega

@[simp] theorem Directory.decode_encode (dir : Directory) :
    Directory.decode dir.encode = dir := by
  funext slot
  have hheader : (wordOfBytes fun place =>
      dir.encode ⟨32 * slot.val + place.val, by omega⟩) =
        (dir slot).header := by
    conv_rhs => rw [← wordOfBytes_byteOfWord (dir slot).header]
    congr 1
    funext place
    have hdiv : (32 * slot.val + place.val) / 32 = slot.val := by omega
    have hmod : (32 * slot.val + place.val) % 32 = place.val := by omega
    have hplace := place.isLt
    simp only [encode, hdiv, hmod, hplace, ↓reduceDIte]
  have hvalid := (dir slot).valid.toNat_lt
  have hinode := (dir slot).inode.isLt
  apply FsDirent.ext
  · simp only [decode, hheader, FsDirent.header_toNat]
    cases (dir slot).valid <;> simp [Nat.add_mod]
  · simp only [decode, hheader, FsDirent.header_toNat]
    apply BitVec.eq_of_toNat_eq
    rw [BitVec.toNat_ofNat]
    omega
  · funext j
    have hdiv : (32 * slot.val + 4 + j.val) / 32 = slot.val := by omega
    have hmod : (32 * slot.val + 4 + j.val) % 32 = 4 + j.val := by omega
    simp only [decode, encode, hdiv, hmod]
    simp

/-- No bit of a directory block is lost in its entries. -/
@[simp] theorem Directory.encode_decode (block : Block) :
    Directory.encode (Directory.decode block) = block := by
  funext k
  rw [encode]
  by_cases hplace : k.val % 32 < 4
  · rw [dif_pos hplace]
    have hheader : (Directory.decode block ⟨k.val / 32, by omega⟩).header =
        wordOfBytes fun place =>
          block ⟨32 * (k.val / 32) + place.val, by omega⟩ := by
      apply UInt32.toNat_inj.mp
      rw [FsDirent.header_toNat]
      simp only [decode, BitVec.toNat_ofNat]
      generalize (wordOfBytes fun place : Fin 4 =>
        block ⟨32 * (k.val / 32) + place.val, by omega⟩) = word
      have hlt := word.toNat_lt
      rcases Nat.mod_two_eq_zero_or_one word.toNat with hbit | hbit
      · simp only [hbit, show ((0 : Nat) == 1) = false from rfl,
          Bool.toNat_false]
        omega
      · simp only [hbit, beq_self_eq_true, Bool.toNat_true]
        omega
    rw [hheader, byteOfWord_wordOfBytes]
    congr 1
    apply Fin.ext
    simp only
    omega
  · rw [dif_neg hplace, decode]
    simp only
    congr 1
    apply Fin.ext
    simp only
    omega

theorem Directory.decode_zeroBlock_valid (slot : Fin 128) :
    (Directory.decode zeroBlock slot).valid = false := by
  simp [decode, zeroBlock, wordOfBytes]

theorem Directory.decode_zeroBlock_name (slot : Fin 128) (j : Fin 28) :
    (Directory.decode zeroBlock slot).name j = 0 := rfl

/-! `S_ISDIR` and `S_ISREG`. -/

def sIfmt : UInt32 := 0o170000
def sIfdir : UInt32 := 0o040000
def sIfreg : UInt32 := 0o100000

def sIsDir (mode : UInt32) : Bool := mode &&& sIfmt == sIfdir

def sIsReg (mode : UInt32) : Bool := mode &&& sIfmt == sIfreg

theorem sIsReg_of_sIsDir {mode : UInt32} (hdir : sIsDir mode = true) :
    sIsReg mode = false := by
  rw [sIsDir, beq_iff_eq] at hdir
  rw [sIsReg, hdir]
  decide

theorem sIsDir_of_sIsReg {mode : UInt32} (hreg : sIsReg mode = true) :
    sIsDir mode = false := by
  rw [sIsReg, beq_iff_eq] at hreg
  rw [sIsDir, hreg]
  decide

/-- Blocks in use by `size` bytes, in the arithmetic of `int`:
`(size / FS_BLOCK_SIZE) + ((size % FS_BLOCK_SIZE > 0) ? 1 : 0)`. -/
def sizeInBlocks (size : Int) : Int :=
  size.tdiv 4096 + if size.tmod 4096 > 0 then 1 else 0

/-- The same count as a ceiling. -/
def blockCount (size : Nat) : Nat := (size + 4095) / 4096

theorem sizeInBlocks_natCast (size : Nat) :
    sizeInBlocks size = blockCount size := by
  rw [sizeInBlocks, blockCount, Int.tdiv_eq_ediv_of_nonneg (by omega),
    Int.tmod_eq_emod_of_nonneg (by omega)]
  split <;> omega

/-! Error numbers. -/

def eNoEnt : Int := 2
def eIo : Int := 5
def eNoMem : Int := 12
def eExist : Int := 17
def eNotDir : Int := 20
def eIsDir : Int := 21
def eInval : Int := 22
def eNoSpc : Int := 28
def eNotEmpty : Int := 39

end Fs5600
