/-
The disk image behind `misc.c`, the globals of `homework.c`, and the queries
through which the file system code reaches both.  The device carries the
future of its own failures, so one semantics covers healthy and faulty runs.
-/
import Fs5600.Lib.EffectProgram
import Fs5600.Format
import Mathlib.Logic.Function.Basic

namespace Fs5600

open MachineWord EffectProgram

/-- The contents of a disk by block number. -/
abbrev Disk := Nat → Block

/-- The image file: `size` whole blocks.  `readFails n` says whether the
`n`-th coming `block_read` fails, `writeFails n` the same for `block_write`. -/
structure Device where
  disk : Disk
  size : Nat
  readFails : Nat → Bool
  writeFails : Nat → Bool

def never : Nat → Bool := fun _ => false

@[simp] theorem never_apply (n : Nat) : never n = false := rfl

/-- The future of a device that never fails, after one more access. -/
theorem never_shift : (fun _ => false) = never := rfl

/-- No access fails for a reason outside the image. -/
def Device.Healthy (device : Device) : Prop :=
  device.readFails = never ∧ device.writeFails = never

/-- The block at which `lseek(disk_fd, lba * FS_BLOCK_SIZE, SEEK_SET)` leaves
the file offset; the product is an `int`. -/
def seekBlock (lba : Int) : Option Nat :=
  if toInt32 (lba * 4096) < 0 then none
  else some ((toInt32 (lba * 4096)).toNat / 4096)

/-- `block_read(buf, lba, 1)`: the block, or `none` for `-EIO`. -/
def Device.blockRead (device : Device) (lba : Int) : Option Block × Device :=
  let device' :=
    { device with readFails := fun n => device.readFails (n + 1) }
  if device.readFails 0 then (none, device')
  else match seekBlock lba with
    | none => (none, device')
    | some b => (if b < device.size then some (device.disk b) else none,
        device')

/-- Storing a block; a store past the end of the file fills the gap with
zeros. -/
def Device.store (device : Device) (b : Nat) (buf : Block) : Device :=
  if b < device.size then
    { device with disk := Function.update device.disk b buf }
  else
    { device with
      disk := fun i =>
        if i = b then buf
        else if i < device.size then device.disk i else zeroBlock
      size := b + 1 }

/-- `block_write(buf, lba, 1)`: whether it succeeds.  The assertion on `lba`
stops the process, which no caller survives. -/
def Device.blockWrite (device : Device) (buf : Block) (lba : Int) :
    Option (Bool × Device) :=
  let device' :=
    { device with writeFails := fun n => device.writeFails (n + 1) }
  if lba ≤ 0 then none
  else if device.writeFails 0 then some (false, device')
  else if toInt32 (toInt32 (lba * 4096) + 4096) < 0 then some (false, device')
  else match seekBlock lba with
    | none => some (false, device')
    | some b => some (true, device'.store b buf)

/-- The fields of `struct statvfs` that are set. -/
structure StatVfs where
  bsize : UInt64
  blocks : UInt64
  bfree : UInt64
  bavail : UInt64
  namemax : UInt64
deriving Repr, DecidableEq

/-- The global variables of `homework.c`. -/
structure Globals where
  superblock : FsSuper
  rootInode : FsInode
  bitmap : Block
  statVfs : StatVfs

structure World where
  device : Device
  globals : Globals

inductive Access where
  | read (lba : Int)
  | write (buf : Block) (lba : Int)
  | load
  | store (globals : Globals)

abbrev Access.Reply : Access → Type
  | .read _ => Option Block
  | .write _ _ => Bool
  | .load => Globals
  | .store _ => Unit

def handle : Handler Access Access.Reply World
  | .read lba, world =>
      let (reply, device) := world.device.blockRead lba
      some (reply, { world with device := device })
  | .write buf lba, world =>
      (world.device.blockWrite buf lba).map fun (reply, device) =>
        (reply, { world with device := device })
  | .load, world => some (world.globals, world)
  | .store globals, world => some ((), { world with globals := globals })

/-- File system code.  Leaving early is `return status;` with a negative
status, in a function and in all of its callers. -/
abbrev Fs := Program Access Access.Reply Int

abbrev run {A : Type} (code : Fs A) (world : World) : Outcome Int A World :=
  code.exec handle world

/-! The rules of the query language for file system code. -/

section

variable {A B : Type} {code : Fs A} {next : A → Fs B} {world world' : World}

theorem run_bind_ok {value : A}
    (hrun : run code world = some (.ok value, world')) :
    run (code >>= next) world = run (next value) world' :=
  Program.exec_bind_ok hrun

theorem run_bind_error {status : Int}
    (hrun : run code world = some (.error status, world')) :
    run (code >>= next) world = some (.error status, world') :=
  Program.exec_bind_error hrun

theorem run_bind_none (hrun : run code world = none) :
    run (code >>= next) world = none :=
  Program.exec_bind_none hrun

theorem run_rejectIf_bind (test : Prop) [Decidable test] (status : Int)
    (next : Unit → Fs B) (world : World) :
    run (Program.rejectIf test status >>= next) world =
      if test then some (.error status, world) else run (next ()) world :=
  Program.exec_rejectIf_bind test status next world

theorem run_require_bind (test : Prop) [Decidable test]
    (next : Unit → Fs B) (world : World) :
    run (Program.require test >>= next) world =
      if test then run (next ()) world else none :=
  Program.exec_require_bind test next world

theorem run_attempt {result : Except Int A}
    (hrun : run code world = some (result, world')) :
    run code.attempt world = some (.ok result, world') := by
  rw [run, Program.exec_attempt, show code.exec handle world = _ from hrun]
  rfl

end

/-- `if ((status = block_read(buf, lba, 1)) < 0) return status;` -/
def blockRead (lba : Int) : Fs Block :=
  .call (.read lba) fun
    | some block => .ret block
    | none => .exit (-eIo)

/-- `if ((status = block_write(buf, lba, 1)) < 0) return status;` -/
def blockWrite (buf : Block) (lba : Int) : Fs Unit :=
  .call (.write buf lba) fun
    | true => .ret ()
    | false => .exit (-eIo)

def loadGlobals : Fs Globals := .call .load .ret

def modifyGlobals (change : Globals → Globals) : Fs Unit :=
  .call .load fun globals => .call (.store (change globals)) .ret

abbrev World.disk (world : World) : Disk := world.device.disk

/-- The world after block `b` is overwritten. -/
def World.put (world : World) (b : Nat) (buf : Block) : World :=
  { world with device :=
      { world.device with disk := Function.update world.disk b buf } }

def World.modify (world : World) (change : Globals → Globals) : World :=
  { world with globals := change world.globals }

/-- The world after one `block_write` has been issued. -/
def World.issued (world : World) : World :=
  { world with device :=
      { world.device with
        writeFails := fun n => world.device.writeFails (n + 1) } }

section

variable (world : World) (b : Nat) (buf : Block) (change : Globals → Globals)

@[simp] theorem World.put_globals : (world.put b buf).globals =
    world.globals := rfl

@[simp] theorem World.put_disk : (world.put b buf).disk =
    Function.update world.disk b buf := rfl

@[simp] theorem World.put_size : (world.put b buf).device.size =
    world.device.size := rfl

@[simp] theorem World.put_readFails : (world.put b buf).device.readFails =
    world.device.readFails := rfl

@[simp] theorem World.put_writeFails : (world.put b buf).device.writeFails =
    world.device.writeFails := rfl

@[simp] theorem World.modify_globals : (world.modify change).globals =
    change world.globals := rfl

@[simp] theorem World.modify_device : (world.modify change).device =
    world.device := rfl

@[simp] theorem World.modify_disk : (world.modify change).disk =
    world.disk := rfl

@[simp] theorem World.issued_globals : world.issued.globals =
    world.globals := rfl

theorem World.issued_eq_self (hnever : world.device.writeFails = never) :
    world.issued = world := by
  rcases world with ⟨⟨disk, size, readFails, writeFails⟩, globals⟩
  subst hnever
  rfl

end

theorem seekBlock_natCast {b : Nat} (hb : b < 524288) :
    seekBlock b = some b := by
  have hprod : toInt32 ((b : Int) * 4096) = b * 4096 :=
    toInt32_of_lt (by omega) (by omega)
  have hnonneg : ¬ ((b : Int) * 4096 < 0) := by omega
  have hdiv : ((b : Int) * 4096).toNat / 4096 = b := by omega
  rw [seekBlock, hprod, if_neg hnonneg, hdiv]

@[simp] theorem run_loadGlobals (world : World) :
    run loadGlobals world = some (.ok world.globals, world) := rfl

@[simp] theorem run_modifyGlobals (change : Globals → Globals)
    (world : World) :
    run (modifyGlobals change) world =
      some (.ok (), world.modify change) := rfl

theorem run_blockRead_at {world : World} {lba : Int} {b : Nat}
    (hnever : world.device.readFails = never) (hseek : seekBlock lba = some b)
    (hsize : b < world.device.size) :
    run (blockRead lba) world = some (.ok (world.disk b), world) := by
  rcases world with ⟨⟨disk, size, readFails, writeFails⟩, globals⟩
  subst hnever
  simp only at hsize
  simp [blockRead, Program.exec, handle, Device.blockRead, hseek, hsize,
    never_shift]

theorem run_blockRead {world : World} {b : Nat}
    (hnever : world.device.readFails = never)
    (hsize : b < world.device.size) (hb : b < 32768) :
    run (blockRead b) world = some (.ok (world.disk b), world) :=
  run_blockRead_at hnever (seekBlock_natCast (by omega)) hsize

/-- A read that finds no block of the image returns `-EIO`. -/
theorem run_blockRead_fail {world : World} {lba : Int}
    (hnever : world.device.readFails = never)
    (hseek : ∀ b, seekBlock lba = some b → world.device.size ≤ b) :
    run (blockRead lba) world = some (.error (-eIo), world) := by
  rcases world with ⟨⟨disk, size, readFails, writeFails⟩, globals⟩
  subst hnever
  cases hb : seekBlock lba with
  | none =>
      simp [blockRead, Program.exec, handle, Device.blockRead, hb,
        never_shift]
  | some b =>
      have hsize : ¬ b < size := Nat.not_lt.mpr (hseek b hb)
      simp [blockRead, Program.exec, handle, Device.blockRead, hb, hsize,
        never_shift]

theorem run_blockWrite_at {world : World} {lba : Int} {b : Nat}
    (buf : Block) (hpos : ¬ lba ≤ 0)
    (hend : ¬ toInt32 (toInt32 (lba * 4096) + 4096) < 0)
    (hseek : seekBlock lba = some b) (hsize : b < world.device.size) :
    run (blockWrite buf lba) world =
      if world.device.writeFails 0 then some (.error (-eIo), world.issued)
      else some (.ok (), world.issued.put b buf) := by
  rcases world with ⟨⟨disk, size, readFails, writeFails⟩, globals⟩
  simp only at hsize
  cases hfail : writeFails 0 <;>
    simp [blockWrite, Program.exec, handle, Device.blockWrite, hpos, hfail,
      hend, hseek, Device.store, hsize, World.issued, World.put]

/-- A write inside the image either fails and leaves its block, or stores
the buffer. -/
theorem run_blockWrite {world : World} {b : Nat} (buf : Block)
    (hpos : 0 < b) (hsize : b < world.device.size) (hb : b < 32768) :
    run (blockWrite buf b) world =
      if world.device.writeFails 0 then some (.error (-eIo), world.issued)
      else some (.ok (), world.issued.put b buf) := by
  have hprod : toInt32 ((b : Int) * 4096) = b * 4096 :=
    toInt32_of_lt (by omega) (by omega)
  have hend : toInt32 ((b : Int) * 4096 + 4096) = b * 4096 + 4096 :=
    toInt32_of_lt (by omega) (by omega)
  refine run_blockWrite_at buf (by omega) ?_ (seekBlock_natCast (by omega))
    hsize
  rw [hprod, hend]
  omega

end Fs5600
