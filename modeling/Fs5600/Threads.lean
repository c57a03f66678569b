/-
Requests that are served side by side: `fuse_main` is called without `-s`.  A
step is one `block_read`, one `block_write`, or a run of code between two such
calls.  Buffers belong to their thread, and the global variables to all.
-/
import Fs5600.Lib.Interleaving
import Fs5600.Reachability

namespace Fs5600

open MachineWord EffectProgram Program

def Access.inMemory : Access → Bool
  | .load | .store _ => true
  | .read _ | .write _ _ => false

/-- `handle` for threads that share the globals.  Block 1 is stored from the
array `bitmap` itself, so what is stored is what the array holds by then. -/
def handleShared : Handler Access Access.Reply World
  | .write buf lba, world =>
      handle (.write (if lba = 1 then world.globals.bitmap else buf) lba)
        world
  | query, world => handle query world

/-- The code ahead is a search for free blocks. -/
def Searching (code : Fs Reply) : Prop :=
  ∃ n next, 0 < n ∧ code = findFirstNfreeBlocks 0 n >>= next

def SameBitmap (world world' : World) : Prop :=
  world'.globals.bitmap = world.globals.bitmap

/-- One step of one request. -/
abbrev advance (code : Fs Reply) (world : World) :
    Option (Fs Reply × World) :=
  code.step handleShared Access.inMemory world

/-- Two requests take steps in the order of the schedule. -/
abbrev serveTogether (schedule : List Bool) (requests : Bool → Request)
    (world : World) : Option ((Bool → Fs Reply) × World) :=
  interleave handleShared Access.inMemory schedule
    (fun i => (requests i).perform) world

/-- Neither request searches for free blocks while the other one has found
blocks that it has not marked yet. -/
abbrev SearchesApart (schedule : List Bool) (requests : Bool → Request)
    (world : World) : Prop :=
  Apart handleShared Access.inMemory Searching SameBitmap schedule
    (fun i => (requests i).perform) world fun _ => False

/-! Single queries. -/

section

variable {world : World} {b : Nat}

theorem handle_read {lba : Int} (hnever : world.device.readFails = never)
    (hseek : seekBlock lba = some b) (hsize : b < world.device.size) :
    handle (.read lba) world = some (some (world.disk b), world) := by
  rcases world with ⟨⟨disk, size, readFails, writeFails⟩, globals⟩
  subst hnever
  simp only at hsize
  simp [handle, Device.blockRead, hseek, hsize, never_shift]

theorem handleShared_read (hnever : world.device.readFails = never)
    (hsize : b < world.device.size) (hb : b < 32768) :
    handleShared (.read b) world = some (some (world.disk b), world) := by
  have hseek : seekBlock b = some b := seekBlock_natCast (by omega)
  rw [handleShared]
  · exact handle_read hnever hseek hsize
  · exact fun _ _ => Access.noConfusion

theorem handle_write (buf : Block)
    (hnever : world.device.writeFails = never) (hpos : 0 < b)
    (hsize : b < world.device.size) (hb : b < 32768) :
    handle (.write buf b) world = some (true, world.put b buf) := by
  have hprod : toInt32 ((b : Int) * 4096) = b * 4096 :=
    toInt32_of_lt (by omega) (by omega)
  have hend : ¬ toInt32 (toInt32 ((b : Int) * 4096) + 4096) < 0 := by
    rw [hprod, toInt32_of_lt (by omega) (by omega)]
    omega
  have hseek : seekBlock b = some b := seekBlock_natCast (by omega)
  have hlba : b ≠ 0 := by omega
  rcases world with ⟨⟨disk, size, readFails, writeFails⟩, globals⟩
  subst hnever
  simp only at hsize
  simp [handle, Device.blockWrite, hlba, hend, hseek, Device.store, hsize,
    never_shift, World.put]

theorem handleShared_write (buf : Block)
    (hnever : world.device.writeFails = never) (hpos : 1 < b)
    (hsize : b < world.device.size) (hb : b < 32768) :
    handleShared (.write buf b) world = some (true, world.put b buf) := by
  rw [handleShared, if_neg (by omega)]
  exact handle_write buf hnever (by omega) hsize hb

theorem handleShared_sync (buf : Block)
    (hnever : world.device.writeFails = never)
    (hsize : 1 < world.device.size) :
    handleShared (.write buf 1) world =
      some (true, world.put 1 world.globals.bitmap) := by
  rw [handleShared, if_pos rfl]
  exact handle_write (b := 1) _ hnever Nat.one_pos hsize (by omega)

end

end Fs5600
