/-
Block allocation of `homework.c`: the scan for clear bits, the update of the
bitmap in memory and on disk, and the free block counters.
-/
import Fs5600.Device
import Fs5600.Bitmap

namespace Fs5600

open MachineWord EffectProgram Program

/-- The loop of `find_first_nfree_blocks` over the block numbers still to be
tested.  The loop ends with the count, so a test past the bitmap's 4096 bytes
needs a larger `disk_size`. -/
def findFreeLoop (map : Block) : List Nat → Nat → Fs (List Nat)
  | _, 0 => pure []
  | [], _ + 1 => .exit (-eNoSpc)
  | blkIdx :: rest, n + 1 => do
      require (blkIdx < 32768)
      if bitTest map blkIdx = 0 then
        let found ← findFreeLoop map rest n
        pure (blkIdx :: found)
      else findFreeLoop map rest (n + 1)

def findFirstNfreeBlocks (startIdx n : Nat) : Fs (List Nat) := do
  let globals ← loadGlobals
  findFreeLoop globals.bitmap
    (List.range' startIdx (globals.superblock.diskSize.toNat - startIdx)) n

def Globals.setBitmap (map : Block) (globals : Globals) : Globals :=
  { globals with bitmap := map }

/-- `modify_bitmap_and_writeback_to_disk`; a bit outside the array is out of
bounds. -/
def modifyBitmapAndWritebackToDisk (blocks : List Int) (setFlag : Bool) :
    Fs Unit := do
  require (∀ i ∈ blocks, 0 ≤ i ∧ i < 32768)
  modifyGlobals fun globals =>
    if setFlag then
      globals.setBitmap (bitSetAll globals.bitmap (blocks.map Int.toNat))
    else globals.setBitmap (bitClearAll globals.bitmap (blocks.map Int.toNat))
  let globals ← loadGlobals
  blockWrite globals.bitmap 1

/-- `f_bfree = f_bfree + delta` and the same for `f_bavail`, in the unsigned
64-bit arithmetic of `fsblkcnt_t`. -/
def Globals.addFree (delta : Int) (globals : Globals) : Globals :=
  { globals with statVfs :=
      { globals.statVfs with
        bfree := .ofNat (toSize (globals.statVfs.bfree.toNat + delta)).toNat
        bavail :=
          .ofNat (toSize (globals.statVfs.bavail.toNat + delta)).toNat } }

/-- The `n` lowest clear bits below `limit`, if there are as many. -/
def lowestFree (map : Block) (limit n : Nat) : Option (List Nat) :=
  let free := (List.range limit).filter fun i => bitTest map i = 0
  if n ≤ free.length then some (free.take n) else none

theorem freeCount_eq_length (map : Block) (limit : Nat) :
    freeCount map limit =
      ((List.range limit).filter fun i => bitTest map i = 0).length :=
  List.countP_eq_length_filter

theorem lowestFree_eq_none {map : Block} {limit n : Nat} :
    lowestFree map limit n = none ↔ freeCount map limit < n := by
  simp only [lowestFree, freeCount_eq_length]
  split
  · simp; omega
  · simp; omega

@[simp] theorem lowestFree_zero (map : Block) (limit : Nat) :
    lowestFree map limit 0 = some [] := by
  simp [lowestFree]

/-- What an allocation hands out: fresh blocks, each once. -/
theorem lowestFree_eq_some {map : Block} {limit n : Nat}
    {blocks : List Nat} (hfound : lowestFree map limit n = some blocks) :
    blocks.length = n ∧ blocks.Nodup ∧
      ∀ i ∈ blocks, i < limit ∧ ¬ Marked map i := by
  simp only [lowestFree] at hfound
  split at hfound
  next hle =>
    cases hfound
    refine ⟨List.length_take_of_le hle, ?_, ?_⟩
    · exact (List.nodup_range.filter _).sublist (List.take_sublist _ _)
    · intro i hi
      have hmem := List.mem_of_mem_take hi
      simpa [Marked] using hmem
  next => cases hfound

theorem run_findFreeLoop (map : Block) (blocks : List Nat) (n : Nat)
    (hlt : ∀ i ∈ blocks, i < 32768) (world : World) :
    run (findFreeLoop map blocks n) world =
      some (if n ≤ (blocks.filter fun i => bitTest map i = 0).length then
          .ok ((blocks.filter fun i => bitTest map i = 0).take n)
        else .error (-eNoSpc), world) := by
  induction blocks generalizing n with
  | nil =>
      cases n with
      | zero => rfl
      | succ n => rfl
  | cons blkIdx rest ih =>
      cases n with
      | zero => simp [findFreeLoop]
      | succ n =>
          have hrest : ∀ i ∈ rest, i < 32768 := fun i hi =>
            hlt i (List.mem_cons_of_mem blkIdx hi)
          rw [findFreeLoop, run_require_bind,
            if_pos (hlt blkIdx List.mem_cons_self)]
          by_cases hfree : bitTest map blkIdx = 0
          · have hrun := ih n hrest
            rw [if_pos hfree, List.filter_cons_of_pos (by simpa using hfree),
              List.length_cons, List.take_succ_cons]
            split at hrun
            next hle =>
              rw [run_bind_ok hrun, if_pos (Nat.succ_le_succ hle)]
              rfl
            next hgt =>
              rw [run_bind_error hrun,
                if_neg fun hle => hgt (Nat.le_of_succ_le_succ hle)]
          · rw [if_neg hfree, List.filter_cons_of_neg (by simpa using hfree)]
            exact ih (n + 1) hrest

/-- `find_first_nfree_blocks(0, n)` yields the lowest clear positions. -/
theorem run_findFirstNfreeBlocks {world : World} (n : Nat)
    (hsize : world.globals.superblock.diskSize.toNat ≤ 32768) :
    run (findFirstNfreeBlocks 0 n) world =
      some (match lowestFree world.globals.bitmap
          world.globals.superblock.diskSize.toNat n with
        | none => .error (-eNoSpc)
        | some blocks => .ok blocks, world) := by
  have hlt : ∀ i ∈ List.range world.globals.superblock.diskSize.toNat,
      i < 32768 := fun i hi => (List.mem_range.mp hi).trans_le hsize
  rw [findFirstNfreeBlocks, run_bind_ok (run_loadGlobals world), Nat.sub_zero,
    ← List.range_eq_range', run_findFreeLoop _ _ _ hlt, lowestFree]
  split <;> simp_all

@[simp] theorem Globals.setBitmap_bitmap (map : Block) (globals : Globals) :
    (globals.setBitmap map).bitmap = map := rfl

@[simp] theorem Globals.setBitmap_statVfs (map : Block) (globals : Globals) :
    (globals.setBitmap map).statVfs = globals.statVfs := rfl

@[simp] theorem Globals.addFree_bitmap (delta : Int) (globals : Globals) :
    (globals.addFree delta).bitmap = globals.bitmap := rfl

/-- Sums of `fsblkcnt_t` wrap around as sums do. -/
theorem addFree_word (count : UInt64) (delta delta' : Int) :
    toSize ((UInt64.ofNat (toSize (count.toNat + delta)).toNat).toNat +
      delta') = toSize (count.toNat + delta + delta') := by
  have hlow : 0 ≤ toSize (count.toNat + delta) := by
    rw [toSize]
    omega
  have hword : ((UInt64.ofNat (toSize (count.toNat + delta)).toNat).toNat :
      Int) = toSize (count.toNat + delta) := by
    rw [UInt64.toNat_ofNat', toSize] at *
    omega
  rw [hword, toSize, toSize, toSize, Int.emod_add_emod]

theorem Globals.addFree_addFree (globals : Globals) (delta delta' : Int) :
    (globals.addFree delta).addFree delta' =
      globals.addFree (delta + delta') := by
  simp only [addFree, addFree_word, Int.add_assoc]

theorem Globals.addFree_statVfs {globals globals' : Globals}
    (hsame : globals.statVfs = globals'.statVfs) (delta : Int) :
    (globals.addFree delta).statVfs = (globals'.addFree delta).statVfs := by
  simp only [addFree, hsame]

theorem Globals.addFree_comm (globals : Globals) (delta delta' : Int) :
    (globals.addFree delta).addFree delta' =
      (globals.addFree delta').addFree delta := by
  rw [addFree_addFree, addFree_addFree, Int.add_comm]

theorem addFree_natCast (count : UInt64) (n : Nat) :
    UInt64.ofNat (toSize (count.toNat + n)).toNat = count + .ofNat n := by
  apply UInt64.toNat_inj.mp
  rw [UInt64.toNat_ofNat', UInt64.toNat_add, UInt64.toNat_ofNat', toSize]
  omega

theorem addFree_neg (count : UInt64) (n : Nat) :
    UInt64.ofNat (toSize (count.toNat + -(n : Int))).toNat =
      count - .ofNat n := by
  have hlt := count.toNat_lt
  apply UInt64.toNat_inj.mp
  rw [UInt64.toNat_ofNat', UInt64.toNat_sub, UInt64.toNat_ofNat', toSize]
  omega

end Fs5600
