/-
Writes past the largest file size: the pointers of the inode end at 1019, and
only the lack of free blocks keeps `fs_write` inside them.
-/
import Fs5600.Frame

namespace Fs5600

open MachineWord EffectProgram Program

/-- `fs_write` stays inside `inode.ptrs`, and refuses what does not fit. -/
structure WithinArray (world : World) (ctx : Context) (path : CString)
    (buf : List UInt8) (offset : Int) : Prop where
  defined : run (fsWrite ctx path buf offset) world ≠ none
  refuses : 4173824 < offset + buf.length →
    ∃ status < 0, run (fsWrite ctx path buf offset) world =
      some (.error status, world)

/-- Storing more pointers than the array takes is undefined. -/
theorem run_storePtrs_none (blocks : List Nat) (inode : FsInode)
    {start : Nat} (hstart : start ≤ 1019)
    (hover : 1019 < start + blocks.length) (world : World) :
    run (storePtrs inode blocks start) world = none := by
  induction blocks generalizing inode start with
  | nil =>
      rw [List.length_nil] at hover
      omega
  | cons block blocks ih =>
      rw [List.length_cons] at hover
      rw [storePtrs]
      by_cases hlt : start < 1019
      · rw [dif_pos ⟨Int.natCast_nonneg start, by omega⟩]
        have hover' : 1019 < start + 1 + blocks.length := by omega
        exact ih (inode.setPtr ⟨start, hlt⟩ block) (Nat.succ_le_of_lt hlt)
          hover'
      · rw [dif_neg (by omega)]
        rfl

section

variable {world : World} (hsteady : Steady world)

include hsteady

/-- A reservation that succeeds and does not fit runs over the array. -/
theorem Steady.run_reserveBlocks_none (inode : FsInode) {count total : Nat}
    (hcount : count ≤ 1019) (htotal : 1019 < total) {fresh : List Nat}
    (hfree : lowestFree world.globals.bitmap world.disk.diskSize
      (total - count) = some fresh) :
    run (reserveBlocks inode count ((total : Int) - count)) world = none := by
  have hmount := hsteady.toMounted
  have hlength := (lowestFree_eq_some hfree).1
  have hrange : ∀ b ∈ fresh, b < world.disk.diskSize := fun b hb =>
    (hmount.usable_of_lowestFree hfree b hb).2.1
  have hfind := hmount.run_findFirstNfreeBlocks (total - count)
  rw [hfree] at hfind
  have hneeded : ((total : Int) - count).toNat = total - count := by omega
  have hmark := hmount.performs_modifyBitmap hrange true rfl rfl
  rw [Performs, commit_healthy hsteady.writes] at hmark
  rw [reserveBlocks, if_pos (by omega), hneeded, run_bind_ok hfind,
    run_bind_ok hmark]
  exact run_storePtrs_none fresh inode hcount (by omega) _

/-- A write past the largest size fails for want of blocks, or runs over the
array. -/
theorem Steady.run_fsWrite_over {path : CString} {site : List Slot}
    {inum : Nat}
    (hresolve : world.disk.resolve (parse path) = .ok (site, inum))
    (hreg : (world.disk.inode inum).isReg = true) (ctx : Context)
    {buf : List UInt8} (hbuf : 1 ≤ buf.length) {offset : Nat}
    (hinside : offset ≤ (world.disk.inode inum).length)
    (hover : 4173824 < offset + buf.length)
    (hlt : offset + buf.length < 2147483648) :
    run (fsWrite ctx path buf offset) world =
      match lowestFree (world.disk 1) world.disk.diskSize
          (blockCount (offset + buf.length) -
            blockCount (world.disk.inode inum).length) with
      | none => some (.error (-eNoSpc), world)
      | some _ => none := by
  have hmount := hsteady.toMounted
  have hobject := hmount.consistent.object _ _ _
    (Disk.node_of_resolve hresolve)
  have hcount := hobject.blockCount_le
  have htotal : 1019 < blockCount (offset + buf.length) := by
    rw [blockCount]
    omega
  obtain ⟨hstart, hoff, hlast⟩ := writeRange_eq offset hbuf hlt
  have hneeded := blksNeeded_eq offset hbuf hlt hcount
  rw [fsWrite, run_bind_ok (hmount.run_target hresolve)]
  dsimp only
  rw [run_rejectIf_bind, if_neg (not_not.mpr hreg), hobject.size_eq,
    run_rejectIf_bind, if_neg (by omega)]
  simp only [sizeInBlocks_natCast, hstart, hoff, hlast, hneeded]
  rw [← hmount.bitmap]
  cases hfree : lowestFree world.globals.bitmap world.disk.diskSize
      (blockCount (offset + buf.length) -
        blockCount (world.disk.inode inum).length) with
  | none => exact run_bind_error (hmount.run_reserveBlocks_fail _ hfree)
  | some fresh =>
      exact run_bind_none
        (hsteady.run_reserveBlocks_none _ hcount htotal hfree)

end

/-- `fs_write` stays inside the array exactly when the end of the write is a
possible file size, or the free blocks do not suffice. -/
theorem write_within_array_iff {world : World} (hreach : Reachable world)
    {path : CString} {inum : Int} {inode : FsInode}
    (hfound : run (pathToInode path 0) world =
      some (.ok (inum, inode), world))
    (hreg : sIsReg inode.mode = true) (ctx : Context) {buf : List UInt8}
    (hbuf : 1 ≤ buf.length) {offset : Int} (hoffset : 0 ≤ offset)
    (hinside : offset ≤ inode.size.toInt)
    (hlt : offset + buf.length < 2147483648) :
    WithinArray world ctx path buf offset ↔
      offset + buf.length ≤ 4173824 ∨
        (freeCount (world.disk 1) world.disk.diskSize : Int) <
          sizeInBlocks (offset + buf.length) -
            sizeInBlocks inode.size.toInt := by
  have hsteady := hreach.steady
  have hmount := hsteady.toMounted
  obtain ⟨site, i, hresolve, rfl, rfl, -⟩ := hmount.resolve_of_run hfound
  obtain ⟨o, rfl⟩ := Int.eq_ofNat_of_zero_le hoffset
  have hobject := hmount.consistent.object _ _ _
    (Disk.node_of_resolve hresolve)
  have hsize := hobject.size_eq
  have hcount := hobject.blockCount_le
  have hstop : sizeInBlocks ((o : Int) + buf.length) =
      blockCount (o + buf.length) := sizeInBlocks_natCast (o + buf.length)
  rw [hstop, hobject.sizeInBlocks_eq]
  by_cases hfits : (o : Int) + buf.length ≤ 4173824
  · refine iff_of_true ⟨?_, fun hover => ?_⟩ (Or.inl hfits)
    · rw [hsteady.run_follows (hmount.follows_write ctx path hbuf hoffset
        hfits)]
      exact Option.some_ne_none _
    · exact absurd hfits (not_le.mpr hover)
  · have htotal : 1019 < blockCount (o + buf.length) := by
      rw [blockCount]
      omega
    have hrun := hsteady.run_fsWrite_over hresolve hreg ctx hbuf
      (show o ≤ _ by omega) (by omega) (by omega)
    cases hfree : lowestFree (world.disk 1) world.disk.diskSize
        (blockCount (o + buf.length) -
          blockCount (world.disk.inode i).length) with
    | none =>
        rw [hfree] at hrun
        have hfew := lowestFree_eq_none.mp hfree
        refine iff_of_true ⟨?_, fun _ => ⟨_, by decide, hrun⟩⟩
          (Or.inr (by omega))
        rw [hrun]
        exact Option.some_ne_none _
    | some fresh =>
        rw [hfree] at hrun
        have hmany : ¬ freeCount (world.disk 1) world.disk.diskSize <
            blockCount (o + buf.length) -
              blockCount (world.disk.inode i).length := by
          rw [← lowestFree_eq_none, hfree]
          exact Option.some_ne_none fresh
        refine iff_of_false (fun hwithin => hwithin.defined hrun) ?_
        rintro (hle | hless)
        · exact hfits hle
        · omega

theorem write_within_array_iff_sample :
    WithinArray (Sample.world 400 zeroBlock).boot Sample.context
        Sample.pathA [1, 2, 3] 4094 ↔
      (4094 : Int) + [1, 2, 3].length ≤ 4173824 ∨
        (freeCount ((Sample.world 400 zeroBlock).boot.disk 1)
          (Sample.world 400 zeroBlock).boot.disk.diskSize : Int) <
          sizeInBlocks (4094 + [1, 2, 3].length) -
            sizeInBlocks (Sample.fileInode 5000 5 6).size.toInt :=
  write_within_array_iff
    (Sample.reachable 400 zeroBlock (by decide) (by decide))
    (Sample.run_pathA 400 zeroBlock (by decide) (by decide))
    (Sample.fileInode_isReg 5000 5 6) Sample.context (by decide)
    (by decide) (by decide) (by decide)

/-- On a disk of 2000 blocks, 1020 blocks of zeros written to the sample's `a`
leave the array. -/
theorem write_leaves_array :
    ¬ ∀ world path inum inode ctx (buf : List UInt8) offset,
      Reachable world →
      run (pathToInode path 0) world = some (.ok (inum, inode), world) →
      sIsReg inode.mode = true → 1 ≤ buf.length → 0 ≤ offset →
      offset ≤ inode.size.toInt → offset + buf.length < 2147483648 →
      WithinArray world ctx path buf offset := by
  intro hall
  have hsteady := Sample.steady 2000 zeroBlock (by decide) (by decide)
  have hlength : (List.replicate 4177920 (0 : UInt8)).length = 4177920 :=
    List.length_replicate
  have hinode : (Sample.world 2000 zeroBlock).boot.disk.inode 4 =
      Sample.fileInode 5000 5 6 := Sample.inode_a 2000 zeroBlock
  have hreg : ((Sample.world 2000 zeroBlock).boot.disk.inode 4).isReg =
      true := by
    rw [hinode]
    exact Sample.fileInode_isReg 5000 5 6
  have hbuf : 1 ≤ (List.replicate 4177920 (0 : UInt8)).length := by
    rw [hlength]
    decide
  have hrun := hsteady.run_fsWrite_over
    (Sample.resolve_a 2000 zeroBlock (by decide) (by decide)) hreg
    Sample.context hbuf (Nat.zero_le _) (by rw [hlength]; decide)
    (by rw [hlength]; decide)
  have hfree : freeCount ((Sample.world 2000 zeroBlock).boot.disk 1)
      (Sample.world 2000 zeroBlock).boot.disk.diskSize = 1990 := by
    rw [show (Sample.world 2000 zeroBlock).boot.disk.diskSize = 2000 from
      Sample.diskSize 2000 zeroBlock]
    decide +kernel
  have hwithin := hall _ _ _ _ Sample.context (List.replicate 4177920 0) 0
    (Sample.reachable 2000 zeroBlock (by decide) (by decide))
    (Sample.run_pathA 2000 zeroBlock (by decide) (by decide))
    (Sample.fileInode_isReg 5000 5 6) hbuf le_rfl (by decide)
    (by rw [hlength]; decide)
  apply hwithin.defined
  rw [hlength, hinode] at hrun
  cases hblocks : lowestFree ((Sample.world 2000 zeroBlock).boot.disk 1)
      (Sample.world 2000 zeroBlock).boot.disk.diskSize
      (blockCount (0 + 4177920) -
        blockCount (Sample.fileInode 5000 5 6).length) with
  | none =>
      rw [lowestFree_eq_none, hfree] at hblocks
      exact absurd hblocks (by decide)
  | some fresh =>
      rw [hblocks] at hrun
      exact hrun

end Fs5600
