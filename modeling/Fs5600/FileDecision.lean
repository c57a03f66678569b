/-
The entry points that change the contents of files do what their plans say.
Writing reserves blocks first, then stores the inode, and fills a buffer from
the old first and last block before it stores the data.
-/
import Fs5600.Decision
import Fs5600.FileInode

namespace Fs5600

open MachineWord EffectProgram Program

theorem toInt32_natCast {n : Nat} (hlt : n < 2147483648) :
    toInt32 n = n :=
  toInt32_of_lt (by omega) (by omega)

/-! Truncation. -/

theorem Mounted.follows_truncate {world : World} (hmount : Mounted world)
    (path : CString) {len : Int} (hlen : len < 2147483648) :
    Follows (fsTruncate path len) world (world.planTruncate path len) := by
  rw [World.planTruncate]
  refine Follows.rejectIf fun hneg => ?_
  obtain ⟨n, rfl⟩ := Int.eq_ofNat_of_zero_le (Int.not_lt.mp hneg)
  cases hresolve : world.disk.resolve (parse path) with
  | error status => exact Follows.fail (hmount.run_target_error hresolve)
  | ok there =>
      obtain ⟨site, inum⟩ := there
      have hnode := Disk.node_of_resolve hresolve
      have hobject := hmount.consistent.object _ _ _ hnode
      have hrange := hmount.consistent.inode_range hnode
      refine Follows.read (hmount.run_target hresolve) ?_
      refine Follows.rejectIf fun _ => ?_
      have htarget : toInt32 (sizeInBlocks n) = blockCount n := by
        rw [sizeInBlocks_natCast]
        exact toInt32_natCast (by rw [blockCount]; omega)
      rw [hobject.sizeInBlocks_eq, htarget, Int.toNat_natCast]
      simp only [gt_iff_lt, Int.ofNat_lt]
      refine Follows.rejectIf fun hshort => ?_
      have hptr : ∀ k, k < blockCount (world.disk.inode inum).length →
          (world.disk.inode inum).ptr k < world.disk.diskSize :=
        fun k hk => (hmount.ptr_range hnode hk).2
      have hbound := hobject.blockCount_le
      have hcopy := run_copyPtrs (world.disk.inode inum)
        (blockCount (world.disk.inode inum).length - blockCount n)
        (blockCount n) (by omega)
        (fun k _ hk => (hptr k (by omega)).trans_le
          hmount.consistent.size_le) world
      have hcount : ((blockCount (world.disk.inode inum).length : Int) -
          blockCount n).toNat =
            blockCount (world.disk.inode inum).length - blockCount n := by
        omega
      rw [hcount]
      refine Performs.bind_read hcopy ?_
      refine Performs.bind_cons
        (hmount.performs_write _ (by omega) hrange.2.1 rfl) ?_
      have hdropped : ∀ b ∈ (world.disk.inode inum).dropped n,
          b < world.disk.diskSize := by
        intro b hb
        obtain ⟨k, _, hk, rfl⟩ := (FsInode.mem_dropped _ _).mp hb
        exact hptr k hk
      refine Performs.bind
        (hmount.performs_modifyBitmap hdropped false rfl rfl) ?_
      refine Performs.bind_cons (Performs.modify _ ?_) (Performs.pure 0 _)
      rw [FsInode.length_dropped, Int.ofNat_sub (by omega)]

/-! Reserving blocks. -/

theorem FsInode.placePtrs_cons (inode : FsInode) (block : Nat)
    (blocks : List Nat) {start : Nat} (hstart : start < 1019) :
    (inode.setPtr ⟨start, hstart⟩ block).placePtrs blocks (start + 1) =
      inode.placePtrs (block :: blocks) start := by
  have hptrs : ((inode.setPtr ⟨start, hstart⟩ block).placePtrs blocks
      (start + 1)).ptrs = (inode.placePtrs (block :: blocks) start).ptrs := by
    funext i
    simp only [FsInode.placePtrs, FsInode.setPtr]
    rcases Nat.lt_trichotomy i.val start with hlt | heq | hgt
    · have hne : i ≠ ⟨start, hstart⟩ := by
        rintro rfl
        exact Nat.lt_irrefl _ hlt
      rw [if_neg (by omega), if_neg (by omega), Function.update_of_ne hne]
    · have hi : i = ⟨start, hstart⟩ := Fin.ext heq
      subst hi
      simp
    · have hne : i ≠ ⟨start, hstart⟩ := by
        rintro rfl
        exact Nat.lt_irrefl _ hgt
      have hsub : i.val - start = i.val - (start + 1) + 1 := by omega
      rw [if_pos (by omega), if_pos (by omega), hsub, List.getElem?_cons_succ,
        Function.update_of_ne hne]
  exact FsInode.ext rfl rfl rfl rfl rfl rfl hptrs

theorem run_storePtrs (blocks : List Nat) (inode : FsInode) (start : Nat)
    (hbound : start + blocks.length ≤ 1019) (world : World) :
    run (storePtrs inode blocks start) world =
      some (.ok (inode.placePtrs blocks start), world) := by
  induction blocks generalizing inode start with
  | nil => simp [storePtrs, FsInode.placePtrs]
  | cons block blocks ih =>
      rw [List.length_cons] at hbound
      rw [storePtrs, dif_pos ⟨Int.natCast_nonneg start, by omega⟩]
      have hrest := ih (inode.setPtr ⟨start, by omega⟩ block) (start + 1)
        (by omega)
      rw [FsInode.placePtrs_cons] at hrest
      exact hrest

theorem Mounted.performs_reserveBlocks {world : World}
    (hmount : Mounted world) (inode : FsInode) {count total : Nat}
    (hcount : count ≤ 1019) (htotal : total ≤ 1019) {fresh : List Nat}
    (hfree : lowestFree world.globals.bitmap world.disk.diskSize
      (total - count) = some fresh) :
    Performs (reserveBlocks inode count ((total : Int) - count)) world
      (if fresh = [] then []
        else markEffects (bitSetAll world.globals.bitmap fresh))
      (inode.placePtrs fresh count) := by
  have hlength := (lowestFree_eq_some hfree).1
  have hrange : ∀ b ∈ fresh, b < world.disk.diskSize := fun b hb =>
    (hmount.usable_of_lowestFree hfree b hb).2.1
  rw [reserveBlocks]
  by_cases hneed : (total : Int) - count > 0
  · have hne : fresh ≠ [] := by
      rintro rfl
      rw [List.length_nil] at hlength
      omega
    have hneeded : ((total : Int) - count).toNat = total - count := by omega
    have hfind := hmount.run_findFirstNfreeBlocks (total - count)
    rw [hfree] at hfind
    rw [if_pos hneed, if_neg hne, hneeded]
    refine Performs.bind_read hfind ?_
    refine Performs.bind
      (hmount.performs_modifyBitmap hrange true rfl rfl) ?_
    exact Performs.of_read (run_storePtrs fresh inode count (by omega) _)
  · have hnil : fresh = [] := List.length_eq_zero_iff.mp (by omega)
    subst hnil
    rw [if_neg hneed, if_pos rfl]
    exact Performs.of_read
      (run_storePtrs [] inode count (by rw [List.length_nil]; omega) world)

/-! The buffer. -/

/-- `memcpy(dst + off, src, len)` inside a buffer. -/
def overlay (dst : List UInt8) (off : Nat) (src : List UInt8) : List UInt8 :=
  dst.take off ++ src ++ dst.drop (off + src.length)

theorem run_copyIn {dst src : List UInt8} (off : Nat)
    (hfit : off + src.length ≤ dst.length) (world : World) :
    run (copyIn dst off src) world =
      some (.ok (overlay dst off src), world) := by
  rw [copyIn, run_require_bind, if_pos (by omega)]
  rfl

theorem length_overlay {dst src : List UInt8} {off : Nat}
    (hfit : off + src.length ≤ dst.length) :
    (overlay dst off src).length = dst.length := by
  simp only [overlay, List.length_append, List.length_take, List.length_drop]
  omega

theorem getD_overlay {dst src : List UInt8} {off : Nat}
    (hfit : off + src.length ≤ dst.length) (i : Nat) :
    (overlay dst off src).getD i 0 =
      if off ≤ i ∧ i < off + src.length then src.getD (i - off) 0
      else dst.getD i 0 := by
  have htake : (dst.take off).length = off := List.length_take_of_le (by omega)
  simp only [overlay, List.getD_eq_getElem?_getD]
  rcases Nat.lt_or_ge i off with hlow | hlow
  · rw [if_neg (by omega), List.append_assoc,
      List.getElem?_append_left (by omega), List.getElem?_take_of_lt hlow]
  · rcases Nat.lt_or_ge i (off + src.length) with hmid | hhigh
    · rw [if_pos ⟨hlow, hmid⟩,
        List.getElem?_append_left (by rw [List.length_append]; omega),
        List.getElem?_append_right (by omega), htake]
    · rw [if_neg (by omega),
        List.getElem?_append_right (by rw [List.length_append]; omega),
        List.length_append, htake, List.getElem?_drop,
        Nat.add_sub_cancel' hhigh]

theorem getD_ofFn (block : Block) (x : Fin 4096) :
    (List.ofFn block).getD x.val 0 = block x := by
  have hx : x.val < (List.ofFn block).length :=
    x.isLt.trans_eq (List.length_ofFn).symm
  rw [List.getD_eq_getElem _ _ hx, List.getElem_ofFn]

section

variable (disk : Disk) (inode : FsInode) (start last count : Nat)

/-- The zeroed buffer of `fs_write` for the blocks `start` to `last`, under
the old first block. -/
def startBuffer : List UInt8 :=
  if 0 < count then
    overlay (List.replicate (4096 * (last - start + 1)) 0) 0
      (List.ofFn (disk (inode.ptr start)))
  else List.replicate (4096 * (last - start + 1)) 0

/-- The same under the old last block. -/
def endBuffer : List UInt8 :=
  if 1 < count then
    overlay (startBuffer disk inode start last count) (4096 * (last - start))
      (List.ofFn (disk (inode.ptr last)))
  else startBuffer disk inode start last count

theorem length_startBuffer :
    (startBuffer disk inode start last count).length =
      4096 * (last - start + 1) := by
  rw [startBuffer]
  split
  · rw [length_overlay]
    · exact List.length_replicate
    · rw [List.length_ofFn, List.length_replicate]
      omega
  · exact List.length_replicate

theorem length_endBuffer :
    (endBuffer disk inode start last count).length =
      4096 * (last - start + 1) := by
  rw [endBuffer]
  split
  · rw [length_overlay]
    · exact length_startBuffer disk inode start last count
    · rw [List.length_ofFn, length_startBuffer]
      omega
  · exact length_startBuffer disk inode start last count

theorem getD_startBuffer (j : Nat) (x : Fin 4096) :
    (startBuffer disk inode start last count).getD (4096 * j + x.val) 0 =
      if j = 0 ∧ 0 < count then disk (inode.ptr start) x else 0 := by
  have hx := x.isLt
  have hzero : ∀ n i, (List.replicate n (0 : UInt8)).getD i 0 = 0 := by
    intro n i
    rw [List.getD_eq_getElem?_getD, List.getElem?_replicate]
    split <;> rfl
  rw [startBuffer]
  by_cases hcount : 0 < count
  · rw [if_pos hcount, getD_overlay, List.length_ofFn]
    · by_cases hj : j = 0
      · subst hj
        rw [if_pos (by omega), if_pos ⟨rfl, hcount⟩, Nat.mul_zero,
          Nat.zero_add, Nat.sub_zero]
        exact getD_ofFn _ x
      · rw [if_neg (by omega), if_neg (by omega), hzero]
    · rw [List.length_ofFn, List.length_replicate]
      omega
  · rw [if_neg hcount, if_neg (by omega), hzero]

theorem getD_endBuffer {j : Nat} (hj : j ≤ last - start) (x : Fin 4096) :
    (endBuffer disk inode start last count).getD (4096 * j + x.val) 0 =
      if j = last - start ∧ 1 < count then disk (inode.ptr last) x
      else if j = 0 ∧ 0 < count then disk (inode.ptr start) x else 0 := by
  have hx := x.isLt
  rw [endBuffer]
  by_cases hcount : 1 < count
  · rw [if_pos hcount, getD_overlay, List.length_ofFn]
    · by_cases hlast : j = last - start
      · rw [if_pos (by omega), if_pos ⟨hlast, hcount⟩, ← hlast,
          Nat.add_sub_cancel_left]
        exact getD_ofFn _ x
      · rw [if_neg (by omega), if_neg (fun h => hlast h.1)]
        exact getD_startBuffer disk inode start last count j x
    · rw [List.length_ofFn, length_startBuffer]
      omega
  · rw [if_neg hcount, if_neg (fun h => hcount h.2)]
    exact getD_startBuffer disk inode start last count j x

end

/-- The buffer of `fs_write` holds the blocks of the planned write. -/
theorem bufferBlock_overlay (disk : Disk) (inode : FsInode)
    (count offset : Nat) {buf : List UInt8} (hbuf : 1 ≤ buf.length)
    {j : Nat}
    (hj : j ≤ (offset + buf.length - 1) / 4096 - offset / 4096) :
    bufferBlock
      (overlay (endBuffer disk inode (offset / 4096)
        ((offset + buf.length - 1) / 4096) count) (offset % 4096) buf) j =
      mergedBlock disk inode count offset buf (offset / 4096 + j) := by
  funext x
  have hx := x.isLt
  have hplace : 4096 * (offset / 4096 + j) + x.val =
      4096 * (offset / 4096) + (4096 * j + x.val) := by omega
  have hsplit := Nat.div_add_mod offset 4096
  rw [bufferBlock, getD_overlay, mergedBlock]
  · by_cases hin : offset ≤ 4096 * (offset / 4096 + j) + x.val ∧
        4096 * (offset / 4096 + j) + x.val < offset + buf.length
    · rw [if_pos hin, if_pos (by omega)]
      congr 1
      omega
    · rw [if_neg hin, if_neg (by omega), getD_endBuffer _ _ _ _ _ hj]
      by_cases hlast : j = (offset + buf.length - 1) / 4096 - offset / 4096 ∧
          1 < count
      · have hk : offset / 4096 + j = (offset + buf.length - 1) / 4096 := by
          omega
        rw [if_pos hlast, if_pos (Or.inr ⟨hk, hlast.2⟩), hk]
      · rw [if_neg hlast]
        by_cases hfirst : j = 0 ∧ 0 < count
        · rw [if_pos hfirst, if_pos (Or.inl (by omega)), hfirst.1,
            Nat.add_zero]
        · rw [if_neg hfirst, if_neg (by omega)]
  · rw [length_endBuffer]
    omega

/-- Reading the first and the last block of the range and merging the
caller's bytes. -/
theorem run_mergeBuffer {world : World}
    (hreads : world.device.readFails = never) (inode : FsInode)
    (buf : List UInt8) {start off last : Nat} (count : Nat)
    (hstart : start ≤ last) (hlast : last < 1019)
    (hfit : off + buf.length ≤ 4096 * (last - start + 1))
    (hptr : ∀ k, start ≤ k → k ≤ last →
      inode.ptr k < world.device.size ∧ inode.ptr k < 32768) :
    run (mergeBuffer inode buf start off last ((last : Int) - start + 1)
        count) world =
      some (.ok (overlay (endBuffer world.disk inode start last count) off
        buf), world) := by
  have hread : ∀ k (hk : k < 1019), start ≤ k → k ≤ last →
      run (blockRead (wordToInt (inode.ptrs ⟨k, hk⟩))) world =
        some (.ok (world.disk (inode.ptr k)), world) := by
    intro k hk hlow hhigh
    obtain ⟨hsize, hlt⟩ := hptr k hlow hhigh
    rw [wordToInt_ptrs inode ⟨k, hk⟩ hlt]
    exact run_blockRead hreads hsize hlt
  have hcopy : ∀ k (hk : k < 1019), start ≤ k → k ≤ last →
      ∀ dst off, off + 4096 ≤ dst.length →
      run (copyBlockIn inode k dst (off : Nat)) world =
        some (.ok (overlay dst off (List.ofFn (world.disk (inode.ptr k)))),
          world) := by
    intro k hk hlow hhigh dst off hroom
    rw [copyBlockIn, run_bind_ok (run_ptrAt inode hk world),
      run_bind_ok (hread k hk hlow hhigh)]
    exact run_copyIn off (by rw [List.length_ofFn]; exact hroom) world
  have hzeros : (4096 * ((last : Int) - start + 1)).toNat =
      4096 * (last - start + 1) := by omega
  have hoff : 4096 * ((last : Int) - start + 1 - 1) =
      ((4096 * (last - start) : Nat) : Int) := by omega
  have hfirst : run
      (if (count : Int) > 0 then
        copyBlockIn inode start
          (List.replicate (4096 * (last - start + 1)) 0) 0
      else pure (List.replicate (4096 * (last - start + 1)) 0)) world =
      some (.ok (startBuffer world.disk inode start last count), world) := by
    rw [startBuffer]
    by_cases hcount : 0 < count
    · rw [if_pos (by omega), if_pos hcount]
      refine hcopy start (by omega) le_rfl hstart _ 0 ?_
      rw [List.length_replicate]
      omega
    · rw [if_neg (by omega), if_neg hcount]
      rfl
  have hsecond : run
      (if (count : Int) > 1 then
        copyBlockIn inode last
          (startBuffer world.disk inode start last count)
          ((4096 * (last - start) : Nat) : Int)
      else pure (startBuffer world.disk inode start last count)) world =
      some (.ok (endBuffer world.disk inode start last count), world) := by
    rw [endBuffer]
    by_cases hcount : 1 < count
    · rw [if_pos (by omega), if_pos hcount]
      refine hcopy last hlast hstart le_rfl _ _ ?_
      rw [length_startBuffer]
      omega
    · rw [if_neg (by omega), if_neg hcount]
      rfl
  rw [mergeBuffer, hzeros, hoff, run_bind_ok hfirst, run_bind_ok hsecond]
  exact run_copyIn off (by rw [length_endBuffer]; exact hfit) world

/-- The loop over the blocks of the range. -/
theorem performs_writeBlocks {size : Nat} (inode : FsInode)
    (blkBuf : List UInt8) (stored : Nat → Block) (count pIdx blkIdx : Nat)
    (hbound : pIdx + count ≤ 1019)
    (hlength : 4096 * (blkIdx + count) ≤ blkBuf.length)
    (hstored : ∀ j, j < count →
      bufferBlock blkBuf (blkIdx + j) = stored (pIdx + j))
    (hptr : ∀ k, pIdx ≤ k → k < pIdx + count →
      0 < inode.ptr k ∧ inode.ptr k < size ∧ inode.ptr k < 32768)
    (world : World) (hsize : world.device.size = size) :
    Performs (writeBlocks inode blkBuf count pIdx blkIdx) world
      ((List.range' pIdx count).map fun k =>
        .write (inode.ptr k) (stored k)) () := by
  induction count generalizing pIdx blkIdx world with
  | zero => exact Performs.pure () world
  | succ count ih =>
      have hlt : pIdx < 1019 := by omega
      obtain ⟨hpos, hfits, hword⟩ := hptr pIdx le_rfl (by omega)
      have hfirst := hstored 0 (by omega)
      rw [Nat.add_zero, Nat.add_zero] at hfirst
      rw [writeBlocks, List.range'_succ, List.map_cons]
      refine Performs.bind_read (run_ptrAt inode hlt world) ?_
      refine Performs.bind_read (Performs.require (by omega) world) ?_
      rw [wordToInt_ptrs inode ⟨pIdx, hlt⟩ hword, hfirst]
      refine Performs.bind_cons
        (Performs.write _ hpos (hsize ▸ hfits) hword) ?_
      refine ih (pIdx + 1) (blkIdx + 1) (by omega) (by omega) ?_ ?_ _ ?_
      · intro j hj
        have hnext := hstored (j + 1) (by omega)
        rw [Nat.add_right_comm blkIdx 1 j, Nat.add_right_comm pIdx 1 j]
        exact hnext
      · exact fun k hlow hhigh => hptr k (by omega) (by omega)
      · rw [Effect.apply_size, hsize]

/-! Writing. -/

theorem blockCount_eq_succ (offset : Nat) {len : Nat} (hlen : 1 ≤ len) :
    blockCount (offset + len) = (offset + len - 1) / 4096 + 1 := by
  rw [blockCount]
  omega

/-- The block numbers that `fs_write` computes in `int` and `size_t` are
exact. -/
theorem writeRange_eq (offset : Nat) {len : Nat} (hlen : 1 ≤ len)
    (hend : offset + len < 2147483648) :
    toInt32 ((offset : Int).tdiv 4096) = (offset / 4096 : Nat) ∧
      toInt32 ((offset : Int).tmod 4096) = (offset % 4096 : Nat) ∧
      toInt32 (toSize ((offset : Int) + len - 1) / 4096) =
        ((offset + len - 1) / 4096 : Nat) := by
  refine ⟨?_, ?_, ?_⟩
  · rw [Int.tdiv_eq_ediv_of_nonneg (Int.natCast_nonneg offset)]
    exact toInt32_of_lt (by omega) (by omega)
  · rw [Int.tmod_eq_emod_of_nonneg (Int.natCast_nonneg offset)]
    exact toInt32_of_lt (by omega) (by omega)
  · rw [toSize_of_lt (by omega) (by omega),
      toInt32_of_lt (by omega) (by omega)]
    omega

/-- The number of blocks that `fs_write` asks for, which is negative when the
write ends before the last block. -/
theorem blksNeeded_eq (offset : Nat) {len count : Nat} (hlen : 1 ≤ len)
    (hend : offset + len < 2147483648) (hcount : count ≤ 1019) :
    toInt32 (((offset + len - 1) / 4096 : Nat) - (count : Int) + 1) =
      (blockCount (offset + len) : Int) - count := by
  rw [blockCount_eq_succ offset hlen, toInt32_of_lt (by omega) (by omega)]
  omega

theorem extend_eq (inode : FsInode) (fresh : List Nat) {offset len : Nat}
    (hlength : inode.length < 2147483648)
    (hend : offset + len < 2147483648) (mtime : UInt32) :
    { inode.placePtrs fresh (blockCount inode.length) with
      size := if toSize ((offset : Int) + len) > toSize inode.length then
          Int32.ofInt (toSize ((offset : Int) + len))
        else (inode.placePtrs fresh (blockCount inode.length)).size
      mtime := mtime } =
      inode.extend fresh (offset + len) mtime := by
  rw [toSize_of_lt (by omega) (by omega), toSize_of_lt (by omega) (by omega)]
  have hiff : ((offset : Int) + len > inode.length) ↔
      offset + len > inode.length := by omega
  simp only [hiff]
  rfl

theorem mergedBlock_congr {disk disk' : Disk} {inode : FsInode} {k : Nat}
    (hblock : disk' (inode.ptr k) = disk (inode.ptr k)) (count offset : Nat)
    (buf : List UInt8) :
    mergedBlock disk' inode count offset buf k =
      mergedBlock disk inode count offset buf k := by
  funext x
  simp only [mergedBlock, hblock]

section

variable {world : World} (hmount : Mounted world) {site : List Slot}
  {names : List Name} {inum : Nat} {stop : Nat}
  (hstop : blockCount stop ≤ 1019) {fresh : List Nat}
  (hfree : lowestFree world.globals.bitmap world.disk.diskSize
    (blockCount stop - blockCount (world.disk.inode inum).length) =
      some fresh) (mtime : UInt32) {k : Nat} (hk : k < blockCount stop)

include hmount hstop hfree hk

/-- The pointers of a file with fresh blocks lead to blocks of the file or to
fresh ones. -/
theorem Mounted.extend_ptr_cases :
    (k < blockCount (world.disk.inode inum).length ∧
      ((world.disk.inode inum).extend fresh stop mtime).ptr k =
        (world.disk.inode inum).ptr k) ∨
    ((world.disk.inode inum).extend fresh stop mtime).ptr k ∈ fresh := by
  rcases Nat.lt_or_ge k (blockCount (world.disk.inode inum).length)
    with hold | hnew
  · exact Or.inl ⟨hold, FsInode.extend_ptr _ _ _ _ (Or.inl hold)⟩
  · obtain ⟨j, rfl⟩ := Nat.exists_eq_add_of_le hnew
    have hlength := (lowestFree_eq_some hfree).1
    have hj : j < fresh.length := by omega
    have husable := hmount.usable_of_lowestFree hfree fresh[j]
      (List.getElem_mem hj)
    have hsize := hmount.consistent.size_le
    rw [FsInode.extend_ptr_fresh _ _ _ _ hj (by omega) (by omega)]
    exact Or.inr (List.getElem_mem hj)

theorem Mounted.extend_ptr_range
    (hnode : world.disk.node site = some (names, inum)) :
    2 ≤ ((world.disk.inode inum).extend fresh stop mtime).ptr k ∧
      ((world.disk.inode inum).extend fresh stop mtime).ptr k <
        world.disk.diskSize := by
  rcases hmount.extend_ptr_cases hstop hfree mtime hk
    with ⟨hold, heq⟩ | hmem
  · rw [heq]
    exact hmount.ptr_range hnode hold
  · have husable := hmount.usable_of_lowestFree hfree _ hmem
    omega

theorem Mounted.extend_ptr_ne
    (hnode : world.disk.node site = some (names, inum))
    (hreg : (world.disk.inode inum).isReg = true) :
    ((world.disk.inode inum).extend fresh stop mtime).ptr k ≠ inum := by
  rcases hmount.extend_ptr_cases hstop hfree mtime hk
    with ⟨hold, heq⟩ | hmem
  · rw [heq]
    intro hsame
    have hdata := Disk.holder_data hnode hreg hold
    rw [hsame] at hdata
    have hkeys := hmount.consistent.exclusive _ _ _ hdata
      (Disk.holder_inode hnode)
    cases hkeys
  · intro hsame
    rw [hsame] at hmem
    have husable := hmount.usable_of_lowestFree hfree _ hmem
    exact husable.2.2 (hmount.consistent.inode_range hnode).2.2

end

/-- Too few free blocks end a write before it has stored anything. -/
theorem Mounted.run_reserveBlocks_fail {world : World}
    (hmount : Mounted world) (inode : FsInode) {count total : Nat}
    (hfull : lowestFree world.globals.bitmap world.disk.diskSize
      (total - count) = none) :
    run (reserveBlocks inode count ((total : Int) - count)) world =
      some (.error (-eNoSpc), world) := by
  have hpos : 0 < total - count := by
    rcases Nat.eq_zero_or_pos (total - count) with hzero | hpos
    · rw [hzero, lowestFree_zero] at hfull
      cases hfull
    · exact hpos
  have hneeded : ((total : Int) - count).toNat = total - count := by omega
  have hfind := hmount.run_findFirstNfreeBlocks (total - count)
  rw [hfull] at hfind
  rw [reserveBlocks, if_pos (by omega), hneeded]
  exact run_bind_error hfind

/-- The part of a write behind the reservation. -/
theorem Mounted.performs_storeWrite {world world' : World}
    (hmount : Mounted world) (inum : Nat) {offset : Nat}
    {buf : List UInt8} (hbuf : 1 ≤ buf.length)
    (hend : offset + buf.length ≤ 4173824) {inode : FsInode}
    (hptr : ∀ k, k < blockCount (offset + buf.length) →
      2 ≤ inode.ptr k ∧ inode.ptr k < world.disk.diskSize ∧
        inode.ptr k ≠ inum)
    (hsize : world'.device.size = world.device.size)
    (hreads : world'.device.readFails = never)
    (hdisk : ∀ b, b ≠ 1 → b ≠ inum → world'.disk b = world.disk b)
    (count : Nat) (delta : Int) :
    Performs (do
        rejectIf (toInt32 (4096 *
          toInt32 (((offset + buf.length - 1) / 4096 : Nat) -
            ((offset / 4096 : Nat) : Int) + 1)) < 0) (-eNoMem)
        let blkBuf ← mergeBuffer inode buf (offset / 4096 : Nat)
          (offset % 4096 : Nat) ((offset + buf.length - 1) / 4096 : Nat)
          (toInt32 (((offset + buf.length - 1) / 4096 : Nat) -
            ((offset / 4096 : Nat) : Int) + 1)) count
        writeBlocks inode blkBuf
          (((offset + buf.length - 1) / 4096 : Nat) -
            ((offset / 4096 : Nat) : Int) + 1).toNat (offset / 4096 : Nat) 0
        modifyGlobals (Globals.addFree delta)
        pure (toInt32 buf.length)) world'
      (dataEffects world.disk inode count offset buf ++
        [.modify (Globals.addFree delta)]) (buf.length : Int) := by
  have hlast := blockCount_eq_succ offset hbuf
  have hle := hmount.consistent.size_le
  have hfits := hmount.consistent.size_fits
  have hptr' : ∀ k, k < blockCount (offset + buf.length) →
      0 < inode.ptr k ∧ inode.ptr k < world.device.size ∧
        inode.ptr k < 32768 := by
    intro k hk
    have hrange := hptr k hk
    omega
  have hstart : offset / 4096 ≤ (offset + buf.length - 1) / 4096 := by omega
  have hbound : offset / 4096 +
      (blockCount (offset + buf.length) - offset / 4096) ≤ 1019 := by omega
  have hroom : offset % 4096 + buf.length ≤
      4096 * ((offset + buf.length - 1) / 4096 - offset / 4096 + 1) := by
    omega
  have hmerge := run_mergeBuffer hreads inode buf count hstart
    (show (offset + buf.length - 1) / 4096 < 1019 by omega) hroom
    fun k _ hk => hsize ▸ (hptr' k (by omega)).2
  have hwrite := performs_writeBlocks inode
    (overlay (endBuffer world'.disk inode (offset / 4096)
      ((offset + buf.length - 1) / 4096) count) (offset % 4096) buf)
    (mergedBlock world.disk inode count offset buf)
    (blockCount (offset + buf.length) - offset / 4096) (offset / 4096) 0
    hbound ?_ ?_ (fun k _ hk => hptr' k (by omega)) world' hsize
  · have hcount : (((offset + buf.length - 1) / 4096 : Nat) -
        ((offset / 4096 : Nat) : Int) + 1).toNat =
          blockCount (offset + buf.length) - offset / 4096 := by omega
    have hlow : 0 ≤ (((offset + buf.length - 1) / 4096 : Nat) -
        ((offset / 4096 : Nat) : Int) + 1) := by omega
    have hhigh : (((offset + buf.length - 1) / 4096 : Nat) -
        ((offset / 4096 : Nat) : Int) + 1) < 1020 := by omega
    have hlength : toInt32 buf.length = buf.length :=
      toInt32_natCast (by omega)
    rw [toInt32_of_lt (z := ((offset + buf.length - 1) / 4096 : Nat) -
      ((offset / 4096 : Nat) : Int) + 1) (by omega) (by omega), hcount,
      hlength]
    refine Performs.bind_read (Performs.rejectIf ?_ _ _) ?_
    · rw [toInt32_of_lt (by omega) (by omega)]
      omega
    · refine Performs.bind_read hmerge (Performs.bind hwrite ?_)
      exact Performs.bind_cons (Performs.modify _ rfl) (Performs.pure _ _)
  · rw [length_overlay, length_endBuffer]
    · omega
    · rw [length_endBuffer]
      exact hroom
  · intro j hj
    have hrange := hptr (offset / 4096 + j) (by omega)
    rw [Nat.zero_add, bufferBlock_overlay world'.disk inode count offset hbuf
      (by omega)]
    exact mergedBlock_congr (hdisk _ (by omega) hrange.2.2) count offset buf

theorem Mounted.follows_write {world : World} (hmount : Mounted world)
    (ctx : Context) (path : CString) {buf : List UInt8}
    (hbuf : 1 ≤ buf.length) {offset : Int} (hpos : 0 ≤ offset)
    (hend : offset + buf.length ≤ 4173824) :
    Follows (fsWrite ctx path buf offset) world
      (world.planWrite ctx path buf offset) := by
  obtain ⟨o, rfl⟩ := Int.eq_ofNat_of_zero_le hpos
  rw [World.planWrite]
  cases hresolve : world.disk.resolve (parse path) with
  | error status => exact Follows.fail (hmount.run_target_error hresolve)
  | ok there =>
      obtain ⟨site, inum⟩ := there
      have hnode := Disk.node_of_resolve hresolve
      have hobject := hmount.consistent.object _ _ _ hnode
      have hrange := hmount.consistent.inode_range hnode
      have hcount := hobject.blockCount_le
      have hstop := blockCount_eq_succ o hbuf
      have hmax : blockCount (o + buf.length) ≤ 1019 := by omega
      have hlimit : o + buf.length ≤ 4173824 := by omega
      have hlt : o + buf.length < 2147483648 := by omega
      obtain ⟨hstart, hoff, hlast⟩ := writeRange_eq o hbuf hlt
      have hneeded := blksNeeded_eq o hbuf hlt hcount
      refine Follows.read (hmount.run_target hresolve) ?_
      refine Follows.rejectIf fun hreg => ?_
      rw [hobject.size_eq]
      refine Follows.rejectIf fun hinside => ?_
      simp only [sizeInBlocks_natCast, hstart, hoff, hlast, hneeded,
        Int.toNat_natCast]
      cases hfree : lowestFree world.globals.bitmap world.disk.diskSize
          (blockCount (o + buf.length) -
            blockCount (world.disk.inode inum).length) with
      | none =>
          exact Follows.fail (hmount.run_reserveBlocks_fail _ hfree)
      | some fresh =>
          have hreserve := hmount.performs_reserveBlocks
            (world.disk.inode inum) hcount hmax hfree
          simp only [Follows, Change.effects, List.append_assoc,
            List.cons_append]
          refine Performs.bind hreserve ?_
          rw [extend_eq _ _ (hobject.length_le.trans_lt (by decide)) hlt]
          refine Performs.bind_cons (hmount.performs_write _ (by omega)
            hrange.2.1 (applyAll_size _ _)) ?_
          rw [Int.neg_sub]
          refine hmount.performs_storeWrite inum hbuf hlimit (fun k hk => ?_)
            ?_ ?_ (fun b hone hinum => ?_) _ _
          · obtain ⟨hlow, hhigh⟩ := hmount.extend_ptr_range hmax hfree
              (wordOfInt (ctx.time 0)) hk hnode
            exact ⟨hlow, hhigh, hmount.extend_ptr_ne hmax hfree _ hk hnode
              (not_not.mp hreg)⟩
          · rw [Effect.apply_size, applyAll_size]
          · rw [Effect.apply_readFails, applyAll_readFails]
            exact hmount.reads
          · refine (Function.update_of_ne hinum _ _).trans
              (applyAll_disk_of_notMem fun buf => ?_)
            split
            · exact List.not_mem_nil
            · simp [markEffects, hone]

end Fs5600
