/-
The bytes of files: what `fs_read` returns of them, and what `fs_write`
leaves in them.
-/
import Fs5600.Removal

namespace Fs5600

open MachineWord EffectProgram Program LabelledWalk

/-- Byte `o` of a sequence of blocks. -/
def blockByte (block : Nat → Block) (o : Nat) : UInt8 :=
  block (o / 4096) ⟨o % 4096, Nat.mod_lt o (by decide)⟩

/-- The bytes of a file. -/
def fileContent (disk : Disk) (inode : FsInode) : List UInt8 :=
  (List.range inode.length).map (blockByte fun k => disk (inode.ptr k))

@[simp] theorem length_fileContent (disk : Disk) (inode : FsInode) :
    (fileContent disk inode).length = inode.length := by
  simp [fileContent]

/-- The bytes of a file depend on its length and its own blocks. -/
theorem fileContent_congr {disk disk' : Disk} {inode inode' : FsInode}
    (hlength : inode'.length = inode.length)
    (hblock : ∀ k, k < blockCount inode.length →
      disk' (inode'.ptr k) = disk (inode.ptr k)) :
    fileContent disk' inode' = fileContent disk inode := by
  rw [fileContent, fileContent, hlength]
  refine List.map_congr_left fun p hp => ?_
  rw [List.mem_range] at hp
  rw [blockByte, blockByte, hblock _ (lt_blockCount.mpr (by omega))]

/-- A block is 4096 consecutive bytes. -/
theorem ofFn_block (block : Nat → Block) (k : Nat) :
    List.ofFn (block k) =
      (List.range' (4096 * k) 4096).map (blockByte block) := by
  apply List.ext_getElem
  · rw [List.length_ofFn, List.length_map, List.length_range']
  · intro j hj _
    rw [List.length_ofFn] at hj
    rw [List.getElem_ofFn, List.getElem_map, List.getElem_range',
      blockByte]
    have hdiv : (4096 * k + 1 * j) / 4096 = k := by omega
    have hmod : (4096 * k + 1 * j) % 4096 = j := by omega
    simp only [hdiv, hmod]

theorem flatMap_blocks (block : Nat → Block) (count start : Nat) :
    (List.range' start count).flatMap (fun k => List.ofFn (block k)) =
      (List.range' (4096 * start) (4096 * count)).map (blockByte block) := by
  induction count generalizing start with
  | zero => rfl
  | succ count ih =>
      rw [List.range'_succ, List.flatMap_cons, ih (start + 1), ofFn_block,
        ← List.map_append, Nat.mul_succ 4096 start, List.range'_append_1,
        Nat.mul_succ 4096 count, Nat.add_comm 4096]

theorem slice_range' {start m o len : Nat} (hfit : o + len ≤ m) :
    ((List.range' start m).drop o).take len =
      List.range' (start + o) len := by
  have hsplit : m - o = len + (m - o - len) := by omega
  rw [List.drop_range', Nat.mul_one, hsplit, ← List.range'_append_1,
    List.take_left' List.length_range']

/-! Reading blocks. -/

section

variable {world : World} (inode : FsInode)

/-- The block of slot `k` can be read, and is `block`. -/
def ReadsSlot (world : World) (inode : FsInode) (k : Nat) (block : Block) :
    Prop :=
  ∃ hk : k < 1019,
    run (blockRead (wordToInt (inode.ptrs ⟨k, hk⟩))) world =
      some (.ok block, world)

theorem run_readBlocks (block : Nat → Block) (count start : Nat)
    (hreads : ∀ k, start ≤ k → k < start + count →
      ReadsSlot world inode k (block k)) :
    run (readBlocks inode count start) world =
      some (.ok ((List.range' start count).flatMap
        fun k => List.ofFn (block k)), world) := by
  induction count generalizing start with
  | zero => rfl
  | succ count ih =>
      obtain ⟨hk, hread⟩ := hreads start le_rfl (by omega)
      have hrest : run (readBlocks inode count ((start : Int) + 1)) world =
          _ := ih (start + 1) fun k hlow hhigh =>
            hreads k (by omega) (by omega)
      rw [readBlocks, run_bind_ok (run_ptrAt inode hk world),
        run_bind_ok hread, run_bind_ok hrest, List.range'_succ,
        List.flatMap_cons]
      rfl

/-- What stops the read of a slot stops the loop there. -/
theorem run_readBlocks_stop (block : Nat → Block) (count start : Nat)
    (hreads : ∀ k, start ≤ k → k < start + count →
      ReadsSlot world inode k (block k))
    (outcome : Option Int)
    (hstop : run (do
        let ptr ← ptrAt inode (start + count : Nat)
        blockRead (wordToInt ptr)) world =
      outcome.map fun status => (.error status, world)) :
    run (readBlocks inode (count + 1) start) world =
      outcome.map fun status => (.error status, world) := by
  induction count generalizing start with
  | zero =>
      rw [Nat.add_zero] at hstop
      rw [readBlocks]
      cases hptr : run (ptrAt inode start) world with
      | none =>
          rw [run_bind_none hptr] at hstop ⊢
          cases outcome with
          | none => rfl
          | some status => cases hstop
      | some result =>
          obtain ⟨status | ptr, world'⟩ := result
          · rw [run_bind_error hptr] at hstop ⊢
            cases outcome with
            | none => cases hstop
            | some status' => cases hstop; rfl
          · rw [run_bind_ok hptr] at hstop ⊢
            cases outcome with
            | none => exact run_bind_none hstop
            | some status => exact run_bind_error hstop
  | succ count ih =>
      obtain ⟨hk, hread⟩ := hreads start le_rfl (by omega)
      have hrest : run (readBlocks inode (count + 1) ((start : Int) + 1))
          world = _ := ih (start + 1)
            (fun k hlow hhigh => hreads k (by omega) (by omega)) (by
              rw [Nat.add_assoc, Nat.add_comm 1 count]
              exact hstop)
      rw [readBlocks, run_bind_ok (run_ptrAt inode hk world),
        run_bind_ok hread]
      cases outcome with
      | none => exact run_bind_none hrest
      | some status => exact run_bind_error hrest

theorem run_copyOut (src : List UInt8) (off len : Nat)
    (hfit : off + len ≤ src.length) (world : World) :
    run (copyOut src off len) world =
      some (.ok ((src.drop off).take len), world) := by
  rw [copyOut, run_require_bind, if_pos (by omega)]
  rfl

/-- The bytes that `fs_read` copies out of the blocks it has read. -/
theorem copied_bytes (block : Nat → Block) {o len count : Nat}
    (hfit : o % 4096 + len ≤ 4096 * count) :
    (((List.range' (o / 4096) count).flatMap
      fun k => List.ofFn (block k)).drop (o % 4096)).take len =
        (List.range' o len).map (blockByte block) := by
  have hstart : 4096 * (o / 4096) + o % 4096 = o := by omega
  rw [flatMap_blocks, ← List.map_drop, ← List.map_take, slice_range' hfit,
    hstart]

theorem fileContent_slice (disk : Disk) {o len : Nat}
    (hfit : o + len ≤ inode.length) :
    ((fileContent disk inode).drop o).take len =
      (List.range' o len).map (blockByte fun k => disk (inode.ptr k)) := by
  rw [fileContent, ← List.map_drop, ← List.map_take, List.range_eq_range',
    slice_range' hfit, Nat.zero_add]

end

/-! Reading files. -/

section

variable {world : World} (hmount : Mounted world) {path : CString}
  {site : List Slot} {inum : Nat}
  (hresolve : world.disk.resolve (parse path) = .ok (site, inum))
  (hreg : (world.disk.inode inum).isReg = true)

include hmount

theorem Mounted.readsSlot
    {names : List Name} (hnode : world.disk.node site = some (names, inum))
    {k : Nat} (hk : k < blockCount (world.disk.inode inum).length) :
    ReadsSlot world (world.disk.inode inum) k
      (world.disk ((world.disk.inode inum).ptr k)) := by
  have hcount := (hmount.consistent.object _ _ _ hnode).blockCount_le
  have hrange := hmount.ptr_range hnode hk
  have hsize := hmount.consistent.size_le
  refine ⟨by omega, ?_⟩
  rw [wordToInt_ptrs _ ⟨k, by omega⟩ (by dsimp only; omega)]
  exact hmount.run_blockRead hrange.2

include hresolve hreg

/-- A read inside the file returns the bytes asked for. -/
theorem Mounted.run_fsRead_inside {o len : Nat} (hlen : 1 ≤ len)
    (hfit : o + len ≤ (world.disk.inode inum).length) :
    run (fsRead path len o) world =
      some (.ok ((len : Int),
        ((fileContent world.disk (world.disk.inode inum)).drop o).take len),
        world) := by
  have hnode := Disk.node_of_resolve hresolve
  have hobject := hmount.consistent.object _ _ _ hnode
  have hlength := hobject.length_le
  have hlast := blockCount_eq_succ o hlen
  have hmono := blockCount_mono hfit
  obtain ⟨hstart, hoff, hend⟩ := writeRange_eq o hlen (by omega)
  have hbeyond : ¬ toSize ((o : Int) + len) >
      toSize ((world.disk.inode inum).length : Int) := by
    rw [toSize_of_lt (by omega) (by omega),
      toSize_of_lt (by omega) (by omega)]
    omega
  have hcount : ((((o + len - 1) / 4096 : Nat) : Int) -
      ((o / 4096 : Nat) : Int) + 1).toNat =
        blockCount (o + len) - o / 4096 := by omega
  have hnomem : ¬ toInt32 ((((o + len - 1) / 4096 : Nat) : Int) -
      ((o / 4096 : Nat) : Int) + 1) < 0 := by
    rw [toInt32_of_lt (by omega) (by omega)]
    omega
  have hcopy := run_copyOut ((List.range' (o / 4096)
    (blockCount (o + len) - o / 4096)).flatMap fun k =>
      List.ofFn (world.disk ((world.disk.inode inum).ptr k)))
    (o % 4096) len (by
      rw [flatMap_blocks, List.length_map, List.length_range']
      omega) world
  rw [copied_bytes _ (by omega),
    ← fileContent_slice _ world.disk hfit] at hcopy
  have hblocks := run_readBlocks (world.disk.inode inum)
    (fun k => world.disk ((world.disk.inode inum).ptr k))
    (blockCount (o + len) - o / 4096) (o / 4096)
    fun k _ hk => hmount.readsSlot hnode (show
      k < blockCount (world.disk.inode inum).length by omega)
  rw [fsRead, run_bind_ok (hmount.run_target hresolve), run_rejectIf_bind,
    if_neg (not_not.mpr hreg)]
  dsimp only
  rw [hobject.size_eq, if_neg (by omega)]
  simp only [hbeyond, decide_false, Bool.false_eq_true, ↓reduceIte, hstart,
    hoff, hend, hcount]
  rw [run_rejectIf_bind, if_neg hnomem, run_bind_ok hblocks,
    run_bind_ok hcopy, toInt32_natCast (by omega)]
  rfl

/-- A read past the end of the file goes through one more slot than the file
has blocks. -/
theorem Mounted.run_fsRead_past {o len : Nat}
    (hlt : o < (world.disk.inode inum).length)
    (hpast : (world.disk.inode inum).length < o + len)
    (hbound : o + len < 9223372036854775808) :
    run (fsRead path len o) world =
      run (do
        let blkBuf ← readBlocks (world.disk.inode inum)
          (blockCount (world.disk.inode inum).length - o / 4096 + 1)
          (o / 4096 : Nat)
        let bytes ← copyOut blkBuf (o % 4096 : Nat)
          ((world.disk.inode inum).length - o : Nat)
        pure ((((world.disk.inode inum).length - o : Nat) : Int), bytes))
        world := by
  have hnode := Disk.node_of_resolve hresolve
  have hobject := hmount.consistent.object _ _ _ hnode
  have hlength := hobject.length_le
  have hcovered : o / 4096 < blockCount (world.disk.inode inum).length :=
    lt_blockCount.mpr (by omega)
  have hcount := hobject.blockCount_le
  obtain ⟨hstart, hoff, -⟩ := writeRange_eq o Nat.le.refl (by omega)
  have hbeyond : toSize ((o : Int) + len) >
      toSize ((world.disk.inode inum).length : Int) := by
    rw [toSize_of_lt (by omega) (by omega),
      toSize_of_lt (by omega) (by omega)]
    omega
  have hleft : toSize (((world.disk.inode inum).length : Int) - o) =
      ((world.disk.inode inum).length - o : Nat) := by
    rw [toSize_of_lt (by omega) (by omega)]
    omega
  have hblocks : (((blockCount (world.disk.inode inum).length : Nat) : Int) -
      ((o / 4096 : Nat) : Int) + 1).toNat =
        blockCount (world.disk.inode inum).length - o / 4096 + 1 := by
    omega
  have hnomem : ¬ toInt32
      (((blockCount (world.disk.inode inum).length : Nat) : Int) -
        ((o / 4096 : Nat) : Int) + 1) < 0 := by
    rw [toInt32_of_lt (by omega) (by omega)]
    omega
  have hresult : toInt32 (((world.disk.inode inum).length - o : Nat) : Int) =
      ((world.disk.inode inum).length - o : Nat) :=
    toInt32_natCast (by omega)
  rw [fsRead, run_bind_ok (hmount.run_target hresolve), run_rejectIf_bind,
    if_neg (not_not.mpr hreg)]
  dsimp only
  rw [hobject.size_eq, if_neg (by omega)]
  simp only [hbeyond, decide_true, ↓reduceIte, hstart, hoff, hleft,
    sizeInBlocks_natCast, hblocks, hresult]
  rw [run_rejectIf_bind, if_neg hnomem]

/-- When that slot can be read, the read ends at the end of the file. -/
theorem Mounted.run_fsRead_short {o len : Nat}
    (hlt : o < (world.disk.inode inum).length)
    (hpast : (world.disk.inode inum).length < o + len)
    (hbound : o + len < 9223372036854775808) {extra : Block}
    (hextra : ReadsSlot world (world.disk.inode inum)
      (blockCount (world.disk.inode inum).length) extra) :
    run (fsRead path len o) world =
      some (.ok ((((world.disk.inode inum).length - o : Nat) : Int),
        (fileContent world.disk (world.disk.inode inum)).drop o), world) := by
  have hnode := Disk.node_of_resolve hresolve
  have hcovered : o / 4096 < blockCount (world.disk.inode inum).length :=
    lt_blockCount.mpr (by omega)
  have hcount : (world.disk.inode inum).length ≤
      4096 * blockCount (world.disk.inode inum).length := by
    rw [blockCount]
    omega
  let block : Nat → Block := fun k =>
    if k < blockCount (world.disk.inode inum).length then
      world.disk ((world.disk.inode inum).ptr k)
    else extra
  have hslots : ∀ k, o / 4096 ≤ k →
      k < o / 4096 + (blockCount (world.disk.inode inum).length -
        o / 4096 + 1) →
      ReadsSlot world (world.disk.inode inum) k (block k) := by
    intro k _ hk
    by_cases hin : k < blockCount (world.disk.inode inum).length
    · simp only [block, if_pos hin]
      exact hmount.readsSlot hnode hin
    · obtain rfl : k = blockCount (world.disk.inode inum).length := by omega
      simp only [block, lt_irrefl, ↓reduceIte]
      exact hextra
  have hblocks := run_readBlocks (world.disk.inode inum) block _ _ hslots
  have hcopy := run_copyOut ((List.range' (o / 4096)
    (blockCount (world.disk.inode inum).length - o / 4096 + 1)).flatMap
      fun k => List.ofFn (block k)) (o % 4096)
    ((world.disk.inode inum).length - o) (by
      rw [flatMap_blocks, List.length_map, List.length_range']
      omega) world
  have hbytes : (List.range' o ((world.disk.inode inum).length - o)).map
      (blockByte block) =
        (fileContent world.disk (world.disk.inode inum)).drop o := by
    rw [← List.take_of_length_le (l := (fileContent world.disk
      (world.disk.inode inum)).drop o) (by
        rw [List.length_drop, length_fileContent]),
      fileContent_slice _ world.disk (by omega)]
    refine List.map_congr_left fun p hp => ?_
    rw [List.mem_range'_1] at hp
    have hin : p / 4096 < blockCount (world.disk.inode inum).length :=
      lt_blockCount.mpr (by omega)
    simp only [blockByte, block, if_pos hin]
  rw [copied_bytes _ (by omega), hbytes] at hcopy
  rw [hmount.run_fsRead_past hresolve hreg hlt hpast hbound,
    run_bind_ok hblocks, run_bind_ok hcopy]
  rfl

/-- Where that slot cannot be read, the read fails. -/
theorem Mounted.run_fsRead_stop {o len : Nat}
    (hlt : o < (world.disk.inode inum).length)
    (hpast : (world.disk.inode inum).length < o + len)
    (hbound : o + len < 9223372036854775808) (outcome : Option Int)
    (hstop : run (do
        let ptr ← ptrAt (world.disk.inode inum)
          (blockCount (world.disk.inode inum).length : Nat)
        blockRead (wordToInt ptr)) world =
      outcome.map fun status => (.error status, world)) :
    run (fsRead path len o) world =
      outcome.map fun status => (.error status, world) := by
  have hnode := Disk.node_of_resolve hresolve
  have hcovered : o / 4096 < blockCount (world.disk.inode inum).length :=
    lt_blockCount.mpr (by omega)
  have hsum : o / 4096 +
      (blockCount (world.disk.inode inum).length - o / 4096) =
        blockCount (world.disk.inode inum).length := by omega
  have hblocks := run_readBlocks_stop (world.disk.inode inum)
    (fun k => world.disk ((world.disk.inode inum).ptr k))
    (blockCount (world.disk.inode inum).length - o / 4096) (o / 4096)
    (fun k _ hk => hmount.readsSlot hnode (show
      k < blockCount (world.disk.inode inum).length by omega))
    outcome (by rw [hsum]; exact hstop)
  rw [hmount.run_fsRead_past hresolve hreg hlt hpast hbound]
  cases outcome with
  | none => exact run_bind_none hblocks
  | some status => exact run_bind_error hblocks

end

/-! Reads past the end. -/

/-- A read past the end of a file returns what is left of the file. -/
def ReadsToEnd (world : World) (path : CString) (inode : FsInode)
    (len : Nat) (offset : Int) : Prop :=
  run (fsRead path len offset) world =
    some (.ok (if offset ≥ inode.size.toInt then (0, [])
      else (inode.size.toInt - offset,
        (fileContent world.disk inode).drop offset.toNat)), world)

/-- The slot behind the blocks of a file exists, and holds the number of a
block of the image. -/
def SpareSlot (world : World) (inode : FsInode) : Prop :=
  ∃ hk : blockCount inode.length < 1019, ∃ b,
    seekBlock (wordToInt (inode.ptrs ⟨blockCount inode.length, hk⟩)) =
      some b ∧ b < world.device.size

theorem Mounted.run_fsRead_beyond {world : World} (hmount : Mounted world)
    {path : CString} {site : List Slot} {inum : Nat}
    (hresolve : world.disk.resolve (parse path) = .ok (site, inum))
    (hreg : (world.disk.inode inum).isReg = true) {offset : Int}
    (hbeyond : offset ≥ (world.disk.inode inum).size.toInt) (len : Nat) :
    run (fsRead path len offset) world = some (.ok (0, []), world) := by
  rw [fsRead, run_bind_ok (hmount.run_target hresolve), run_rejectIf_bind,
    if_neg (not_not.mpr hreg)]
  dsimp only
  rw [if_pos hbeyond]
  rfl

/-- A read past the end of a file fails exactly when it starts inside the
file and the slot behind the file's blocks is no spare one. -/
theorem read_past_end_iff {world : World} (hreach : Reachable world)
    {path : CString} {inum : Int} {inode : FsInode}
    (hfound : run (pathToInode path 0) world =
      some (.ok (inum, inode), world))
    (hreg : sIsReg inode.mode = true) {len : Nat} {offset : Int}
    (hoffset : 0 ≤ offset) (hpast : inode.size.toInt < offset + len)
    (hbound : offset + len < 9223372036854775808) :
    ReadsToEnd world path inode len offset ↔
      offset ≥ inode.size.toInt ∨ SpareSlot world inode := by
  have hsteady := hreach.steady
  have hmount := hsteady.toMounted
  obtain ⟨site, i, hresolve, rfl, rfl, -⟩ := hmount.resolve_of_run hfound
  obtain ⟨o, rfl⟩ := Int.eq_ofNat_of_zero_le hoffset
  have hobject := hmount.consistent.object _ _ _
    (Disk.node_of_resolve hresolve)
  have hsize := hobject.size_eq
  rw [ReadsToEnd]
  by_cases hbeyond : (o : Int) ≥ (world.disk.inode i).size.toInt
  · rw [if_pos hbeyond, hmount.run_fsRead_beyond hresolve hreg hbeyond]
    exact iff_of_true rfl (Or.inl hbeyond)
  · rw [if_neg hbeyond]
    have hlt : o < (world.disk.inode i).length := by omega
    have hlong : (world.disk.inode i).length < o + len := by omega
    have hsmall : o + len < 9223372036854775808 := by omega
    have hleft : (world.disk.inode i).size.toInt - o =
        ((world.disk.inode i).length - o : Nat) := by omega
    have hstop := hmount.run_fsRead_stop hresolve hreg hlt hlong hsmall
    rw [hleft, Int.toNat_natCast]
    by_cases hspare : SpareSlot world (world.disk.inode i)
    · obtain ⟨hk, b, hseek, hb⟩ := hspare
      have hextra : ReadsSlot world (world.disk.inode i) _ (world.disk b) :=
        ⟨hk, run_blockRead_at hmount.reads hseek hb⟩
      exact iff_of_true (hmount.run_fsRead_short hresolve hreg hlt hlong
        hsmall hextra) (Or.inr ⟨hk, b, hseek, hb⟩)
    · refine iff_of_false ?_ fun hor => hor.elim hbeyond hspare
      by_cases hk : blockCount (world.disk.inode i).length < 1019
      · have hfail : ∀ b, seekBlock (wordToInt ((world.disk.inode i).ptrs
            ⟨blockCount (world.disk.inode i).length, hk⟩)) = some b →
              world.device.size ≤ b := by
          intro b hseek
          by_contra hb
          exact hspare ⟨hk, b, hseek, Nat.not_le.mp hb⟩
        rw [hstop (some (-eIo)) (by
          rw [run_bind_ok (run_ptrAt _ hk world)]
          exact run_blockRead_fail hmount.reads hfail)]
        intro hok
        cases hok
      · have hundefined : run (ptrAt (world.disk.inode i)
            (blockCount (world.disk.inode i).length : Nat)) world = none := by
          rw [ptrAt, dif_neg (by omega)]
          rfl
        rw [hstop none (run_bind_none hundefined)]
        intro hok
        cases hok

theorem read_past_end_iff_sample :
    ReadsToEnd (Sample.world 400 zeroBlock).boot Sample.pathA
        (Sample.fileInode 5000 5 6) 100 4990 ↔
      (4990 : Int) ≥ (Sample.fileInode 5000 5 6).size.toInt ∨
        SpareSlot (Sample.world 400 zeroBlock).boot
          (Sample.fileInode 5000 5 6) :=
  read_past_end_iff
    (Sample.reachable 400 zeroBlock (by decide) (by decide))
    (Sample.run_pathA 400 zeroBlock (by decide) (by decide))
    (Sample.fileInode_isReg 5000 5 6) (by decide) (by decide) (by decide)

/-- The sample's `a`, cut to 100 bytes, cannot be read past its end: the slot
behind its only block holds -1. -/
theorem read_past_end_fails :
    ¬ ∀ world path inum inode (len : Nat) offset, Reachable world →
      run (pathToInode path 0) world = some (.ok (inum, inode), world) →
      sIsReg inode.mode = true → 0 ≤ offset → 1 ≤ len →
      inode.size.toInt < offset + len →
      offset + len < 9223372036854775808 →
      ReadsToEnd world path inode len offset := by
  intro hall
  have hcons := Sample.consistent 400 zeroBlock (by decide) (by decide)
  have hhealthy := Sample.healthy 400 zeroBlock
  have hcut : ∀ request ∈ [Sample.request (.truncate Sample.pathA 100)],
      ∀ world, anyUpdate world request := by
    intro request hmem world
    rw [List.mem_singleton.mp hmem]
    exact ⟨trivial, by decide⟩
  obtain ⟨replies, world, hserve, hsteady⟩ :=
    (Steady.boot hcons hhealthy).serve _ fun request hmem =>
      hcut request hmem (Sample.world 400 zeroBlock)
  have hreach : Reachable world :=
    ⟨_, History.of_serve hcons hhealthy
      (fun request hmem world => (hcut request hmem world).2) hserve⟩
  have hfacts : (serve [Sample.request (.truncate Sample.pathA 100)]
      (Sample.world 400 zeroBlock).boot).map (fun result =>
        ((run (pathToInode Sample.pathA 0) result.2).map fun found =>
          found.1.toOption.map fun there =>
            (sIsReg there.2.mode, there.2.size.toInt),
        (run (fsRead Sample.pathA 200 0) result.2).map fun outcome =>
          outcome.1.isOk)) =
      some (some (some (true, 100)), some false) := by
    decide +kernel
  rw [hserve, Option.map_some, Option.some.injEq, Prod.mk.injEq] at hfacts
  obtain ⟨hfile, hread⟩ := hfacts
  obtain ⟨found, hfound, hthere⟩ := Option.map_eq_some_iff.mp hfile
  obtain ⟨status | ⟨inum, inode⟩, world'⟩ := found
  · cases hthere
  · obtain ⟨-, -, -, -, -, rfl⟩ := hsteady.toMounted.resolve_of_run hfound
    simp only [Except.toOption, Option.map_some, Option.some.injEq,
      Prod.mk.injEq] at hthere
    have hok := hall world' Sample.pathA inum inode 200 0 hreach hfound
      hthere.1 le_rfl (by decide) (by rw [hthere.2]; decide) (by decide)
    rw [show run (fsRead Sample.pathA 200 0) world' = _ from hok] at hread
    cases hread

end Fs5600
