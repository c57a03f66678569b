/-
`fs_truncate` to a smaller, an equal and a larger length.
-/
import Fs5600.Queries

namespace Fs5600

open MachineWord EffectProgram Program

/-! Cutting a file. -/

/-- A file of inode `inode` cut to `len` bytes, of inode `inode'`: the blocks
behind its new end, and no others, are free. -/
structure Cut (world world' : World) (inode inode' : FsInode) (len : Nat) :
    Prop where
  isReg : inode'.isReg = true
  size : inode'.size.toInt = len
  ptrs : ∀ k, k < blockCount len → inode'.ptr k = inode.ptr k
  content : fileContent world'.disk inode' =
    (fileContent world.disk inode).take len
  loaded : world'.globals.bitmap = world'.disk 1
  used : ∀ k, k < blockCount inode.length →
    Marked (world.disk 1) (inode.ptr k)
  freed : ∀ b, Marked (world'.disk 1) b ↔
    Marked (world.disk 1) b ∧ ¬ ∃ k, blockCount len ≤ k ∧
      k < blockCount inode.length ∧ inode.ptr k = b
  counted : world'.globals.statVfs = { world.globals.statVfs with
    bfree := world.globals.statVfs.bfree +
      .ofNat (blockCount inode.length - blockCount len)
    bavail := world.globals.statVfs.bavail +
      .ofNat (blockCount inode.length - blockCount len) }

/-- The counters add in the arithmetic of their type. -/
theorem ofNat_toSize_add (count : UInt64) (n : Nat) :
    UInt64.ofNat (toSize ((count.toNat : Int) + n)).toNat =
      count + .ofNat n := by
  apply UInt64.toNat_inj.mp
  rw [UInt64.toNat_ofNat', UInt64.toNat_add, UInt64.toNat_ofNat', toSize]
  omega

section

variable {world : World} {path : CString} {site : List Slot} {inum : Nat}
  (hresolve : world.disk.resolve (parse path) = .ok (site, inum))
  (hreg : (world.disk.inode inum).isReg = true) {len : Nat}

include hresolve hreg

theorem World.planTruncate_eq
    (hle : blockCount len ≤ blockCount (world.disk.inode inum).length) :
    world.planTruncate path len = .ok (.shrink site inum len) := by
  have hpos : ¬ (len : Int) < 0 := by omega
  simp only [planTruncate, hresolve, hpos, hreg, ↓reduceIte,
    not_true_eq_false, Int.toNat_natCast, Nat.not_lt.mpr hle]

/-- Within the blocks of a file `fs_truncate` sets its length. -/
theorem Steady.run_truncate (hsteady : Steady world)
    (hlen : len < 2147483648)
    (hle : blockCount len ≤ blockCount (world.disk.inode inum).length) :
    ShrinkOk world.disk (parse path) site inum len ∧
      run (fsTruncate path len) world =
        some (.ok 0, Change.apply (.shrink site inum len) world) := by
  have hrun := hsteady.run_follows
    (hsteady.toMounted.follows_truncate path
      (show (len : Int) < 2147483648 by omega))
  rw [World.planTruncate_eq hresolve hreg hle] at hrun
  exact ⟨⟨Disk.node_of_resolve hresolve, hreg, hle⟩, hrun⟩

end

section

variable {world : World} (hmount : Mounted world) {names : List Name}
  {path : List Slot} {inum len : Nat}
  (hok : ShrinkOk world.disk names path inum len)

include hmount hok

theorem ShrinkOk.apply_inode :
    (Change.apply (.shrink path inum len) world).disk.inode inum =
      (world.disk.inode inum).shrink len := by
  have hvalid : Change.Valid world names (.shrink path inum len) := hok
  exact (Change.apply_shows hmount hvalid).inode _ _ _ rfl

theorem ShrinkOk.apply_marked (b : Nat) :
    Marked ((Change.apply (.shrink path inum len) world).disk 1) b ↔
      Marked (world.disk 1) b ∧ ¬ ∃ k, blockCount len ≤ k ∧
        k < blockCount (world.disk.inode inum).length ∧
        (world.disk.inode inum).ptr k = b := by
  have hvalid : Change.Valid world names (.shrink path inum len) := hok
  rw [Change.apply_bitmap hmount hvalid, Change.marked_map hmount hvalid,
    Change.released, FsInode.mem_dropped]
  simp [Change.taken, and_comm]

/-- A file that is cut within its length. -/
theorem ShrinkOk.cut (hshort : len ≤ (world.disk.inode inum).length) :
    Cut world (Change.apply (.shrink path inum len) world)
      (world.disk.inode inum) ((world.disk.inode inum).shrink len) len := by
  have hvalid : Change.Valid world names (.shrink path inum len) := hok
  have hobject := hmount.consistent.object _ _ _ hok.node
  have hmount' := Change.mounted hmount hvalid
  have hlimit := hobject.length_le
  refine ⟨hok.isReg, FsInode.shrink_size _ len (by omega), fun k hk =>
    FsInode.shrink_ptr _ len (Or.inl hk), ?_, hmount'.bitmap, fun k hk => ?_,
    hok.apply_marked hmount, ?_⟩
  · have hcontent := Change.content_eq hmount hvalid hok.node hok.isReg
      (fun path' inum' len' heq => by cases heq; exact hshort)
    simpa [Change.inodeAt, Change.rewrittenInode, Change.contentAt]
      using hcontent
  · exact (hmount.consistent.range _ _
      (Disk.holder_data hok.node hok.isReg hk)).2.2
  · rw [Change.apply_globals hmount, Change.settle, Change.delta]
    simp only [Globals.addFree, Globals.setBitmap_statVfs,
      FsInode.length_dropped, ofNat_toSize_add]

end

/-- `fs_truncate` to at most the size of a file cuts it there, and a write at
its new end puts the bytes behind what is left. -/
theorem truncate_cuts {world : World} (hreach : Reachable world)
    {path : CString} {inum : Int} {inode : FsInode}
    (hfound : run (pathToInode path 0) world =
      some (.ok (inum, inode), world))
    (hreg : sIsReg inode.mode = true) {len : Int} (hlow : 0 ≤ len)
    (hhigh : len ≤ inode.size.toInt) :
    ∃ world' inode', run (fsTruncate path len) world =
        some (.ok 0, world') ∧
      run (pathToInode path 0) world' =
        some (.ok (inum, inode'), world') ∧
      Cut world world' inode inode' len.toNat ∧
      ∀ (ctx : Context) (buf : List UInt8), 1 ≤ buf.length →
        len + buf.length ≤ 4173824 →
        blockCount (len.toNat + buf.length) - blockCount len.toNat ≤
          freeCount (world'.disk 1) world'.disk.diskSize →
        ∃ world'' inode'', run (fsWrite ctx path buf len) world' =
            some (.ok (buf.length : Int), world'') ∧
          run (pathToInode path 0) world'' =
            some (.ok (inum, inode''), world'') ∧
          fileContent world''.disk inode'' =
            (fileContent world.disk inode).take len.toNat ++ buf := by
  have hsteady := hreach.steady
  have hmount := hsteady.toMounted
  obtain ⟨site, i, hresolve, rfl, rfl, -⟩ := hmount.resolve_of_run hfound
  obtain ⟨n, rfl⟩ := Int.eq_ofNat_of_zero_le hlow
  have hobject := hmount.consistent.object _ _ _
    (Disk.node_of_resolve hresolve)
  have hlimit := hobject.length_le
  rw [hobject.size_eq, Int.ofNat_le] at hhigh
  obtain ⟨hok, hrun⟩ := hsteady.run_truncate hresolve hreg
    (show n < 2147483648 by omega) (blockCount_mono hhigh)
  have hvalid : Change.Valid world (parse path) (.shrink site i n) := hok
  have hsteady' := hsteady.apply hvalid
  have hresolve' := Change.resolve_apply hmount hvalid rfl hresolve
  have hcut := hok.cut hmount hhigh
  have hinode' := hok.apply_inode hmount
  refine ⟨_, _, hrun, ?_, hcut, ?_⟩
  · rw [hsteady'.run_target hresolve', hinode']
  intro ctx buf hbuf hend hfits
  have hlength := FsInode.shrink_length (world.disk.inode i) n (by omega)
  have hreg' : ((Change.apply (.shrink site i n) world).disk.inode i).isReg =
      true := by
    rw [hinode']
    exact hcut.isReg
  have hlength' : ((Change.apply (.shrink site i n)
      world).disk.inode i).length = n := by
    rw [hinode', hlength]
  rw [Int.toNat_natCast] at hfits
  obtain ⟨fresh, hwrite, hrun'⟩ := hsteady'.run_write hresolve' hreg' ctx
    hbuf hlength'.ge (by omega) (by rw [hlength']; exact hfits)
  have hmount' := hsteady'.toMounted
  have hvalid' : Change.Valid (Change.apply (.shrink site i n) world)
    (parse path) (.write site i n buf (wordOfInt (ctx.time 0)) fresh) := hwrite
  refine ⟨_, _, hrun', (Change.mounted hmount' hvalid').run_target
    (hwrite.apply_resolve hmount' _), ?_⟩
  rw [hwrite.apply_inode hmount', hwrite.apply_content hmount', hinode',
    hcut.content]
  have hshort : ((fileContent world.disk (world.disk.inode i)).take n).length
      ≤ n := List.length_take_le _ _
  rw [Int.toNat_natCast, List.take_of_length_le hshort,
    List.drop_eq_nil_of_le (hshort.trans (Nat.le_add_right _ _)),
    List.append_nil]

/-- The sample's `a`, of 5000 bytes in two blocks, cut to 4096. -/
theorem truncate_cuts_sample :
    ∃ world' inode', run (fsTruncate Sample.pathA 4096)
        (Sample.world 400 zeroBlock).boot = some (.ok 0, world') ∧
      run (pathToInode Sample.pathA 0) world' =
        some (.ok (4, inode'), world') ∧
      Cut (Sample.world 400 zeroBlock).boot world'
        (Sample.fileInode 5000 5 6) inode' (4096 : Int).toNat ∧
      ∀ (ctx : Context) (buf : List UInt8), 1 ≤ buf.length →
        (4096 : Int) + buf.length ≤ 4173824 →
        blockCount ((4096 : Int).toNat + buf.length) -
            blockCount (4096 : Int).toNat ≤
          freeCount (world'.disk 1) world'.disk.diskSize →
        ∃ world'' inode'', run (fsWrite ctx Sample.pathA buf 4096) world' =
            some (.ok (buf.length : Int), world'') ∧
          run (pathToInode Sample.pathA 0) world'' =
            some (.ok (4, inode''), world'') ∧
          fileContent world''.disk inode'' =
            (fileContent (Sample.world 400 zeroBlock).boot.disk
              (Sample.fileInode 5000 5 6)).take (4096 : Int).toNat ++ buf :=
  truncate_cuts (Sample.reachable 400 zeroBlock (by decide) (by decide))
    (Sample.run_pathA 400 zeroBlock (by decide) (by decide))
    (Sample.fileInode_isReg 5000 5 6) (by decide) (by decide)

/-! Stretching a file. -/

/-- `fs_truncate` to a larger length refuses it and changes nothing, or fills
the file up with zeros and keeps its blocks. -/
def TruncateStretches (world : World) (path : CString) (inum : Int)
    (inode : FsInode) (len : Int) : Prop :=
  run (fsTruncate path len) world = some (.error (-eInval), world) ∨
    ∃ world' inode', run (fsTruncate path len) world =
        some (.ok 0, world') ∧
      run (pathToInode path 0) world' =
        some (.ok (inum, inode'), world') ∧
      inode'.size.toInt = len ∧
      fileContent world'.disk inode' = fileContent world.disk inode ++
        List.replicate (len - inode.size.toInt).toNat 0 ∧
      ∀ k, k < blockCount inode.length → inode'.ptr k = inode.ptr k ∧
        Marked (world'.disk 1) (inode.ptr k)

/-- `fs_truncate` once the new block count has passed its check. -/
def cutFile (finodeInum : Int) (finode : FsInode) (len : Int) : Fs Int := do
  let fileSizeInBlocks := sizeInBlocks finode.size.toInt
  let targetFilesize := toInt32 (sizeInBlocks len)
  let blockRemovalCount := fileSizeInBlocks - targetFilesize
  let removed ← copyPtrs finode blockRemovalCount.toNat targetFilesize
  let finode :=
    { finode.dropPtrs targetFilesize fileSizeInBlocks with
      size := .ofInt len }
  blockWrite finode.encode finodeInum
  modifyBitmapAndWritebackToDisk removed false
  modifyGlobals (Globals.addFree blockRemovalCount)
  pure 0

theorem fsTruncate_eq (path : CString) (len : Int) :
    fsTruncate path len = (do
      rejectIf (len < 0) (-eInval)
      let (finodeInum, finode) ← pathToInode path 0
      rejectIf (¬ sIsReg finode.mode) (-eIsDir)
      rejectIf (toInt32 (sizeInBlocks len) > sizeInBlocks finode.size.toInt)
        (-eInval)
      cutFile finodeInum finode len) := rfl

/-- From there on the only errors are those of the device. -/
theorem cutFile_exits (finodeInum : Int) (finode : FsInode) (len : Int) :
    (cutFile finodeInum finode len).Exits (· = -eIo) := by
  have hwrite : ∀ (buf : Block) (lba : Int),
      (blockWrite buf lba).Exits (· = -eIo) := by
    intro buf lba reply
    cases reply with
    | true => exact trivial
    | false => exact rfl
  have hcopy : ∀ (count : Nat) (blkIdx : Int),
      (copyPtrs finode count blkIdx).Exits (· = -eIo) := by
    intro count
    induction count with
    | zero => exact fun _ => trivial
    | succ count ih =>
        intro blkIdx
        refine Exits.bind ?_ fun ptr => (ih _).bind fun _ => trivial
        rw [ptrAt]
        split <;> trivial
  refine (hcopy _ _).bind fun removed => ?_
  refine (hwrite _ _).bind fun _ => ?_
  refine Exits.bind ?_ fun _ => ?_
  · refine (Exits.require _).bind fun _ => ?_
    exact Exits.bind (fun _ _ => trivial) fun _ =>
      Exits.bind (fun _ => trivial) fun _ => hwrite _ _
  · exact Exits.bind (fun _ _ => trivial) fun _ => trivial

/-- A longer list of values ends in zeros exactly where the values are 0. -/
theorem map_range_eq_append_replicate {f : Nat → UInt8} {m n : Nat}
    (hle : m ≤ n) :
    (List.range n).map f = (List.range m).map f ++ List.replicate (n - m) 0 ↔
      ∀ p, m ≤ p → p < n → f p = 0 := by
  have hsplit : List.range n = List.range m ++ List.range' m (n - m) := by
    rw [List.range_eq_range', List.range_eq_range',
      show n = m + (n - m) by omega, ← List.range'_append_1, Nat.zero_add,
      Nat.add_sub_cancel_left]
  rw [hsplit, List.map_append, List.append_cancel_left_eq,
    List.eq_replicate_iff]
  simp only [List.length_map, List.length_range', true_and, List.mem_map,
    List.mem_range'_1]
  constructor
  · exact fun hall p hlow hhigh => hall _ ⟨p, ⟨hlow, by omega⟩, rfl⟩
  · rintro hall b ⟨p, ⟨hlow, hhigh⟩, rfl⟩
    exact hall p hlow (by omega)

section

variable {world : World} (hsteady : Steady world) {path : CString}
  {site : List Slot} {inum : Nat}
  (hresolve : world.disk.resolve (parse path) = .ok (site, inum))
  (hreg : (world.disk.inode inum).isReg = true)

include hsteady hresolve hreg

theorem Steady.run_fsTruncate {len : Int} (hlow : 0 ≤ len) :
    run (fsTruncate path len) world =
      if toInt32 (sizeInBlocks len) >
          sizeInBlocks (world.disk.inode inum).size.toInt then
        some (.error (-eInval), world)
      else run (cutFile inum (world.disk.inode inum) len) world := by
  rw [fsTruncate_eq, run_rejectIf_bind, if_neg (not_lt.mpr hlow),
    run_bind_ok (hsteady.run_target hresolve)]
  dsimp only
  rw [run_rejectIf_bind, if_neg (not_not.mpr hreg), run_rejectIf_bind]

omit hreg in
/-- A length that an `int` can hold passes the check if it ends within the
blocks of the file. -/
theorem Steady.truncate_check_iff {len : Nat} (hlen : len < 2147483648) :
    toInt32 (sizeInBlocks len) >
        sizeInBlocks (world.disk.inode inum).size.toInt ↔
      ¬ blockCount len ≤ blockCount (world.disk.inode inum).length := by
  have hobject := hsteady.consistent.object _ _ _
    (Disk.node_of_resolve hresolve)
  rw [hobject.sizeInBlocks_eq, sizeInBlocks_natCast,
    toInt32_natCast (by rw [blockCount]; omega), gt_iff_lt, Int.ofNat_lt,
    not_le]

/-- Stretching within the last block shows what lies there. -/
theorem Steady.truncateStretches_iff {len : Nat}
    (hlonger : (world.disk.inode inum).length ≤ len)
    (hlen : len < 2147483648)
    (hle : blockCount len ≤ blockCount (world.disk.inode inum).length) :
    TruncateStretches world path inum (world.disk.inode inum) len ↔
      ∀ p, (world.disk.inode inum).length ≤ p → p < len →
        blockByte (fun k =>
          world.disk ((world.disk.inode inum).ptr k)) p = 0 := by
  have hmount := hsteady.toMounted
  have hobject := hmount.consistent.object _ _ _
    (Disk.node_of_resolve hresolve)
  obtain ⟨hok, hrun⟩ := hsteady.run_truncate hresolve hreg hlen hle
  have hvalid : Change.Valid world (parse path) (.shrink site inum len) := hok
  have hthere := (Change.mounted hmount hvalid).run_target
    (Change.resolve_apply hmount hvalid rfl hresolve)
  have hcontent := ShrinkOk.apply_content hmount hok.node hok
  have hcount : ((len : Int) - (world.disk.inode inum).size.toInt).toNat =
      len - (world.disk.inode inum).length := by
    rw [hobject.size_eq]
    omega
  rw [hok.apply_inode hmount] at hthere
  rw [← map_range_eq_append_replicate hlonger, TruncateStretches, hcount]
  constructor
  · rintro (hrefuses | ⟨world', inode', hrun', hthere', -, hbytes, -⟩)
    · rw [hrun] at hrefuses
      cases hrefuses
    · rw [hrun] at hrun'
      cases hrun'
      rw [hthere] at hthere'
      cases hthere'
      exact hcontent.symm.trans hbytes
  · intro hbytes
    refine Or.inr ⟨_, _, hrun, hthere, FsInode.shrink_size _ len hlen,
      hcontent.trans hbytes, fun k hk => ⟨FsInode.shrink_ptr _ len
        (Or.inl (hk.trans_le (blockCount_mono hlonger))), ?_⟩⟩
    refine (hok.apply_marked hmount _).mpr ⟨(hmount.consistent.range _ _
      (Disk.holder_data hok.node hreg hk)).2.2, ?_⟩
    rintro ⟨k', hlow, hhigh, -⟩
    have hsame := blockCount_mono hlonger
    omega

end

/-- `fs_truncate` to a larger length is right exactly where its narrowed block
count exceeds that of the file, or where the length fits an `int` and the
bytes that come into view are 0. -/
theorem truncate_stretches_iff {world : World} (hreach : Reachable world)
    {path : CString} {inum : Int} {inode : FsInode}
    (hfound : run (pathToInode path 0) world =
      some (.ok (inum, inode), world))
    (hreg : sIsReg inode.mode = true) {len : Int}
    (hlonger : inode.size.toInt < len) :
    TruncateStretches world path inum inode len ↔
      toInt32 (sizeInBlocks len) > sizeInBlocks inode.size.toInt ∨
        (len < 2147483648 ∧ ∀ p : Nat, inode.size.toInt ≤ p →
          (p : Int) < len →
          blockByte (fun k => world.disk (inode.ptr k)) p = 0) := by
  have hsteady := hreach.steady
  obtain ⟨site, i, hresolve, rfl, rfl, -⟩ :=
    hsteady.toMounted.resolve_of_run hfound
  have hobject := hsteady.consistent.object _ _ _
    (Disk.node_of_resolve hresolve)
  have hsize := hobject.size_eq
  obtain ⟨n, rfl⟩ := Int.eq_ofNat_of_zero_le (a := len) (by omega)
  have hrun := hsteady.run_fsTruncate hresolve hreg (Int.natCast_nonneg n)
  by_cases hover : toInt32 (sizeInBlocks n) >
      sizeInBlocks (world.disk.inode i).size.toInt
  · rw [if_pos hover] at hrun
    exact iff_of_true (Or.inl hrun) (Or.inl hover)
  rw [if_neg hover] at hrun
  by_cases hlen : n < 2147483648
  · have hle := not_not.mp
      ((hsteady.truncate_check_iff hresolve hlen).not.mp hover)
    rw [hsteady.truncateStretches_iff hresolve hreg (by omega) hlen hle,
      or_iff_right hover, and_iff_right (by omega), hsize]
    simp only [Int.ofNat_le, Int.ofNat_lt]
  · refine iff_of_false ?_ ?_
    · rintro (hrefuses | ⟨world', inode', -, -, hsize', -⟩)
      · rw [hrun] at hrefuses
        exact absurd ((cutFile_exits _ _ _).exec_error hrefuses) (by decide)
      · have hlt := inode'.size.toInt_lt
        omega
    · rintro (hover' | ⟨hlen', -⟩)
      · exact hover hover'
      · omega

theorem truncate_stretches_iff_sample :
    TruncateStretches (Sample.world 400 zeroBlock).boot Sample.pathA 4
        (Sample.fileInode 5000 5 6) 6000 ↔
      toInt32 (sizeInBlocks 6000) >
          sizeInBlocks (Sample.fileInode 5000 5 6).size.toInt ∨
        ((6000 : Int) < 2147483648 ∧ ∀ p : Nat,
          (Sample.fileInode 5000 5 6).size.toInt ≤ p → (p : Int) < 6000 →
          blockByte (fun k => (Sample.world 400 zeroBlock).boot.disk
            ((Sample.fileInode 5000 5 6).ptr k)) p = 0) :=
  truncate_stretches_iff
    (Sample.reachable 400 zeroBlock (by decide) (by decide))
    (Sample.run_pathA 400 zeroBlock (by decide) (by decide))
    (Sample.fileInode_isReg 5000 5 6) (by decide)

/-- The byte behind the end of the sample's `a` comes into view. -/
theorem truncate_shows_slack :
    ¬ ∀ world path inum inode (len : Int), Reachable world →
      run (pathToInode path 0) world = some (.ok (inum, inode), world) →
      sIsReg inode.mode = true → inode.size.toInt < len →
      len < 9223372036854775808 →
      TruncateStretches world path inum inode len := by
  intro hall
  have hsteady := Sample.steady 400 (fun _ => 1) (by decide) (by decide)
  have hresolve := Sample.resolve_a 400 (fun _ => 1) (by decide) (by decide)
  have hinode : (Sample.world 400 fun _ => 1).boot.disk.inode 4 =
      Sample.fileInode 5000 5 6 := Sample.inode_a 400 fun _ => 1
  have hstretches := hall _ _ _ _ 5001
    (Sample.reachable 400 (fun _ => 1) (by decide) (by decide))
    (Sample.run_pathA 400 (fun _ => 1) (by decide) (by decide))
    (Sample.fileInode_isReg 5000 5 6) (by decide) (by decide)
  rw [← hinode] at hstretches
  have hreg : ((Sample.world 400 fun _ => 1).boot.disk.inode 4).isReg =
      true := by
    rw [hinode]
    exact Sample.fileInode_isReg 5000 5 6
  have hiff := hsteady.truncateStretches_iff hresolve hreg
    (show _ ≤ 5001 by rw [hinode]; decide) (by decide)
    (by rw [hinode]; decide)
  have hzero := hiff.mp hstretches 5000 (by rw [hinode]; decide) (by decide)
  rw [hinode] at hzero
  exact absurd hzero (by decide)

end Fs5600
