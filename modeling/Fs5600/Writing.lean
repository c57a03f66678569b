/-
The contents of a file after `fs_write`, and what `fs_read` then returns.
-/
import Fs5600.Contents

namespace Fs5600

open MachineWord EffectProgram Program LabelledWalk

section

variable {world : World} (hmount : Mounted world) {names : List Name}
  {path : List Slot} {inum offset : Nat} {buf : List UInt8}
  {fresh : List Nat} (hok : WriteOk world names path inum offset buf fresh)
  (mtime : UInt32)

include hmount hok

/-- The inode stored by a write. -/
theorem WriteOk.apply_inode :
    (Change.apply (.write path inum offset buf mtime fresh)
        world).disk.inode inum =
      (world.disk.inode inum).extend fresh (offset + buf.length) mtime := by
  have hvalid : Change.Valid world names
    (.write path inum offset buf mtime fresh) := hok
  exact (Change.apply_shows hmount hvalid).inode _ _ _ rfl

/-- The blocks of the range are stored merged. -/
theorem WriteOk.apply_written {k : Nat} (hlow : offset / 4096 ≤ k)
    (hhigh : k < blockCount (offset + buf.length)) :
    (Change.apply (.write path inum offset buf mtime fresh) world).disk
        (((world.disk.inode inum).extend fresh (offset + buf.length)
          mtime).ptr k) =
      mergedBlock world.disk
        ((world.disk.inode inum).extend fresh (offset + buf.length) mtime)
        (blockCount (world.disk.inode inum).length) offset buf k := by
  have hvalid : Change.Valid world names
    (.write path inum offset buf mtime fresh) := hok
  refine applyAll_disk_of_once (Change.effects_once hmount hvalid) ?_
  refine List.mem_append_left _ (List.mem_append_right _
    (List.mem_cons_of_mem _ (List.mem_map.mpr ⟨k, ?_, rfl⟩)))
  rw [List.mem_range'_1]
  omega

/-- The other blocks of the file stay. -/
theorem WriteOk.apply_kept {k : Nat}
    (hold : k < blockCount (world.disk.inode inum).length)
    (hout : k < offset / 4096 ∨ blockCount (offset + buf.length) ≤ k) :
    (Change.apply (.write path inum offset buf mtime fresh) world).disk
        ((world.disk.inode inum).ptr k) =
      world.disk ((world.disk.inode inum).ptr k) := by
  have hdata := Disk.holder_data hok.node hok.isReg hold
  have hrange := hmount.consistent.range _ _ hdata
  refine applyAll_disk_of_notMem fun block hmem => ?_
  rw [Change.effects] at hmem
  simp only [List.mem_append, List.mem_cons] at hmem
  rcases hmem with (hmark | hinode | hstored) | hmodify | hnil
  · split at hmark
    · cases hmark
    · have hone := (mem_markEffects hmark).1
      omega
  · rw [Effect.write.injEq] at hinode
    exact hmount.consistent.holder_ne hdata (Disk.holder_inode hok.node)
      (by simp) hinode.1
  · obtain ⟨i, hi, hwritten⟩ := List.mem_map.mp hstored
    rw [List.mem_range'_1] at hi
    rw [Effect.write.injEq] at hwritten
    rcases hmount.extend_ptr_cases hok.blockCount_le hok.fresh mtime
      (show i < blockCount (offset + buf.length) by omega) with
      ⟨hi', hptr⟩ | hfresh
    · rw [hptr] at hwritten
      refine hmount.consistent.holder_ne
        (Disk.holder_data hok.node hok.isReg hi') hdata ?_ hwritten.1
      simp only [ne_eq, Prod.mk.injEq, Role.data.injEq, true_and]
      omega
    · rw [hwritten.1] at hfresh
      exact (hmount.usable_of_lowestFree hok.fresh _ hfresh).2.2 hrange.2.2
  · cases hmodify
  · cases hnil

/-- Every byte of a written file is one of the buffer or an old one. -/
theorem WriteOk.apply_byte {p : Nat}
    (hp : p < max (world.disk.inode inum).length (offset + buf.length)) :
    blockByte (fun k =>
        (Change.apply (.write path inum offset buf mtime fresh) world).disk
          (((world.disk.inode inum).extend fresh (offset + buf.length)
            mtime).ptr k)) p =
      if offset ≤ p ∧ p < offset + buf.length then buf.getD (p - offset) 0
      else blockByte (fun k =>
        world.disk ((world.disk.inode inum).ptr k)) p := by
  have hinside := hok.inside
  have hplace : 4096 * (p / 4096) + p % 4096 = p := by omega
  have holdPtr : p / 4096 < blockCount (world.disk.inode inum).length →
      ((world.disk.inode inum).extend fresh (offset + buf.length)
        mtime).ptr (p / 4096) = (world.disk.inode inum).ptr (p / 4096) :=
    fun hold => FsInode.extend_ptr _ _ _ _ (Or.inl hold)
  rw [blockByte]
  by_cases hin : offset / 4096 ≤ p / 4096 ∧
      p / 4096 < blockCount (offset + buf.length)
  · rw [hok.apply_written hmount mtime hin.1 hin.2, mergedBlock]
    simp only [hplace]
    split
    · rfl
    next hout =>
      have hpold : p < (world.disk.inode inum).length := by omega
      have hold : p / 4096 < blockCount (world.disk.inode inum).length :=
        lt_blockCount.mpr (by omega)
      have hedge : (p / 4096 = offset / 4096 ∧
            0 < blockCount (world.disk.inode inum).length) ∨
          (p / 4096 = (offset + buf.length - 1) / 4096 ∧
            1 < blockCount (world.disk.inode inum).length) := by
        have hlast := blockCount_eq_succ offset hok.nonempty
        omega
      rw [if_pos hedge, holdPtr hold, blockByte]
  · have hout : p / 4096 < offset / 4096 ∨
        blockCount (offset + buf.length) ≤ p / 4096 := by omega
    have hlast := blockCount_eq_succ offset hok.nonempty
    have hpold : p < (world.disk.inode inum).length := by omega
    have hold : p / 4096 < blockCount (world.disk.inode inum).length :=
      lt_blockCount.mpr (by omega)
    rw [holdPtr hold, hok.apply_kept hmount mtime hold hout,
      if_neg (by omega), blockByte]

/-- The buffer replaces its range, and the rest of the file stays. -/
theorem WriteOk.apply_content :
    fileContent
        (Change.apply (.write path inum offset buf mtime fresh) world).disk
        ((world.disk.inode inum).extend fresh (offset + buf.length) mtime) =
      (fileContent world.disk (world.disk.inode inum)).take offset ++ buf ++
        (fileContent world.disk (world.disk.inode inum)).drop
          (offset + buf.length) := by
  have hobject := hmount.consistent.object _ _ _ hok.node
  have hinside := hok.inside
  have hlimit := hok.limit
  have hlength := FsInode.extend_length (world.disk.inode inum) fresh
    (offset + buf.length) mtime (hobject.size_range hok.isReg).1 (by omega)
  have hsplit : List.range (max (world.disk.inode inum).length
      (offset + buf.length)) =
      List.range' 0 offset ++ List.range' offset buf.length ++
        List.range' (offset + buf.length)
          ((world.disk.inode inum).length - (offset + buf.length)) := by
    have hmax : max (world.disk.inode inum).length (offset + buf.length) =
        offset + buf.length +
          ((world.disk.inode inum).length - (offset + buf.length)) := by
      omega
    have hfront := List.range'_append_1 (s := 0) (m := offset)
      (n := buf.length)
    rw [Nat.zero_add] at hfront
    have hback := List.range'_append_1 (s := 0) (m := offset + buf.length)
      (n := (world.disk.inode inum).length - (offset + buf.length))
    rw [Nat.zero_add] at hback
    rw [List.range_eq_range', hmax, ← hback, ← hfront]
  have hbyte := fun p hp => hok.apply_byte hmount mtime (p := p) hp
  have hfront : ((fileContent world.disk (world.disk.inode inum)).drop
      0).take offset = _ := fileContent_slice _ _ (by omega)
  rw [List.drop_zero] at hfront
  rw [fileContent, hlength, hsplit, List.map_append, List.map_append]
  congr 1
  · congr 1
    · rw [hfront]
      refine List.map_congr_left fun p hp => ?_
      rw [List.mem_range'_1] at hp
      rw [hbyte p (by omega), if_neg (by omega)]
    · apply List.ext_getElem
      · rw [List.length_map, List.length_range']
      · intro j hj hj'
        rw [List.getElem_map, List.getElem_range', hbyte _ (by omega),
          if_pos (by omega), Nat.one_mul, Nat.add_sub_cancel_left,
          List.getD_eq_getElem _ _ hj']
  · rw [fileContent, ← List.map_drop, List.range_eq_range', List.drop_range',
      Nat.mul_one, Nat.zero_add]
    refine List.map_congr_left fun p hp => ?_
    rw [List.mem_range'_1] at hp
    rw [hbyte p (by omega), if_neg (by omega)]

end

/-- A write that has passed its checks depends on the free blocks only. -/
theorem World.planWrite_eq {world : World} {path : CString}
    {site : List Slot} {inum : Nat}
    (hresolve : world.disk.resolve (parse path) = .ok (site, inum))
    (hreg : (world.disk.inode inum).isReg = true) (ctx : Context)
    (buf : List UInt8) {offset : Nat}
    (hinside : offset ≤ (world.disk.inode inum).length) :
    world.planWrite ctx path buf offset =
      match lowestFree world.globals.bitmap world.disk.diskSize
          (blockCount (offset + buf.length) -
            blockCount (world.disk.inode inum).length) with
      | none => .error (-eNoSpc)
      | some fresh =>
          .ok (.write site inum offset buf (wordOfInt (ctx.time 0)) fresh) := by
  have hnot : ¬ (offset : Int) > (world.disk.inode inum).length := by omega
  cases hfresh : lowestFree world.globals.bitmap world.disk.diskSize
      (blockCount (offset + buf.length) -
        blockCount (world.disk.inode inum).length) <;>
    simp only [planWrite, hresolve, hreg, hnot, hfresh, not_true_eq_false,
      ↓reduceIte, Int.toNat_natCast]

/-- Rewriting an inode moves nothing. -/
theorem Change.resolve_apply {world : World} (hmount : Mounted world)
    {change : Change} {names : List Name}
    (hvalid : change.Valid world names) {path : List Slot} {inum : Nat}
    {new : FsInode}
    (hview : change.rewrittenInode world.disk = some (path, inum, new))
    {names' : List Name} {there : List Slot × Nat}
    (hresolve : world.disk.resolve names' = .ok there) :
    (change.apply world).disk.resolve names' = .ok there := by
  have hrw := Change.inodeRewrite hmount hvalid
    (Change.apply_shows hmount hvalid) hview
  exact Disk.resolve_of_node (Change.mounted hmount hvalid).consistent.object
    ((hrw.node_eq there.1).trans (Disk.node_of_resolve hresolve))

/-- The file at a path after a write to it. -/
theorem WriteOk.apply_resolve {world : World} (hmount : Mounted world)
    {path : CString} {site : List Slot} {inum offset : Nat}
    {buf : List UInt8} {fresh : List Nat}
    (hok : WriteOk world (parse path) site inum offset buf fresh)
    (mtime : UInt32) :
    (Change.apply (.write site inum offset buf mtime fresh)
      world).disk.resolve (parse path) = .ok (site, inum) := by
  have hvalid : Change.Valid world (parse path)
    (.write site inum offset buf mtime fresh) := hok
  exact Change.resolve_apply hmount hvalid rfl (Disk.resolve_of_node
    hmount.consistent.object hok.node)

/-- The blocks that a write has to reserve, as the number is computed. -/
theorem ObjectOk.needed_eq {disk : Disk} {i : Nat} (hobject : ObjectOk disk i)
    (last : Nat) :
    max 0 (sizeInBlocks (last : Int) -
      sizeInBlocks (disk.inode i).size.toInt) =
      ((blockCount last - blockCount (disk.inode i).length : Nat) : Int) := by
  rw [sizeInBlocks_natCast, hobject.sizeInBlocks_eq]
  omega

section

variable {world : World} (hmount : Mounted world) {path : CString}
  {site : List Slot} {inum offset : Nat} {buf : List UInt8}
  {fresh : List Nat}
  (hok : WriteOk world (parse path) site inum offset buf fresh)
  (mtime : UInt32)

include hmount hok

/-- The size of a file after a write to it. -/
theorem WriteOk.apply_size :
    ((Change.apply (.write site inum offset buf mtime fresh)
      world).disk.inode inum).size.toInt =
      max (world.disk.inode inum).size.toInt (offset + buf.length) := by
  have hobject := hmount.consistent.object _ _ _ hok.node
  have hlength := hobject.length_le
  have hlimit := hok.limit
  rw [hok.apply_inode hmount mtime, FsInode.extend_size _ _ _ _
    (hobject.size_range hok.isReg).1 (by omega), hobject.size_eq]
  omega

/-- What `fs_read` returns from a file after a write to it. -/
theorem WriteOk.apply_read {p len : Nat} (hlen : 1 ≤ len)
    (hfits : (p + len : Int) ≤ ((Change.apply
      (.write site inum offset buf mtime fresh)
        world).disk.inode inum).size.toInt) :
    run (fsRead path len p)
        (Change.apply (.write site inum offset buf mtime fresh) world) =
      some (.ok ((len : Int),
        (((fileContent world.disk (world.disk.inode inum)).take offset ++
          buf ++ (fileContent world.disk (world.disk.inode inum)).drop
            (offset + buf.length)).drop p).take len),
        Change.apply (.write site inum offset buf mtime fresh) world) := by
  have hvalid : Change.Valid world (parse path)
    (.write site inum offset buf mtime fresh) := hok
  have hmount' := Change.mounted hmount hvalid
  have hresolve' := hok.apply_resolve hmount mtime
  have hinode' := hok.apply_inode hmount mtime
  have hreg' : ((Change.apply (.write site inum offset buf mtime fresh)
      world).disk.inode inum).isReg = true := by
    rw [hinode']
    exact hok.isReg
  have hobject' := hmount'.consistent.object _ _ _
    (Disk.node_of_resolve hresolve')
  rw [hobject'.size_eq] at hfits
  have hread := hmount'.run_fsRead_inside hresolve' hreg' hlen
    (show p + len ≤ _ by omega)
  rw [hinode', hok.apply_content hmount] at hread
  exact hread

end

/-- A write to a file goes ahead if there are blocks for it. -/
theorem Steady.run_write {world : World} (hsteady : Steady world)
    {path : CString} {site : List Slot} {inum : Nat}
    (hresolve : world.disk.resolve (parse path) = .ok (site, inum))
    (hreg : (world.disk.inode inum).isReg = true) (ctx : Context)
    {buf : List UInt8} (hbuf : 1 ≤ buf.length) {offset : Nat}
    (hinside : offset ≤ (world.disk.inode inum).length)
    (hlimit : offset + buf.length ≤ 4173824)
    (hfits : blockCount (offset + buf.length) -
        blockCount (world.disk.inode inum).length ≤
      freeCount (world.disk 1) world.disk.diskSize) :
    ∃ fresh, WriteOk world (parse path) site inum offset buf fresh ∧
      run (fsWrite ctx path buf offset) world =
        some (.ok (buf.length : Int), Change.apply
          (.write site inum offset buf (wordOfInt (ctx.time 0)) fresh)
            world) := by
  have hmount := hsteady.toMounted
  have hrun := hsteady.run_follows (hmount.follows_write ctx path hbuf
    (Int.natCast_nonneg offset) (by omega))
  rw [World.planWrite_eq hresolve hreg ctx buf hinside] at hrun
  cases hfree : lowestFree world.globals.bitmap world.disk.diskSize
      (blockCount (offset + buf.length) -
        blockCount (world.disk.inode inum).length) with
  | none =>
      rw [hmount.bitmap, lowestFree_eq_none] at hfree
      omega
  | some fresh =>
      rw [hfree] at hrun
      exact ⟨fresh, ⟨Disk.node_of_resolve hresolve, hreg, hinside, hbuf,
        hlimit, hfree⟩, hrun⟩

/-- `fs_write` fails for want of blocks only, and what it has written is what
`fs_read` then returns. -/
theorem write_then_read {world : World} (hreach : Reachable world)
    {path : CString} {inum : Int} {inode : FsInode}
    (hfound : run (pathToInode path 0) world =
      some (.ok (inum, inode), world))
    (hreg : sIsReg inode.mode = true) (ctx : Context) {buf : List UInt8}
    (hbuf : 1 ≤ buf.length) {offset : Int} (hoffset : 0 ≤ offset)
    (hinside : offset ≤ inode.size.toInt)
    (hlimit : offset + buf.length ≤ 4173824) :
    ((∃ world', run (fsWrite ctx path buf offset) world =
        some (.error (-eNoSpc), world')) ↔
      (freeCount (world.disk 1) world.disk.diskSize : Int) <
        max 0 (sizeInBlocks (offset + buf.length) -
          sizeInBlocks inode.size.toInt)) ∧
    (max 0 (sizeInBlocks (offset + buf.length) -
        sizeInBlocks inode.size.toInt) ≤
        freeCount (world.disk 1) world.disk.diskSize →
      ∃ world' inode',
        run (fsWrite ctx path buf offset) world =
          some (.ok (buf.length : Int), world') ∧
        run (pathToInode path 0) world' =
          some (.ok (inum, inode'), world') ∧
        sIsReg inode'.mode = true ∧
        inode'.size.toInt = max inode.size.toInt (offset + buf.length) ∧
        ∀ o len : Nat, 1 ≤ len → (o + len : Int) ≤ inode'.size.toInt →
          run (fsRead path len o) world' =
            some (.ok ((len : Int),
              (((fileContent world.disk inode).take offset.toNat ++ buf ++
                (fileContent world.disk inode).drop
                  (offset.toNat + buf.length)).drop o).take len),
              world')) := by
  have hsteady := hreach.steady
  have hmount := hsteady.toMounted
  obtain ⟨site, i, hresolve, rfl, rfl, -⟩ := hmount.resolve_of_run hfound
  obtain ⟨o, rfl⟩ := Int.eq_ofNat_of_zero_le hoffset
  have hnode := Disk.node_of_resolve hresolve
  have hobject := hmount.consistent.object _ _ _ hnode
  have hsize := hobject.size_eq
  have hin : o ≤ (world.disk.inode i).length := by omega
  have hneeded := hobject.needed_eq (o + buf.length)
  rw [Nat.cast_add] at hneeded
  rw [hneeded, Int.ofNat_lt, Int.ofNat_le]
  constructor
  · have hrun := hsteady.run_follows
      (hmount.follows_write ctx path hbuf hoffset hlimit)
    rw [World.planWrite_eq hresolve hreg ctx buf hin, hmount.bitmap] at hrun
    rw [← lowestFree_eq_none]
    cases hfree : lowestFree (world.disk 1) world.disk.diskSize
        (blockCount (o + buf.length) -
          blockCount (world.disk.inode i).length) with
    | none =>
        rw [hfree] at hrun
        exact iff_of_true ⟨_, hrun⟩ rfl
    | some fresh =>
        rw [hfree] at hrun
        refine iff_of_false ?_ (by simp)
        rintro ⟨world', hfull⟩
        rw [hrun] at hfull
        cases hfull
  · intro hfits
    obtain ⟨fresh, hok, hrun⟩ := hsteady.run_write hresolve hreg ctx hbuf hin
      (by omega) hfits
    have hvalid : Change.Valid world (parse path)
      (.write site i o buf (wordOfInt (ctx.time 0)) fresh) := hok
    have hmount' := Change.mounted hmount hvalid
    have hinode' := hok.apply_inode hmount (wordOfInt (ctx.time 0))
    refine ⟨_, _, hrun, hmount'.run_target (hok.apply_resolve hmount
      (wordOfInt (ctx.time 0))), ?_, hok.apply_size hmount _,
      fun p len hlen hfits => hok.apply_read hmount _ hlen hfits⟩
    rw [hinode']
    exact hreg

/-- Three bytes written across a block boundary of the sample's `a` need no
block, and are read back. -/
theorem write_then_read_sample :
    ∃ world' inode',
      run (fsWrite Sample.context Sample.pathA [1, 2, 3] 4094)
          (Sample.world 400 zeroBlock).boot = some (.ok 3, world') ∧
      run (pathToInode Sample.pathA 0) world' =
        some (.ok (4, inode'), world') ∧
      sIsReg inode'.mode = true ∧
      inode'.size.toInt =
        max (Sample.fileInode 5000 5 6).size.toInt (4094 + 3) ∧
      ∀ o len : Nat, 1 ≤ len → (o + len : Int) ≤ inode'.size.toInt →
        run (fsRead Sample.pathA len o) world' =
          some (.ok ((len : Int),
            (((fileContent (Sample.world 400 zeroBlock).boot.disk
                (Sample.fileInode 5000 5 6)).take 4094 ++ [1, 2, 3] ++
              (fileContent (Sample.world 400 zeroBlock).boot.disk
                (Sample.fileInode 5000 5 6)).drop (4094 + 3)).drop o).take
                  len),
            world') :=
  (write_then_read
    (Sample.reachable 400 zeroBlock (by decide) (by decide))
    (Sample.run_pathA 400 zeroBlock (by decide) (by decide))
    (Sample.fileInode_isReg 5000 5 6) Sample.context
    (show 1 ≤ [1, 2, 3].length by decide) (show (0 : Int) ≤ 4094 by decide)
    (by decide) (by decide)).2 (le_trans (by decide) (Int.natCast_nonneg _))

end Fs5600
