/-
The allocator by itself: what the scan for clear bits hands out, and what
marking the result and releasing it again does to the bitmap, in memory and on
disk.  Nothing is assumed of the bitmap or of the rest of the image.
-/
import Fs5600.SampleImage

namespace Fs5600

open MachineWord EffectProgram Program

/-- The `n` lowest clear positions below `limit`, in increasing order. -/
structure Reserved (map : Block) (limit n : Nat) (blocks : List Nat) :
    Prop where
  length_eq : blocks.length = n
  increasing : blocks.Pairwise (· < ·)
  clear : ∀ i ∈ blocks, i < limit ∧ ¬ Marked map i
  lowest : ∀ i ∈ blocks, ∀ j, j < i → ¬ Marked map j → j ∈ blocks

/-- A prefix of an increasing list holds every smaller element of it. -/
theorem mem_take_of_increasing {blocks : List Nat}
    (hsorted : blocks.Pairwise (· < ·)) {n i j : Nat}
    (hi : i ∈ blocks.take n) (hj : j ∈ blocks) (hlt : j < i) :
    j ∈ blocks.take n := by
  rw [← List.take_append_drop n blocks, List.mem_append] at hj
  rcases hj with hfront | hback
  · exact hfront
  · rw [← List.take_append_drop n blocks] at hsorted
    have hle := (List.pairwise_append.mp hsorted).2.2 i hi j hback
    omega

theorem lowestFree_reserved {map : Block} {limit n : Nat}
    {blocks : List Nat} (hfound : lowestFree map limit n = some blocks) :
    Reserved map limit n blocks := by
  obtain ⟨hlength, -, hclear⟩ := lowestFree_eq_some hfound
  have hsorted : ((List.range limit).filter fun i =>
      bitTest map i = 0).Pairwise (· < ·) :=
    List.pairwise_lt_range.filter _
  simp only [lowestFree] at hfound
  split at hfound
  next hle =>
    cases hfound
    refine ⟨hlength, hsorted.sublist (List.take_sublist _ _), hclear, ?_⟩
    intro i hi j hlt hfree
    refine mem_take_of_increasing hsorted hi ?_ hlt
    have hj : j < limit := hlt.trans (hclear i hi).1
    simpa [Marked, hj] using hfree
  next => cases hfound

theorem Device.store_disk_self (device : Device) (b : Nat) (buf : Block) :
    (device.store b buf).disk b = buf := by
  unfold Device.store
  split
  · exact Function.update_self _ _ _
  · simp

theorem Device.store_disk_of_lt {device : Device} {b : Nat}
    (hb : b < device.size) (buf : Block) :
    (device.store b buf).disk = Function.update device.disk b buf := by
  rw [Device.store, if_pos hb]

theorem Device.store_size_of_lt {device : Device} {b : Nat}
    (hb : b < device.size) (buf : Block) :
    (device.store b buf).size = device.size := by
  rw [Device.store, if_pos hb]

theorem World.issued_store_disk (world : World) (b : Nat) (buf : Block) :
    (world.issued.device.store b buf).disk =
      (world.device.store b buf).disk := by
  by_cases hb : b < world.device.size
  · rw [Device.store_disk_of_lt hb,
      Device.store_disk_of_lt (show b < world.issued.device.size from hb)]
    rfl
  · rw [Device.store, Device.store, if_neg hb,
      if_neg (show ¬ b < world.issued.device.size from hb)]
    rfl

/-- The bitmap of block 1 is stored whatever the size of the image. -/
theorem run_blockWrite_one (world : World) (buf : Block) :
    ∃ world', run (blockWrite buf 1) world =
        some (if world.device.writeFails 0 then .error (-eIo) else .ok (),
          world') ∧
      world'.globals = world.globals ∧
      world'.disk = if world.device.writeFails 0 then world.disk
        else (world.device.store 1 buf).disk := by
  have hend : ¬ toInt32 (toInt32 (1 * 4096) + 4096) < 0 := by decide
  have hseek : seekBlock 1 = some 1 := by decide
  cases hfails : world.device.writeFails 0 with
  | true =>
      exact ⟨world.issued, by
        simp [blockWrite, Program.exec, handle, Device.blockWrite, hfails,
          World.issued], rfl, rfl⟩
  | false =>
      refine ⟨{ world with
        device := world.issued.device.store 1 buf }, ?_, rfl, ?_⟩
      · simp only [run, blockWrite, Program.exec, handle, Device.blockWrite,
          hfails, hend, hseek]
        rfl
      · exact World.issued_store_disk world 1 buf

/-- `modify_bitmap_and_writeback_to_disk` in any state. -/
theorem run_modifyBitmapAndWritebackToDisk (world : World)
    {blocks : List Int} (hin : ∀ i ∈ blocks, 0 ≤ i ∧ i < 32768)
    (setFlag : Bool) :
    ∃ world', run (modifyBitmapAndWritebackToDisk blocks setFlag) world =
        some (if world.device.writeFails 0 then .error (-eIo) else .ok (),
          world') ∧
      world'.globals = world.globals.setBitmap
        (if setFlag then
          bitSetAll world.globals.bitmap (blocks.map Int.toNat)
        else bitClearAll world.globals.bitmap (blocks.map Int.toNat)) ∧
      world'.disk = if world.device.writeFails 0 then world.disk
        else (world.device.store 1 world'.globals.bitmap).disk := by
  rw [modifyBitmapAndWritebackToDisk, run_require_bind, if_pos hin,
    run_bind_ok (run_modifyGlobals _ _), run_bind_ok (run_loadGlobals _)]
  obtain ⟨world', hrun, hglobals, hdisk⟩ := run_blockWrite_one
    (world.modify fun globals =>
      if setFlag then
        globals.setBitmap (bitSetAll globals.bitmap (blocks.map Int.toNat))
      else globals.setBitmap
        (bitClearAll globals.bitmap (blocks.map Int.toNat))) _
  refine ⟨world', hrun, ?_, ?_⟩
  · rw [hglobals, World.modify_globals]
    cases setFlag <;> rfl
  · rw [hdisk, hglobals]
    rfl

/-- The same for a list of block numbers. -/
theorem run_modifyBitmap_natCast (world : World) {blocks : List Nat}
    (hlt : ∀ i ∈ blocks, i < 32768) (setFlag : Bool) :
    ∃ world', run (modifyBitmapAndWritebackToDisk (blocks.map Int.ofNat)
          setFlag) world =
        some (if world.device.writeFails 0 then .error (-eIo) else .ok (),
          world') ∧
      world'.globals = world.globals.setBitmap
        (if setFlag then bitSetAll world.globals.bitmap blocks
          else bitClearAll world.globals.bitmap blocks) ∧
      (world.device.writeFails 0 = false →
        world'.disk 1 = world'.globals.bitmap) := by
  have hin : ∀ i ∈ blocks.map Int.ofNat, 0 ≤ i ∧ i < 32768 := by
    intro i hi
    obtain ⟨b, hb, rfl⟩ := List.mem_map.mp hi
    exact ⟨Int.natCast_nonneg b, Int.ofNat_lt.mpr (hlt b hb)⟩
  have hcast : (blocks.map Int.ofNat).map Int.toNat = blocks := by
    rw [List.map_map]
    exact List.map_id _
  obtain ⟨world', hrun, hglobals, hdisk⟩ :=
    run_modifyBitmapAndWritebackToDisk world hin setFlag
  rw [hcast] at hglobals
  refine ⟨world', hrun, hglobals, fun hfails => ?_⟩
  rw [hdisk, hfails, if_neg Bool.false_ne_true]
  exact Device.store_disk_self _ _ _

/-- Releasing what was reserved undoes the marks. -/
theorem bitClearAll_bitSetAll {map : Block} {limit n : Nat}
    {blocks : List Nat} (hreserved : Reserved map limit n blocks)
    (hlt : ∀ i ∈ blocks, i < 32768) :
    bitClearAll (bitSetAll map blocks) blocks = map := by
  apply bitmap_ext
  intro j
  rw [marked_bitClearAll, marked_bitSetAll map blocks j hlt]
  constructor
  · rintro ⟨hnot, hmem | hold⟩
    · exact absurd hmem hnot
    · exact hold
  · intro hold
    exact ⟨fun hmem => (hreserved.clear j hmem).2 hold, Or.inr hold⟩

theorem findFirstNfreeBlocks_reserved {world world' : World} {n : Nat}
    (hsize : world.globals.superblock.diskSize.toNat ≤ 32768)
    {blocks : List Nat}
    (hrun : run (findFirstNfreeBlocks 0 n) world =
      some (.ok blocks, world')) :
    Reserved world.globals.bitmap world.globals.superblock.diskSize.toNat n
      blocks := by
  rw [run_findFirstNfreeBlocks n hsize] at hrun
  cases hfound : lowestFree world.globals.bitmap
      world.globals.superblock.diskSize.toNat n with
  | none =>
      rw [hfound] at hrun
      cases hrun
  | some found =>
      rw [hfound] at hrun
      cases hrun
      exact lowestFree_reserved hfound

/-- A reservation, its marks, and its release. -/
theorem reservation_cycle (world : World) (n : Nat)
    (hsize : world.globals.superblock.diskSize.toNat ≤ 32768) :
    let map := world.globals.bitmap
    let limit := world.globals.superblock.diskSize.toNat
    let status (state : World) : Except Int Unit :=
      if state.device.writeFails 0 then .error (-eIo) else .ok ()
    (run (findFirstNfreeBlocks 0 n) world =
        some (.error (-eNoSpc), world) ↔ freeCount map limit < n) ∧
    (n ≤ freeCount map limit →
      ∃ blocks, run (findFirstNfreeBlocks 0 n) world =
          some (.ok blocks, world) ∧
        Reserved map limit n blocks ∧
        ∃ marked, run (modifyBitmapAndWritebackToDisk
              (blocks.map Int.ofNat) true) world =
            some (status world, marked) ∧
          (∀ j, Marked marked.globals.bitmap j ↔
            j ∈ blocks ∨ Marked map j) ∧
          freeCount marked.globals.bitmap limit + n = freeCount map limit ∧
          (world.device.writeFails 0 = false →
            marked.disk 1 = marked.globals.bitmap) ∧
          (∀ (later later' : World) (m : Nat) (again : List Nat),
            (∀ j, Marked marked.globals.bitmap j →
              Marked later.globals.bitmap j) →
            later.globals.superblock.diskSize.toNat ≤ 32768 →
            run (findFirstNfreeBlocks 0 m) later =
              some (.ok again, later') →
            blocks.Disjoint again) ∧
          ∃ restored, run (modifyBitmapAndWritebackToDisk
                (blocks.map Int.ofNat) false) marked =
              some (status marked, restored) ∧
            restored.globals.bitmap = map ∧
            (marked.device.writeFails 0 = false →
              restored.disk 1 = map)) := by
  intro map limit status
  have hsearch := run_findFirstNfreeBlocks n hsize
  constructor
  · rw [hsearch, ← lowestFree_eq_none]
    cases lowestFree world.globals.bitmap
        world.globals.superblock.diskSize.toNat n <;> simp
  intro hle
  have hsome : lowestFree map limit n ≠ none := by
    rw [Ne, lowestFree_eq_none]
    omega
  obtain ⟨blocks, hfound⟩ := Option.ne_none_iff_exists'.mp hsome
  have hreserved := lowestFree_reserved hfound
  obtain ⟨hlength, hnodup, hclear⟩ := lowestFree_eq_some hfound
  have hlt : ∀ i ∈ blocks, i < 32768 := fun i hi =>
    (hclear i hi).1.trans_le hsize
  refine ⟨blocks, by rw [hsearch, hfound], hreserved, ?_⟩
  obtain ⟨marked, hmark, hglobals, hdisk⟩ :=
    run_modifyBitmap_natCast world hlt true
  have hmap : marked.globals.bitmap = bitSetAll map blocks := by
    rw [hglobals]
    rfl
  have hmarked : ∀ j, Marked marked.globals.bitmap j ↔
      j ∈ blocks ∨ Marked map j := fun j => by
    rw [hmap, marked_bitSetAll map blocks j hlt]
  refine ⟨marked, hmark, hmarked, ?_, hdisk, ?_, ?_⟩
  · rw [hmap, ← hlength]
    exact freeCount_bitSetAll map hsize hnodup hclear
  · intro later later' m again hkept hlimit hrun i hfirst hsecond
    have hfree := (findFirstNfreeBlocks_reserved hlimit hrun).clear i hsecond
    exact hfree.2 (hkept i ((hmarked i).mpr (Or.inl hfirst)))
  · obtain ⟨restored, hclean, hback, hstored⟩ :=
      run_modifyBitmap_natCast marked hlt false
    have hrestored : restored.globals.bitmap = map := by
      rw [hback]
      change bitClearAll marked.globals.bitmap blocks = map
      rw [hmap]
      exact bitClearAll_bitSetAll hreserved hlt
    refine ⟨restored, hclean, hrestored, fun hfails => ?_⟩
    rw [hstored hfails, hrestored]

/-- Three of the 54 free blocks of the sample. -/
theorem reservation_cycle_sample :
    ∃ blocks, run (findFirstNfreeBlocks 0 3)
          (Sample.world 64 zeroBlock).boot =
        some (.ok blocks, (Sample.world 64 zeroBlock).boot) ∧
      Reserved ((Sample.disk 64 zeroBlock) 1) 64 3 blocks ∧
      ∃ marked, run (modifyBitmapAndWritebackToDisk
            (blocks.map Int.ofNat) true) (Sample.world 64 zeroBlock).boot =
          some (.ok (), marked) ∧
        (∀ j, Marked marked.globals.bitmap j ↔
          j ∈ blocks ∨ Marked ((Sample.disk 64 zeroBlock) 1) j) ∧
        freeCount marked.globals.bitmap 64 + 3 =
          freeCount ((Sample.disk 64 zeroBlock) 1) 64 ∧
        marked.disk 1 = marked.globals.bitmap ∧
        ∃ status restored, run (modifyBitmapAndWritebackToDisk
              (blocks.map Int.ofNat) false) marked =
            some (status, restored) ∧
          restored.globals.bitmap = (Sample.disk 64 zeroBlock) 1 := by
  have hsize : (Sample.world 64 zeroBlock).boot.globals.superblock.diskSize =
      64 := by decide
  have hcycle := reservation_cycle (Sample.world 64 zeroBlock).boot 3
    (by rw [hsize]; decide)
  rw [hsize] at hcycle
  obtain ⟨blocks, hfind, hreserved, marked, hmark, hmarked, hcount, hdisk, -,
    restored, hclear, hrestored, -⟩ := hcycle.2 (by decide)
  exact ⟨blocks, hfind, hreserved, marked, hmark, hmarked, hcount, hdisk rfl,
    _, restored, hclear, hrestored⟩

end Fs5600
