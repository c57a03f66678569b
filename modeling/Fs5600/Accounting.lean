/-
Block accounting over whole histories: the image stays consistent, no block
leaks, and the free count of `statVfs` follows the bitmap as long as no write
ends before the last block of its file.
-/
import Fs5600.SampleImage

namespace Fs5600

open MachineWord EffectProgram Program LabelledWalk

/-! Consistency. -/

/-- From a consistent image, `fs_init` and any series of mutating calls come
to an end, and leave a consistent image whose bitmap is the one in memory. -/
theorem serve_consistent {image : World}
    (hcons : Consistent image.disk image.device.size)
    (hhealthy : image.device.Healthy) (ctx : Context)
    (requests : List Request)
    (hcalls : ∀ request ∈ requests,
      request.call.Mutates ∧ request.call.Contract) :
    ∃ replies world,
      serve (⟨ctx, .init⟩ :: requests) image = some (replies, world) ∧
      Consistent world.disk world.device.size ∧
      world.globals.bitmap = world.disk 1 := by
  have hinit : run (Request.perform ⟨ctx, .init⟩) image =
      some (.ok (.null 0), image.boot) :=
    Request.run_init rfl hcons hhealthy.1
  obtain ⟨replies, world, hserve, hsteady⟩ :=
    (Steady.boot hcons hhealthy).serve requests hcalls
  have hall := serve_cons requests hinit
  rw [hserve] at hall
  exact ⟨_, world, hall, hsteady.consistent, hsteady.bitmap⟩

theorem serve_consistent_sample :
    ∃ replies world,
      serve (⟨Sample.context, .init⟩ :: Sample.updates)
        (Sample.world 400 zeroBlock) = some (replies, world) ∧
      Consistent world.disk world.device.size ∧
      world.globals.bitmap = world.disk 1 :=
  serve_consistent (Sample.consistent 400 zeroBlock (by decide) (by decide))
    (Sample.healthy 400 zeroBlock) Sample.context Sample.updates
    fun request hmem =>
      Sample.updates_ok request hmem (Sample.world 400 zeroBlock)

/-! Leaks. -/

/-- The marked blocks are the reserved and the held ones. -/
def NoLeak (disk : Disk) : Prop :=
  ∀ b, (b < disk.diskSize ∧ Marked (disk 1) b) ↔
    (b = 0 ∨ b = 1) ∨ disk.Held b

/-- What the kernel grants of removing calls: `unlink` finds no directory,
and the directory that `rmdir` finds has no valid entry. -/
def Removable (world : World) (request : Request) : Prop :=
  match request.call with
  | .unlink path => ∀ inum inode,
      run (pathToInode path 0) world = some (.ok (inum, inode), world) →
        inode.isDir = false
  | .rmdir path => ∀ inum inode,
      run (pathToInode path 0) world = some (.ok (inum, inode), world) →
        inode.isDir = true → ∀ slot,
          (Directory.decode (world.disk (inode.ptr 0)) slot).valid = false
  | _ => True

def tidyUpdate (world : World) (request : Request) : Prop :=
  anyUpdate world request ∧ Removable world request

/-- A removal leaves nothing behind when the object has no entries. -/
def Change.Leafy (disk : Disk) : Change → Prop
  | .remove _ inum slot _ =>
      ∀ slot', disk.edge (disk.child inum slot) slot' = none
  | _ => True

theorem World.planUnlink_eq_ok {world : World} {path : CString}
    {change : Change} (hne : parse path ≠ [])
    (hplan : world.planUnlink path = .ok change) :
    ∃ site inum slot blocks,
      world.disk.resolve (parse path) =
        .ok (site ++ [slot], world.disk.child inum slot) ∧
      change = .remove site inum slot blocks := by
  rw [planUnlink] at hplan
  cases hresolve : world.disk.resolve (parse path) with
  | error status => rw [hresolve] at hplan; cases hplan
  | ok there =>
      rw [hresolve] at hplan
      obtain ⟨site, inum, slot, -, -, rfl, heq⟩ :=
        planRemove_eq hne hresolve
      dsimp only at hplan
      rw [heq] at hplan
      cases hplan
      exact ⟨site, inum, slot, _, rfl, rfl⟩

theorem World.planRmdir_eq_ok {world : World} {path : CString}
    {change : Change} (hne : parse path ≠ [])
    (hplan : world.planRmdir path = .ok change) :
    ∃ site inum slot blocks,
      world.disk.resolve (parse path) =
        .ok (site ++ [slot], world.disk.child inum slot) ∧
      (world.disk.inode (world.disk.child inum slot)).isDir = true ∧
      change = .remove site inum slot blocks := by
  rw [planRmdir] at hplan
  cases hresolve : world.disk.resolve (parse path) with
  | error status => rw [hresolve] at hplan; cases hplan
  | ok there =>
      rw [hresolve] at hplan
      obtain ⟨hdir, hplan⟩ := reject_eq_ok.mp hplan
      split at hplan
      · cases hplan
      · obtain ⟨-, hplan⟩ := reject_eq_ok.mp hplan
        obtain ⟨site, inum, slot, -, -, rfl, heq⟩ :=
          planRemove_eq hne hresolve
        dsimp only at hplan
        rw [heq] at hplan
        cases hplan
        exact ⟨site, inum, slot, _, rfl, not_not.mp hdir, rfl⟩

section

variable {world : World} {request : Request} {change : Change}
  {names : List Name}

theorem tidyUpdate.leafy (hmount : Mounted world)
    (htidy : tidyUpdate world request)
    (hplan : request.plan world = .ok change) :
    change.Leafy world.disk := by
  obtain ⟨⟨-, hcontract⟩, hremovable⟩ := htidy
  cases change with
  | remove site inum slot blocks =>
      intro slot'
      rw [Disk.edge]
      refine if_neg fun hboth => ?_
      have hmakes := Request.plan_makes hplan
      obtain ⟨ctx, call⟩ := request
      cases call with
      | unlink path =>
          obtain ⟨_, _, _, _, hresolve, heq⟩ :=
            World.planUnlink_eq_ok (parse_ne_nil hcontract) hplan
          cases heq
          have hfile := hremovable _ _ (hmount.run_target hresolve)
          rw [hfile] at hboth
          exact Bool.false_ne_true hboth.1
      | rmdir path =>
          obtain ⟨_, _, _, _, hresolve, hdir, heq⟩ :=
            World.planRmdir_eq_ok (parse_ne_nil hcontract) hplan
          cases heq
          have hempty := hremovable _ _ (hmount.run_target hresolve) hdir
            slot'
          rw [Disk.entries, hempty] at hboth
          exact Bool.false_ne_true hboth.2
      | init | getattr | readdir | create | mkdir | rename | chmod | utime
      | truncate | read | write | statfs => cases hmakes
  | attributes | relabel | insert | shrink | write => exact trivial

/-- What a change drops, it gives back. -/
theorem Change.dropped_released (hvalid : change.Valid world names)
    (hleafy : change.Leafy world.disk) {key : List Slot × Role} {b : Nat}
    (hdropped : change.dropped key)
    (hheld : world.disk.holder key = some b) :
    b ∈ change.released world.disk := by
  obtain ⟨q, role⟩ := key
  cases change with
  | remove path inum slot blocks =>
      obtain ⟨tail, rfl⟩ : path ++ [slot] <+: q := hdropped
      obtain ⟨names', i, hnode, howned⟩ := Disk.holder_eq_some.mp hheld
      have hedge := Disk.edge_eq_some.mpr
        ⟨hvalid.entry.isDir, hvalid.entry.valid, rfl⟩
      rw [Disk.node_behind hvalid.entry.node, hedge, Option.bind_some]
        at hnode
      cases tail with
      | nil =>
          cases hnode
          exact (hvalid.held b).mpr ⟨role, howned⟩
      | cons slot' tail =>
          have hnone : world.disk.edge (world.disk.entries inum slot).inode.toNat
              slot' = none := hleafy slot'
          rw [walk_cons, hnone] at hnode
          cases hnode
  | shrink path inum len =>
      obtain ⟨rfl, hbeyond⟩ := hdropped
      cases role with
      | data k =>
          rw [Disk.holder_of_node hvalid.node, Disk.owned, FsInode.owned]
            at hheld
          split at hheld
          next hdata =>
            exact (FsInode.mem_dropped _ _).mpr
              ⟨k, hbeyond, hdata.2, Option.some.inj hheld⟩
          next => cases hheld
      | inode => cases hbeyond
      | entries => cases hbeyond
  | attributes | relabel | insert | write => cases hdropped

theorem NoLeak.apply (hmount : Mounted world)
    (hvalid : change.Valid world names) (hleafy : change.Leafy world.disk)
    (hnoleak : NoLeak world.disk) : NoLeak (change.apply world).disk := by
  have htransfer := Change.transfer hmount hvalid
    (Change.apply_shows hmount hvalid)
  rw [← Change.apply_bitmap hmount hvalid] at htransfer
  have htight : (world.disk.ledger (world.disk 1)).Tight {0, 1} := hnoleak
  refine htransfer.tight hmount.consistent.sound
    (fun key b => Change.dropped_released hvalid hleafy) ?_ htight
  intro key b hheld hreserved
  have hlow := (hmount.consistent.range key b hheld).1
  rcases hreserved with hzero | hone <;> omega

theorem Change.marked_beyond (hmount : Mounted world)
    (hvalid : change.Valid world names) {b : Nat}
    (hb : world.disk.diskSize ≤ b) :
    Marked (change.map world.disk) b ↔ Marked (world.disk 1) b := by
  rw [Change.marked_map hmount hvalid]
  have htaken : b ∉ change.taken := by
    intro htaken
    have hfree := Change.taken_free hmount hvalid htaken
    omega
  have hkept : b ∉ change.released world.disk := by
    intro hreleased
    obtain ⟨key, -, hheld⟩ := Change.released_dropped hvalid hreleased
    have hrange := hmount.consistent.range key b hheld
    omega
  simp [htaken, hkept]

end

/-- Nothing has leaked since `image`, and the marks behind its end have not
moved. -/
structure Balanced (image disk : Disk) : Prop where
  noLeak : NoLeak disk
  superblock : disk.superblock = image.superblock
  beyond : ∀ b, image.diskSize ≤ b →
    (Marked (disk 1) b ↔ Marked (image 1) b)

theorem Balanced.step {image : Disk} {world world' : World}
    {request : Request} {reply : Except Int Reply} (hsteady : Steady world)
    (htidy : tidyUpdate world request)
    (hrun : run request.perform world = some (reply, world'))
    (hbalanced : Balanced image world.disk) : Balanced image world'.disk := by
  have hmount := hsteady.toMounted
  rcases hsteady.step_cases htidy.1.2 hrun with
    rfl | rfl | ⟨change, names, hplan, hvalid, -, rfl⟩
  · exact hbalanced
  · exact hbalanced
  · have hshows := Change.apply_shows hmount hvalid
    have hsize : world.disk.diskSize = image.diskSize :=
      congrArg (fun superblock => superblock.diskSize.toNat)
        hbalanced.superblock
    refine ⟨hbalanced.noLeak.apply hmount hvalid
      (htidy.leafy hmount hplan), ?_, fun b hb => ?_⟩
    · rw [hshows.superblock hmount hvalid, hbalanced.superblock]
    · rw [Change.apply_bitmap hmount hvalid,
        Change.marked_beyond hmount hvalid (hsize ▸ hb),
        hbalanced.beyond b hb]

/-- No history of tidy updates leaks a block, and one that ends with the
blocks held that it began with ends with the same bitmap. -/
theorem history_noLeak {image world : World}
    (hhistory : History tidyUpdate image world)
    (hnoleak : NoLeak image.disk) :
    NoLeak world.disk ∧
      ((∀ b, world.disk.Held b ↔ image.disk.Held b) →
        world.disk 1 = image.disk 1) := by
  have hstart : Balanced image.disk image.boot.disk :=
    ⟨hnoleak, rfl, fun _ _ => Iff.rfl⟩
  obtain ⟨hsteady, hbalanced⟩ := hhistory.keeps
    (fun _ _ htidy => htidy.1.2)
    (fun _ _ _ _ hsteady htidy hrun => Balanced.step hsteady htidy hrun)
    hstart
  refine ⟨hbalanced.noLeak, fun hheld => bitmap_ext fun b => ?_⟩
  have hsize : world.disk.diskSize = image.disk.diskSize :=
    congrArg (fun superblock => superblock.diskSize.toNat)
      hbalanced.superblock
  rcases Nat.lt_or_ge b image.disk.diskSize with hlt | hge
  · have hbefore := hnoleak b
    have hafter := hbalanced.noLeak b
    rw [hheld b, ← hbefore, hsize] at hafter
    simpa [hlt] using hafter
  · exact hbalanced.beyond b hge

theorem Sample.noLeak (n : UInt32) (filler : Block) (hlow : 10 ≤ n.toNat) :
    NoLeak (Sample.disk n filler) := by
  intro b
  rw [Sample.diskSize]
  constructor
  · rintro ⟨-, hmarked⟩
    have hlt := Sample.lt_of_marked n filler hmarked
    rcases Nat.lt_or_ge b 2 with htwo | hge
    · exact Or.inl (by omega)
    · have hall : ∀ b, 2 ≤ b → b < 10 →
          ∃ entry ∈ Sample.holders, entry.2 = b := by
        intro b hge hlt
        interval_cases b <;> decide
      obtain ⟨⟨key, b'⟩, hmem, rfl⟩ := hall b hge hlt
      exact Or.inr ⟨key, Sample.holder_of_mem n filler hmem⟩
  · have hheld : ∀ entry ∈ Sample.holders, entry.2 < 10 := by decide
    have hin : b < 10 → b < n.toNat ∧ Marked (Sample.disk n filler 1) b :=
      fun hlt => ⟨hlt.trans_le hlow, Sample.marked n filler hlt⟩
    rintro (hlow | ⟨key, hkey⟩)
    · exact hin (by omega)
    · exact hin (hheld _ (Sample.mem_holders n filler hkey))

theorem history_noLeak_sample :
    ∃ world : World, NoLeak world.disk ∧
      ((∀ b, world.disk.Held b ↔
          (Sample.world 400 zeroBlock).disk.Held b) →
        world.disk 1 = (Sample.world 400 zeroBlock).disk 1) := by
  have hcons := Sample.consistent 400 zeroBlock (by decide) (by decide)
  have hhealthy := Sample.healthy 400 zeroBlock
  obtain ⟨replies, world, hserve, -⟩ :=
    (Steady.boot hcons hhealthy).serve Sample.updates fun request hmem =>
      Sample.updates_ok request hmem (Sample.world 400 zeroBlock)
  have htidy : ∀ request ∈ Sample.updates, ∀ world,
      tidyUpdate world request := by
    intro request hmem world
    refine ⟨Sample.updates_ok request hmem world, ?_⟩
    rcases Sample.updates_cases hmem with rfl | rfl | rfl <;> exact trivial
  have hnoleak : NoLeak (Sample.world 400 zeroBlock).disk :=
    Sample.noLeak 400 zeroBlock (by decide)
  exact ⟨world, history_noLeak
    (History.of_serve hcons hhealthy htidy hserve) hnoleak⟩

/-! The free count. -/

/-- `statVfs` reports the clear bits of the bitmap. -/
structure Counted (world : World) : Prop where
  bfree : world.globals.statVfs.bfree.toNat =
    freeCount (world.disk 1) world.disk.diskSize
  bavail : world.globals.statVfs.bavail.toNat =
    freeCount (world.disk 1) world.disk.diskSize

/-- A write does not end before the last block of its file. -/
def CoversEnd (world : World) (request : Request) : Prop :=
  match request.call with
  | .write path buf offset => ∀ inum inode,
      run (pathToInode path 0) world = some (.ok (inum, inode), world) →
        inode.isReg = true → offset ≤ inode.size.toInt →
          sizeInBlocks inode.size.toInt ≤ sizeInBlocks (offset + buf.length)
  | _ => True

def coveringUpdate (world : World) (request : Request) : Prop :=
  anyUpdate world request ∧ CoversEnd world request

/-- The same of a planned change. -/
def Change.CoversEnd (disk : Disk) : Change → Prop
  | .write _ inum offset buf _ _ =>
      blockCount (disk.inode inum).length ≤ blockCount (offset + buf.length)
  | _ => True

section

variable {world : World} {request : Request} {change : Change}
  {names : List Name}

/-- Adding a small number to an exact counter. -/
theorem addFree_toNat {count : UInt64} {free : Nat}
    (hcount : count.toNat = free) (delta : Int) (hlow : 0 ≤ free + delta)
    (hhigh : free + delta < 4294967296) :
    (UInt64.ofNat (toSize (count.toNat + delta)).toNat).toNat =
      (free + delta).toNat := by
  rw [hcount, toSize_of_lt hlow (by omega), UInt64.toNat_ofNat']
  omega

theorem Consistent.nodup_dropped {disk : Disk} {size : Nat}
    (hcons : Consistent disk size) {site : List Slot} {inum : Nat}
    (hnode : disk.node site = some (names, inum)) (len : Nat) :
    ((disk.inode inum).dropped len).Nodup := by
  have hall := List.Nodup.of_append_left (hcons.nodup_unlinked hnode)
  refine List.Nodup.map_on ?_ List.nodup_range'
  intro k hk k' hk' hsame
  rw [List.mem_range'_1] at hk hk'
  exact List.inj_on_of_nodup_map hall (List.mem_range.mpr (by omega))
    (List.mem_range.mpr (by omega)) hsame

/-- A change takes or gives back as many free blocks as it says. -/
theorem Change.freeCount_map (hmount : Mounted world)
    (hvalid : change.Valid world names) :
    freeCount (change.map world.disk) world.disk.diskSize +
        change.taken.length =
      freeCount (world.disk 1) world.disk.diskSize +
        (change.released world.disk).length := by
  have hset := freeCount_bitSetAll (world.disk 1) hmount.consistent.size_le
    (Change.taken_nodup hvalid) fun i hi =>
      (Change.taken_free hmount hvalid hi).2
  have hnodup : (change.released world.disk).Nodup := by
    cases change with
    | remove => exact hvalid.nodup
    | shrink path inum len =>
        exact hmount.consistent.nodup_dropped hvalid.node len
    | attributes | relabel | insert | write => exact List.nodup_nil
  have hclear := freeCount_bitClearAll
    (bitSetAll (world.disk 1) change.taken) (n := world.disk.diskSize) hnodup
    fun i hi => by
      obtain ⟨key, -, hheld⟩ := Change.released_dropped hvalid hi
      obtain ⟨-, hlt, hmarked⟩ := hmount.consistent.range key i hheld
      refine ⟨hlt, (marked_bitSetAll _ _ _ fun j hj => ?_).mpr
        (Or.inr hmarked)⟩
      exact (Change.taken_free hmount hvalid hj).2.1.trans_le
        hmount.consistent.size_le
  rw [Change.map, hclear]
  omega

/-- A counted change stays counted if its count is what the bitmap gained. -/
theorem Change.counted_iff_delta (hmount : Mounted world)
    (hvalid : change.Valid world names) (hcounted : Counted world)
    {delta : Int} (hdelta : change.delta world.disk = some delta)
    (hlow : -(freeCount (world.disk 1) world.disk.diskSize : Int) ≤ delta)
    (hhigh : delta ≤ 32768) :
    Counted (change.apply world) ↔
      (freeCount (world.disk 1) world.disk.diskSize : Int) + delta =
        freeCount (change.map world.disk) world.disk.diskSize := by
  have hle := (freeCount_le (world.disk 1) world.disk.diskSize).trans
    hmount.consistent.size_le
  have hglobals : (change.apply world).globals =
      (world.globals.setBitmap (change.map world.disk)).addFree delta := by
    rw [Change.apply_globals hmount, Change.settle, hdelta]
  have hmap := Change.apply_bitmap hmount hvalid
  have hsize := (Change.apply_shows hmount hvalid).diskSize hmount hvalid
  have hbfree := addFree_toNat hcounted.bfree delta (by omega) (by omega)
  have hbavail := addFree_toNat hcounted.bavail delta (by omega) (by omega)
  constructor
  · rintro ⟨hcount, -⟩
    rw [hglobals, hmap, hsize] at hcount
    have hsame := hbfree.symm.trans hcount
    omega
  · intro hsame
    refine ⟨?_, ?_⟩
    · rw [hglobals, hmap, hsize]
      exact hbfree.trans (by omega)
    · rw [hglobals, hmap, hsize]
      exact hbavail.trans (by omega)

/-- After a change the counters are exact if and only if it is no write that
ends early. -/
theorem Change.counted_iff (hmount : Mounted world)
    (hvalid : change.Valid world names) (hcounted : Counted world) :
    Counted (change.apply world) ↔ change.CoversEnd world.disk := by
  have hfree := Change.freeCount_map hmount hvalid
  have hle := (freeCount_le (world.disk 1) world.disk.diskSize).trans
    hmount.consistent.size_le
  have hle' := (freeCount_le (change.map world.disk)
    world.disk.diskSize).trans hmount.consistent.size_le
  have hexact : change.taken = [] ∨ change.released world.disk = [] →
      change.delta world.disk = some
        (((change.released world.disk).length : Int) -
          change.taken.length) →
      Counted (change.apply world) := by
    intro hone hdelta
    have hzero : change.taken.length = 0 ∨
        (change.released world.disk).length = 0 :=
      hone.imp (fun h => by rw [h]; rfl) fun h => by rw [h]; rfl
    refine (Change.counted_iff_delta hmount hvalid hcounted hdelta ?_
      ?_).mpr ?_ <;> omega
  have hsame : change.delta world.disk = none →
      change.map world.disk = world.disk 1 → Counted (change.apply world) := by
    intro hdelta hmap
    have hglobals : (change.apply world).globals = world.globals := by
      rw [Change.apply_globals hmount, Change.settle, hdelta, hmap,
        ← hmount.bitmap]
      rfl
    have hsize := (Change.apply_shows hmount hvalid).diskSize hmount hvalid
    refine ⟨?_, ?_⟩ <;>
      rw [hglobals, Change.apply_bitmap hmount hvalid, hmap, hsize]
    · exact hcounted.bfree
    · exact hcounted.bavail
  cases change with
  | attributes path inum inode =>
      exact iff_of_true (hsame rfl rfl) trivial
  | relabel path inum slot name =>
      exact iff_of_true (hsame rfl rfl) trivial
  | insert path inum slot name inode dirflag blocks =>
      refine iff_of_true (hexact (Or.inr rfl) ?_) trivial
      simp [delta, released, taken]
  | remove path inum slot blocks =>
      refine iff_of_true (hexact (Or.inl rfl) ?_) trivial
      simp [delta, released, taken]
  | shrink path inum len =>
      refine iff_of_true (hexact (Or.inl rfl) ?_) trivial
      simp [delta, released, taken]
  | write path inum offset buf mtime fresh =>
      have hlength := (lowestFree_eq_some hvalid.fresh).1
      have hcount := (hmount.consistent.object _ _ _
        hvalid.node).blockCount_le
      have htaken : (Change.write path inum offset buf mtime
        fresh).taken.length = fresh.length := rfl
      have hreleased : ((Change.write path inum offset buf mtime
        fresh).released world.disk).length = 0 := rfl
      rw [htaken, hreleased] at hfree
      rw [Change.counted_iff_delta hmount hvalid hcounted rfl (by omega)
        (by omega), Change.CoversEnd]
      omega

theorem Request.coversEnd_iff (hmount : Mounted world)
    (hcontract : request.call.Contract)
    (hplan : request.plan world = .ok change) :
    change.CoversEnd world.disk ↔ CoversEnd world request := by
  have hmakes := Request.plan_makes hplan
  obtain ⟨ctx, call⟩ := request
  cases call with
  | write path buf offset =>
      obtain ⟨site, inum, fresh, hresolve, hreg, hinside, -, rfl⟩ :=
        World.planWrite_eq_ok.mp hplan
      obtain ⟨o, rfl⟩ := Int.eq_ofNat_of_zero_le hcontract.2.1
      have hobject := hmount.consistent.object _ _ _
        (Disk.node_of_resolve hresolve)
      have hrun := hmount.run_target hresolve
      have hcount : sizeInBlocks ((o : Int) + buf.length) =
          blockCount (o + buf.length) := sizeInBlocks_natCast (o + buf.length)
      constructor
      · intro hcover inum' inode' hrun' _ _
        rw [hrun] at hrun'
        cases hrun'
        rw [hobject.sizeInBlocks_eq, hcount]
        exact Int.ofNat_le.mpr hcover
      · intro hcover
        have hle := hcover inum _ hrun hreg (by rw [hobject.size_eq]; exact
          hinside)
        rw [hobject.sizeInBlocks_eq, hcount] at hle
        exact Int.ofNat_le.mp hle
  | create | mkdir | unlink | rmdir | rename | chmod | utime | truncate =>
      cases change <;> first | exact Iff.rfl | cases hmakes
  | init | getattr | readdir | read | statfs => cases hplan

end

/-- A step from exact counters leaves exact counters, unless a write ends
before the last block of its file. -/
theorem Counted.step {world world' : World} {request : Request}
    {reply : Except Int Reply} (hsteady : Steady world)
    (hcover : coveringUpdate world request)
    (hrun : run request.perform world = some (reply, world'))
    (hcounted : Counted world) : Counted world' := by
  obtain ⟨⟨hmut, hcontract⟩, hcover⟩ := hcover
  have hmount := hsteady.toMounted
  rw [hsteady.run_perform hmut hcontract] at hrun
  cases hplan : request.plan world with
  | error status =>
      rw [hplan] at hrun
      cases hrun
      exact hcounted
  | ok change =>
      rw [hplan] at hrun
      cases hrun
      obtain ⟨names, hvalid, -⟩ := Request.plan_valid hmount hcontract hplan
      exact (Change.counted_iff hmount hvalid hcounted).mpr
        ((Request.coversEnd_iff hmount hcontract hplan).mpr hcover)

theorem Counted.boot {world : World}
    (hcons : Consistent world.disk world.device.size) :
    Counted world.boot := by
  have hle := (freeCount_le (world.disk 1) world.disk.diskSize).trans
    hcons.size_le
  have hcount : (UInt64.ofNat
      (freeCount (world.disk 1) world.disk.diskSize)).toNat =
        freeCount (world.disk 1) world.disk.diskSize := by
    rw [UInt64.toNat_ofNat']
    omega
  exact ⟨hcount, hcount⟩

/-- As long as no write ends before the last block of its file, `fs_statfs`
reports the clear bits of the bitmap, as a new `fs_init` would. -/
theorem statfs_counts_free {image world : World}
    (hhistory : History coveringUpdate image world) :
    ∃ stat, run fsStatfs world = some (.ok stat, world) ∧
      stat.bfree.toNat = freeCount (world.disk 1) world.disk.diskSize ∧
      stat.bavail.toNat = freeCount (world.disk 1) world.disk.diskSize ∧
      ∃ result world', run fsInit world = some (result, world') ∧
        world'.globals.statVfs.bfree = stat.bfree ∧
        world'.globals.statVfs.bavail = stat.bavail := by
  obtain ⟨hsteady, hcounted⟩ := hhistory.keeps
    (fun _ _ hcover => hcover.1.2)
    (fun _ _ _ _ hsteady hcover hrun => Counted.step hsteady hcover hrun)
    (Counted.boot hhistory.consistent)
  have hboot := Counted.boot hsteady.consistent
  refine ⟨world.globals.statVfs, rfl, hcounted.bfree, hcounted.bavail,
    _, _, run_fsInit hsteady.consistent hsteady.reads, ?_, ?_⟩
  · exact UInt64.toNat_inj.mp (hboot.bfree.trans hcounted.bfree.symm)
  · exact UInt64.toNat_inj.mp (hboot.bavail.trans hcounted.bavail.symm)

theorem statfs_counts_free_sample :
    ∃ world stat, run fsStatfs world = some (.ok stat, world) ∧
      stat.bfree.toNat = freeCount (world.disk 1) world.disk.diskSize ∧
      stat.bavail.toNat = freeCount (world.disk 1) world.disk.diskSize ∧
      ∃ result world', run fsInit world = some (result, world') ∧
        world'.globals.statVfs.bfree = stat.bfree ∧
        world'.globals.statVfs.bavail = stat.bavail := by
  have hcons := Sample.consistent 400 zeroBlock (by decide) (by decide)
  have hhealthy := Sample.healthy 400 zeroBlock
  obtain ⟨replies, world, hserve, -⟩ :=
    (Steady.boot hcons hhealthy).serve Sample.updates fun request hmem =>
      Sample.updates_ok request hmem (Sample.world 400 zeroBlock)
  have hcover : ∀ request ∈ Sample.updates, ∀ world,
      coveringUpdate world request := by
    intro request hmem world
    refine ⟨Sample.updates_ok request hmem world, ?_⟩
    rcases Sample.updates_cases hmem with rfl | rfl | rfl <;> exact trivial
  exact ⟨world, statfs_counts_free
    (History.of_serve hcons hhealthy hcover hserve)⟩

/-- One byte written at the start of the sample's `a`, which has two
blocks, raises the free count by a block that is not free. -/
theorem statfs_miscounts_short_write :
    ¬ ∀ image world, History anyUpdate image world →
      ∀ stat, run fsStatfs world = some (.ok stat, world) →
        stat.bfree.toNat =
          freeCount (world.disk 1) world.disk.diskSize := by
  intro hall
  have hcons := Sample.consistent 400 zeroBlock (by decide) (by decide)
  have hhealthy := Sample.healthy 400 zeroBlock
  have hwrite : ∀ request ∈ [Sample.request (.write Sample.pathA [1] 0)],
      ∀ world, anyUpdate world request := by
    intro request hmem world
    rw [List.mem_singleton.mp hmem]
    exact ⟨trivial, by decide⟩
  obtain ⟨replies, world, hserve, -⟩ :=
    (Steady.boot hcons hhealthy).serve _ fun request hmem =>
      hwrite request hmem (Sample.world 400 zeroBlock)
  have hcount := hall _ _
    (History.of_serve hcons hhealthy hwrite hserve) _ rfl
  have hwrong : (serve [Sample.request (.write Sample.pathA [1] 0)]
      (Sample.world 400 zeroBlock).boot).map (fun result =>
        decide (result.2.globals.statVfs.bfree.toNat =
          freeCount (result.2.disk 1) result.2.disk.diskSize)) =
      some false := by
    decide +kernel
  rw [hserve, Option.map_some, decide_eq_true hcount] at hwrong
  cases hwrong

end Fs5600
