/-
What a clean verdict of the image reader leaves open, and its verdict on what
the file system leaves behind, right after a stop and in whole runs with
stops.
-/
import Fs5600.GeneratedTree
import Fs5600.Crash

namespace Fs5600

open MachineWord EffectProgram Program Scripts Preorder LabelledWalk

/-! What a clean verdict leaves open. -/

/-- What makes an image consistent and is not looked at by the script. -/
structure Unseen (disk : Disk) (nblks : Nat) : Prop where
  reserved : ∀ b, b < 2 → Marked (disk 1) b
  root_dir : (disk.inode 2).isDir = true
  size_file : ∀ path names i, disk.node path = some (names, i) →
    (disk.inode i).isReg = true → 0 ≤ (disk.inode i).size.toInt
  size_dir : ∀ path names i, disk.node path = some (names, i) →
    (disk.inode i).isDir = true → (disk.inode i).size.toInt = 4096
  names : ∀ path names i, disk.node path = some (names, i) →
    (disk.inode i).isDir = true → DirectoryOk (disk.entries i)
  range : ∀ key b, disk.holder key = some b → 2 ≤ b ∧ b < nblks
  exclusive : Ledger.Exclusive disk.holder

theorem Consistent.unseen {disk : Disk} {size : Nat}
    (hcons : Consistent disk size) : Unseen disk size where
  reserved b hb := hcons.reserved b (Nat.lt_succ_of_lt hb)
  root_dir := hcons.root_dir
  size_file path names i hnode hreg :=
    ((hcons.object path names i hnode).size_range hreg).1
  size_dir path names i hnode hdir := by
    rcases (hcons.object path names i hnode).kind with hreg | ⟨-, hsize⟩
    · rw [FsInode.isReg, sIsReg_of_sIsDir hdir] at hreg
      cases hreg
    · exact hsize
  names path names i hnode := (hcons.object path names i hnode).names
  range key b hkey := by
    obtain ⟨hlow, hlt, -⟩ := hcons.range key b hkey
    exact ⟨hlow, hlt.trans_le hcons.size_fits⟩
  exclusive := hcons.exclusive

section

variable {image : ImageFile} (hunseen : Unseen image.disk image.nblks)
  {path : List Slot} {names : List Name} {i : Nat}

include hunseen

theorem Unseen.oneBlock : image.OneBlock := by
  intro path names i hnode hdir
  have hsize := hunseen.size_dir path names i hnode hdir
  have hlength : (image.disk.inode i).length = 4096 := by
    rw [FsInode.length, hsize]
    rfl
  rw [FsInode.xblks_eq, hlength]
  rfl

theorem Unseen.reached {limit : Nat} (hwell : WellMarked limit image)
    (hnode : image.disk.node path = some (names, i)) :
    Marked (image.disk 1) i ∧ BlocksMarked image (image.disk.inode i) := by
  have hsteps := ImageFile.steps_of_node
    (fun front _ names' j _ hfront => hunseen.oneBlock front names' j hfront)
    (Option.isSome_iff_exists.mpr ⟨_, hnode⟩)
  obtain ⟨-, -, hmarked, hblocks⟩ := hwell.reached _ _ hsteps
  rw [Disk.visited_of_node hnode] at hmarked hblocks
  exact ⟨hmarked, hblocks⟩

theorem Unseen.object {limit : Nat} (hwell : WellMarked limit image)
    (hnode : image.disk.node path = some (names, i)) :
    ObjectOk image.disk i := by
  obtain ⟨-, hblocks⟩ := hunseen.reached hwell hnode
  refine ⟨?_, fun hreg => ?_, hunseen.names path names i hnode⟩
  · rcases hblocks.kind with hreg | hdir
    · exact Or.inl hreg
    · exact Or.inr ⟨hdir, hunseen.size_dir path names i hnode hdir⟩
  · have hlow := hunseen.size_file path names i hnode hreg
    have hrange := hblocks.range
    rw [FsInode.xblks_eq, FsInode.length, blockCount] at hrange
    omega

theorem Unseen.marked {limit : Nat} (hwell : WellMarked limit image)
    {key : List Slot × Role} {b : Nat}
    (hkey : image.disk.holder key = some b) : Marked (image.disk 1) b := by
  obtain ⟨path, role⟩ := key
  obtain ⟨names, i, hnode, howned⟩ := Disk.holder_eq_some.mp hkey
  obtain ⟨hmarked, hblocks⟩ := hunseen.reached hwell hnode
  cases role with
  | inode =>
      cases howned
      exact hmarked
  | entries =>
      rw [Disk.owned, FsInode.owned] at howned
      split at howned
      next hdir =>
        cases howned
        refine hblocks.marked 0 ?_
        rw [hunseen.oneBlock path names i hnode hdir]
        exact Nat.one_pos
      next => cases howned
  | data k =>
      rw [Disk.owned, FsInode.owned] at howned
      split at howned
      next hdata =>
        cases howned
        refine hblocks.marked k ?_
        rw [FsInode.xblks_eq]
        exact hdata.2
      next => cases howned

end

/-- An image is consistent exactly when the script has nothing to say against
it and the rest holds that the script does not look at. -/
theorem consistent_iff_quiet {limit : Nat} {image : ImageFile}
    (hodd : image.odd.val = 0)
    (hmagic : image.disk.superblock.magic = 0x30303635)
    (hsize : image.disk.diskSize = image.nblks)
    (hlimit : image.nblks ≤ limit + 2) :
    Consistent image.disk image.nblks ↔
      Quiet (readImg limit image) ∧ Unseen image.disk image.nblks := by
  rw [quiet_readImg]
  constructor
  · exact fun hcons =>
      ⟨hcons.wellMarked hodd hmagic hsize hlimit, hcons.unseen⟩
  · rintro ⟨hwell, hunseen⟩
    refine ⟨hsize ▸ hwell.nblks_le, hsize.le, fun b hb => ?_,
      hunseen.root_dir, fun path names i => hunseen.object hwell,
      fun key b hkey => ?_, hunseen.exclusive⟩
    · rcases Nat.lt_succ_iff_lt_or_eq.mp hb with hlow | rfl
      · exact hunseen.reserved b hlow
      · exact (hunseen.reached hwell Disk.node_nil).1
    · obtain ⟨hlow, hlt⟩ := hunseen.range key b hkey
      exact ⟨hlow, hsize ▸ hlt, hunseen.marked hwell hkey⟩

theorem Sample.generated :
    ∃ image, genDisk (fun _ _ _ => 0) [Sample.genA]
        [Sample.genTop, Sample.genD] 16 = some (image, []) ∧
      image.length = 16 ∧ Consistent (imageDisk image) image.length ∧
      (imageDisk image).superblock.magic = 0x30303635 ∧
      (imageDisk image).diskSize = image.length := by
  have hdescribed : Described ([Sample.genA] ++ [Sample.genTop, Sample.genD])
    16 := Sample.genDescribed
  obtain ⟨image, hrun, hlength, hgen⟩ :=
    hdescribed.drawn.genDisk_generated (fun _ _ _ => 0)
  have hcons := hgen.consistent hdescribed
  rw [← hlength] at hcons
  exact ⟨image, hrun, hlength, hcons, congrArg FsSuper.magic hgen.superblock,
    (hgen.diskSize hdescribed.drawn).trans hlength.symm⟩

theorem consistent_iff_quiet_sample :
    ∃ image, genDisk (fun _ _ _ => 0) [Sample.genA]
        [Sample.genTop, Sample.genD] 16 = some (image, []) ∧
      Consistent (imageDisk image) image.length ∧
      Quiet (readImg 1000 (.whole (imageDisk image) image.length)) ∧
      Unseen (imageDisk image) image.length := by
  obtain ⟨image, hrun, hlength, hcons, hmagic, hsize⟩ := Sample.generated
  have hlimit : image.length ≤ 1000 + 2 := by omega
  have hiff := consistent_iff_quiet
    (show (ImageFile.whole (imageDisk image) image.length).odd.val = 0
      from rfl) hmagic hsize hlimit
  exact ⟨image, hrun, hcons, hiff.mp hcons⟩

/-! Images behind a device. -/

/-- The image file behind a device. -/
def Device.file (device : Device) : ImageFile :=
  .whole device.disk device.size

theorem Device.wellMarked {device : Device} {limit : Nat}
    (hcons : Consistent device.disk device.size)
    (hmagic : device.disk.superblock.magic = 0x30303635)
    (hsize : device.disk.diskSize = device.size)
    (hlimit : device.size ≤ limit + 2) : WellMarked limit device.file :=
  Consistent.wellMarked hcons rfl hmagic hsize hlimit

/-- A disk that may take the place of the one in this world: consistent, and
under the same superblock. -/
structure Replaces (world : World) (disk' : Disk) : Prop where
  consistent : Consistent disk' world.device.size
  superblock : disk'.superblock = world.disk.superblock

section

variable {world : World} (hmount : Mounted world)

include hmount

theorem Mounted.replaces_of_keeps {disk' : Disk}
    (hkeeps : world.disk.Keeps disk') : Replaces world disk' := by
  have hcons := hmount.consistent
  refine ⟨hcons.of_keeps hkeeps, ?_⟩
  rw [Disk.superblock, hkeeps.block 0 (hcons.reserved 0 (by omega)) (by omega)]
  rfl

variable {names : List Name} {change : Change}
  (hvalid : change.Valid world names)

include hvalid

theorem Change.replaces : Replaces world (change.apply world).disk := by
  have hmount' := Change.mounted hmount hvalid
  refine ⟨?_, (Change.apply_shows hmount hvalid).superblock hmount hvalid⟩
  rw [← Change.apply_device.1]
  exact hmount'.consistent

theorem Change.replaces_of_keeps {disk' : Disk}
    (hkeeps : (change.apply world).disk.Keeps disk') :
    Replaces world disk' := by
  have hafter := Change.replaces hmount hvalid
  have hsame :=
    (Change.mounted hmount hvalid).replaces_of_keeps hkeeps
  refine ⟨?_, hsame.superblock.trans hafter.superblock⟩
  rw [← Change.apply_device.1]
  exact hsame.consistent

/-- What a change leaves when it stops at a write, unless it has entered an
object without marking its blocks. -/
theorem Change.replaces_stopped {front back : List Effect} {b : Nat}
    {buf : Block}
    (heffects : change.effects world = front ++ .write b buf :: back)
    (henters : change.Enters → writeCount front < 2) :
    Replaces world (applyAll front world).disk := by
  by_cases hstores : change.Stores
  · cases change with
    | write site inum start data mtime fresh =>
        have hok : WriteOk world names site inum start data fresh := hvalid
        rcases hok.stop_cases hmount mtime heffects with hkeeps | ⟨n, rfl⟩
        · exact hmount.replaces_of_keeps hkeeps
        · obtain ⟨hcons, -⟩ := hok.torn hmount mtime heffects
          have hshows := Change.shows hmount hvalid heffects (by
            rw [Change.published]
            exact List.cons_subset.mpr
              ⟨List.mem_append_right _ List.mem_cons_self,
                List.nil_subset _⟩)
          exact ⟨hcons, hshows.superblock hmount hvalid⟩
    | attributes | relabel | insert | remove | shrink => exact hstores.elim
  · rcases Change.keeps_cases hmount hvalid heffects henters hstores with
      hkeeps | hkeeps
    · exact hmount.replaces_of_keeps hkeeps
    · exact Change.replaces_of_keeps hmount hvalid hkeeps

end

/-! Objects whose inode is not marked. -/

/-- An object in the tree has an unmarked inode, and is behind directories of
one block each. -/
def Disk.Strays (disk : Disk) : Prop :=
  ∃ path names i, disk.node path = some (names, i) ∧ ¬ Marked (disk 1) i ∧
    ∀ front slot names' j, front ++ [slot] <+: path →
      disk.node front = some (names', j) →
      (disk.inode j).isDir = true → (disk.inode j).xblks = 1

theorem WellMarked.not_strays {limit : Nat} {image : ImageFile}
    (hwell : WellMarked limit image) : ¬ image.disk.Strays := by
  rintro ⟨path, names, i, hnode, hunmarked, hone⟩
  have hsteps := ImageFile.steps_of_node hone
    (Option.isSome_iff_exists.mpr ⟨_, hnode⟩)
  obtain ⟨-, -, hmarked, -⟩ := hwell.reached _ _ hsteps
  rw [Disk.visited_of_node hnode] at hmarked
  exact hunmarked hmarked

section

variable {world : World} (hmount : Mounted world) {names : List Name}
  {change : Change} {front back : List Effect} {b : Nat} {buf : Block}
  (hvalid : change.Valid world names)
  (heffects : change.effects world = front ++ .write b buf :: back)

include hmount hvalid heffects

/-- The bitmap is the last thing that a creation stores. -/
theorem Change.insert_bitmap {path : List Slot} {inum : Nat} {slot : Slot}
    {name : Name} {inode : FsInode} {dirflag : Bool} {blocks : List Nat}
    (hchange : change = .insert path inum slot name inode dirflag blocks) :
    (applyAll front world).disk 1 = world.disk 1 := by
  subst hchange
  have honce := Change.effects_once hmount hvalid
  rw [heffects, WritesOnce, List.filterMap_append] at honce
  have hlast : Effect.write 1 (bitSetAll world.globals.bitmap blocks) ∈
      Effect.write b buf :: back := by
    have hend := congrArg List.getLast? heffects
    rw [effects, List.getLast?_append_of_ne_nil _ (by simp),
      List.getLast?_append_of_ne_nil _ (by simp)] at hend
    exact List.mem_of_getLast? hend.symm
  exact applyAll_disk_of_notMem fun buf' hmem =>
    (List.nodup_append.mp honce).2.2 1 (mem_targets.mpr ⟨buf', hmem⟩) 1
      (mem_targets.mpr ⟨_, hlast⟩) rfl

/-- The entry is the second block that a creation stores. -/
theorem Change.insert_entry {path : List Slot} {inum : Nat} {slot : Slot}
    {name : Name} {inode : FsInode} {dirflag : Bool} {blocks : List Nat}
    (hchange : change = .insert path inum slot name inode dirflag blocks)
    (hlate : 2 ≤ writeCount front) :
    Disk.EntryRewrite world.disk (applyAll front world).disk path names inum
        slot ∧
      (applyAll front world).disk.edge inum slot =
        some (name, blocks.getD 0 0) := by
  subst hchange
  have hok : InsertOk world names path inum slot name inode dirflag blocks :=
    hvalid
  have honce := Change.effects_once hmount hvalid
  rw [heffects] at honce
  have hstored : world.disk.setEntry inum slot
      ((world.disk.entries inum slot).occupied (blocks.getD 0 0) name) ∈
        front := by
    have horder := heffects
    rw [effects, List.append_assoc] at horder
    rcases List.cons_eq_append_iff.mp horder with ⟨rfl, -⟩ |
      ⟨rest, rfl, hrest⟩
    · exact absurd hlate (by decide)
    · rcases List.cons_eq_append_iff.mp hrest with ⟨rfl, -⟩ | ⟨rest', rfl, -⟩
      · exact absurd hlate (by simp [writeCount, Effect.target])
      · exact List.mem_cons_of_mem _ List.mem_cons_self
  obtain ⟨hrw, hentries⟩ := hmount.consistent.entryRewrite hok.node hok.isDir
    (fun b' hmarked hone hother => applyAll_disk_of_notMem fun buf' hmem => by
      have hall : Effect.write b' buf' ∈ Change.effects world
          (.insert path inum slot name inode dirflag blocks) := by
        rw [heffects]
        exact List.mem_append_left _ hmem
      rcases Change.mem_effects hmount hvalid hall with heq | hrw | hnew
      · exact hone heq
      · exact hother hrw
      · exact hnew hmarked)
    (applyAll_disk_of_once honce.front hstored)
  exact ⟨hrw, hok.edge hmount hrw hentries⟩

/-- A creation that stops between its entry and its bitmap leaves an object
that strays. -/
theorem Change.strays (henters : change.Enters)
    (hlate : 2 ≤ writeCount front) :
    (applyAll front world).disk.Strays := by
  cases change with
  | insert path inum slot name inode dirflag blocks =>
      have hok : InsertOk world names path inum slot name inode dirflag
        blocks := hvalid
      have hbitmap := Change.insert_bitmap hmount hvalid heffects rfl
      obtain ⟨hrw, hedge⟩ :=
        Change.insert_entry hmount hvalid heffects rfl hlate
      refine ⟨path ++ [slot], _, _, Disk.node_child hrw.node_path hedge, ?_,
        fun front' slot' names' j hpre hnode hdir => ?_⟩
      · rw [hbitmap]
        exact (hok.child_usable hmount).2.2
      · have hlength := hpre.length_le
        rw [hrw.node_eq fun hbelow => by
          have hlonger := hbelow.length_le
          simp only [List.length_append, List.length_singleton]
            at hlength hlonger
          omega] at hnode
        rw [hrw.inode_eq hnode] at hdir ⊢
        rw [FsInode.xblks_eq]
        exact (hmount.consistent.object _ _ _ hnode).blockCount_dir hdir
  | attributes | relabel | remove | shrink | write => exact henters.elim

end

/-! Right after a stop. -/

/-- A change whose write `k` does not reach the disk. -/
theorem Change.stopped {world : World} (hmount : Mounted world)
    {names : List Name} {change : Change} (hvalid : change.Valid world names)
    (k : Nat) :
    ∃ stopped, (commit (change.effects world) (world.failing k)).2 =
        stopped ∧ stopped.device.size = world.device.size ∧
      (change.Enters ∧ 2 ≤ k ∧ k < writeCount (change.effects world) →
        stopped.disk.Strays) ∧
      (¬ (change.Enters ∧ 2 ≤ k ∧ k < writeCount (change.effects world)) →
        Replaces world stopped.disk) := by
  have hsame : ∀ effects, (applyAll effects (world.failing k)).disk =
      (applyAll effects world).disk := applyAll_disk_congr rfl
  have hfails : (world.failing k).device.writeFails = failsAt k := rfl
  refine ⟨_, rfl, ?_⟩
  rcases commit_failsAt (change.effects world) hfails with
    ⟨hle, hall⟩ | ⟨front, b, buf, back, heffects, hcount, hstop⟩
  · rw [hall, hsame]
    refine ⟨applyAll_size _ _, fun hexposed => ?_,
      fun _ => Change.replaces hmount hvalid⟩
    exact absurd hle (not_le.mpr hexposed.2.2)
  · have hdisk : ((applyAll front (world.failing k)).issued).disk =
        (applyAll front world).disk := hsame front
    have hlt : k < writeCount (change.effects world) := by
      rw [heffects, ← hcount, writeCount, writeCount, List.filterMap_append,
        List.length_append]
      exact Nat.lt_add_of_pos_right Nat.succ_pos'
    rw [hstop, hdisk, ← hcount]
    refine ⟨applyAll_size _ _, fun hexposed =>
      Change.strays hmount hvalid heffects hexposed.1 hexposed.2.1,
      fun hsafe => Change.replaces_stopped hmount hvalid heffects
        fun henters => ?_⟩
    rw [← hcount] at hlt
    exact not_le.mp fun hlate => hsafe ⟨henters, hlate, hlt⟩

/-- The machine stops in a mutating call when the device has taken `k`
blocks. -/
theorem Mounted.stopped {world : World} (hmount : Mounted world)
    {request : Request} (hmut : request.call.Mutates)
    (hcontract : request.call.Contract) (k : Nat) :
    ∃ reply stopped, run request.perform (world.failing k) =
        some (reply, stopped) ∧
      stopped.device.size = world.device.size ∧
      (Exposes world request.call k → stopped.disk.Strays) ∧
      (¬ Exposes world request.call k → Replaces world stopped.disk) := by
  have hrun := (hmount.failing k).run_perform hmut hcontract
  rw [show request.plan (world.failing k) = request.plan world from rfl]
    at hrun
  rw [hmount.exposes_iff]
  cases hplan : request.plan world with
  | error status =>
      rw [hplan] at hrun
      refine ⟨_, _, hrun, rfl, ?_, fun _ => ⟨hmount.consistent, rfl⟩⟩
      rintro ⟨change, hok, -⟩
      cases hok
  | ok change =>
      rw [hplan] at hrun
      obtain ⟨names, hvalid, -⟩ := Request.plan_valid hmount hcontract hplan
      obtain ⟨stopped, hstopped, hsize, hlate, hsafe⟩ :=
        Change.stopped hmount hvalid k
      refine ⟨_, _, hrun, ?_⟩
      rw [show change.effects (world.failing k) = change.effects world
        from rfl, hstopped]
      refine ⟨hsize, ?_, fun hnot => hsafe fun hexposed =>
        hnot ⟨change, rfl, hexposed⟩⟩
      rintro ⟨change', heq, hexposed⟩
      cases heq
      exact hlate hexposed

/-- The image reader tells the harmful stops from the others: right after the
machine has stopped in a mutating call, it complains exactly when the call is
a creation that stopped between its entry and its bitmap. -/
theorem stop_inspected {world : World} (hreach : Reachable world)
    {request : Request} (hmut : request.call.Mutates)
    (hcontract : request.call.Contract) (k : Nat)
    (hmagic : world.disk.superblock.magic = 0x30303635)
    (hsize : world.disk.diskSize = world.device.size) {limit : Nat}
    (hlimit : world.device.size ≤ limit + 2) :
    ∃ reply stopped, run request.perform (world.failing k) =
        some (reply, stopped) ∧
      (Quiet (readImg limit stopped.device.file) ↔
        ¬ Exposes world request.call k) := by
  obtain ⟨reply, stopped, hrun, hstopped, hexposed, hsafe⟩ :=
    hreach.steady.toMounted.stopped hmut hcontract k
  refine ⟨reply, stopped, hrun, ?_⟩
  rw [quiet_readImg]
  constructor
  · exact fun hwell hexposes => hwell.not_strays (hexposed hexposes)
  · intro hnot
    obtain ⟨hcons, hsuper⟩ := hsafe hnot
    rw [← hstopped] at hcons hsize hlimit
    exact Device.wellMarked hcons
      ((congrArg FsSuper.magic hsuper).trans hmagic)
      ((congrArg (fun sb => sb.diskSize.toNat) hsuper).trans hsize) hlimit

/-- A world with a generated image. -/
def Sample.onImage (image : List Block) : World where
  device := ⟨imageDisk image, image.length, never, never⟩
  globals := ⟨⟨0, 0⟩, Sample.genA.record, zeroBlock, ⟨0, 0, 0, 0, 0⟩⟩

/-- The machine stops in the creation of a directory: before the second block,
and between the entry and the bitmap. -/
theorem stop_inspected_sample :
    ∃ image, genDisk (fun _ _ _ => 0) [Sample.genA]
        [Sample.genTop, Sample.genD] 16 = some (image, []) ∧
      let world := (Sample.onImage image).boot
      let request := Sample.request (.mkdir Sample.pathC 0o755)
      (∃ reply stopped,
        run request.perform (world.failing 1) = some (reply, stopped) ∧
        Quiet (readImg 1000 stopped.device.file)) ∧
      ∃ reply stopped,
        run request.perform (world.failing 2) = some (reply, stopped) ∧
        ¬ Quiet (readImg 1000 stopped.device.file) := by
  obtain ⟨image, hrun, hlength, hcons, hmagic, hsize⟩ := Sample.generated
  have hreach : Reachable (Sample.onImage image).boot :=
    Reachable.boot hcons ⟨rfl, rfl⟩
  have hlimit : image.length ≤ 1000 + 2 := by omega
  have hplan : (genDisk (fun _ _ _ => 0) [Sample.genA]
      [Sample.genTop, Sample.genD] 16).map (fun written =>
        ((Sample.onImage written.1).boot.planCreate Sample.context
          Sample.pathC 0o755 true).isOk) = some true := by
    decide +kernel
  rw [hrun, Option.map_some, Option.some.injEq] at hplan
  have hexposes : Exposes (Sample.onImage image).boot
      (.mkdir Sample.pathC 0o755) 2 := by
    refine ⟨(hreach.steady.toMounted.planCreate_isOk_iff Sample.context
      Sample.pathC 0o755 true).mp ?_, Or.inl rfl⟩
    cases hmade : (Sample.onImage image).boot.planCreate Sample.context
        Sample.pathC 0o755 true with
    | error status =>
        rw [hmade] at hplan
        cases hplan
    | ok change => exact ⟨change, rfl⟩
  have hinspected := fun k => stop_inspected hreach
    (show (Sample.request (.mkdir Sample.pathC 0o755)).call.Mutates
      from trivial) (by decide) k hmagic hsize hlimit
  obtain ⟨early, before, hbefore, hquiet⟩ := hinspected 1
  obtain ⟨late, between, hbetween, hloud⟩ := hinspected 2
  refine ⟨image, hrun, ⟨early, before, hbefore, hquiet.mpr ?_⟩,
    late, between, hbetween, fun h => hloud.mp h hexposes⟩
  rintro ⟨-, hk | hk⟩ <;> cases hk

/-! After whole runs. -/

/-- The world shows the file system, on the device and under the superblock of
the image it started from. -/
structure ShownOn (image world : World) (fs : FileSystem) : Prop where
  shown : Shown world fs
  size : world.device.size = image.device.size
  superblock : world.disk.superblock = image.disk.superblock

theorem undergo_simulates_on (image : World) :
    Simulation.Simulates World.undergo FileSystem.Undergoes Survivable
      (ShownOn image) := by
  intro world fs event hon hsurvivable
  obtain ⟨outcome, world', fs', hstep, hallows, hshown'⟩ :=
    undergo_simulates world fs event hon.shown hsurvivable
  have hsteady := hon.shown.steady
  suffices hkept : world'.device.size = world.device.size ∧
      world'.disk.superblock = world.disk.superblock from
    ⟨outcome, world', fs', hstep, hallows, hshown',
      hkept.1.trans hon.size, hkept.2.trans hon.superblock⟩
  cases event with
  | call request =>
      obtain ⟨⟨reply, next⟩, hrun, heq⟩ := Option.map_eq_some_iff.mp hstep
      cases heq
      rcases hsteady.step_cases hsurvivable.1 hrun with
        rfl | rfl | ⟨change, names, -, hvalid, -, rfl⟩
      · exact ⟨rfl, rfl⟩
      · exact ⟨rfl, rfl⟩
      · have hmount := hsteady.toMounted
        exact ⟨Change.apply_device.1,
          (Change.replaces hmount hvalid).superblock⟩
  | stop request k =>
      obtain ⟨horderly, hmut, hexposes⟩ := hsurvivable
      obtain ⟨reply, stopped, hrun, hsize, -, hsafe⟩ :=
        hsteady.toMounted.stopped hmut horderly.1 k
      rw [World.undergo, hrun] at hstep
      cases hstep
      exact ⟨rfl, (hsafe hexposes).superblock⟩

/-- After any series of calls and stops, the image reader has nothing to say
against the image, and prints the tree that the calls have made: every object
once, under its path. -/
theorem undergo_inspected {image : World}
    (hcons : Consistent image.disk image.device.size)
    (hhealthy : image.device.Healthy)
    (hmagic : image.disk.superblock.magic = 0x30303635)
    (hsize : image.disk.diskSize = image.device.size) {limit : Nat}
    (hlimit : image.device.size ≤ limit + 2) {events : List Event}
    (hsurvivable : Simulation.Guarded World.undergo Survivable image.boot
      events) :
    ∃ outcomes world fs,
      Simulation.answers World.undergo image.boot events =
        some (outcomes, world) ∧
      Simulation.Allowed FileSystem.Undergoes image.shown events outcomes
        fs ∧
      Quiet (readImg limit world.device.file) ∧
      ((readImg limit world.device.file).objects.map Prod.snd).Nodup ∧
      ∀ name object,
        (∃ inum, (name, inum) ∈ (readImg limit world.device.file).objects ∧
          world.disk.object inum = object) ↔
        ∃ names, fs.tree names = some object ∧ name = pathName names := by
  obtain ⟨outcomes, world, fs, hrun, hallowed, hon⟩ :=
    (undergo_simulates_on image).run
      ⟨Shown.boot hcons hhealthy, rfl, rfl⟩ hsurvivable
  have hcons' : Consistent world.device.file.disk world.device.file.nblks :=
    hon.shown.steady.consistent
  rw [← hon.size] at hsize hlimit
  have hwell : WellMarked limit world.device.file :=
    Device.wellMarked hcons'
      ((congrArg FsSuper.magic hon.superblock).trans hmagic)
      ((congrArg (fun sb => sb.diskSize.toNat) hon.superblock).trans hsize)
      hlimit
  have hlists : Lists _ world.disk := hcons'.lists hwell hlimit
  obtain ⟨honce, hmem⟩ := hlists
  refine ⟨outcomes, world, fs, hrun, hallowed, quiet_readImg.mpr hwell,
    honce, fun name object => ?_⟩
  rw [hon.shown.tree]
  constructor
  · rintro ⟨inum, hlisted, rfl⟩
    obtain ⟨names, path, hresolve, rfl⟩ := (hmem _ _).mp hlisted
    have htree := Disk.tree_of_resolve hresolve
    exact ⟨names, htree, rfl⟩
  · rintro ⟨names, htree, rfl⟩
    obtain ⟨⟨path, inum⟩, hresolve, rfl⟩ := Disk.tree_eq_some_iff.mp htree
    exact ⟨inum, (hmem _ _).mpr ⟨names, path, hresolve, rfl⟩, rfl⟩

/-- The generated image, after a stop in a write to `/a`, a new directory, and
a stop in a truncation. -/
theorem undergo_inspected_sample :
    ∃ image, genDisk (fun _ _ _ => 0) [Sample.genA]
        [Sample.genTop, Sample.genD] 16 = some (image, []) ∧
      ∃ outcomes world fs,
        Simulation.answers World.undergo (Sample.onImage image).boot
            [.stop (Sample.request (.write Sample.pathA [1, 2, 3] 4094)) 2,
              .call (Sample.request (.mkdir Sample.pathC 0o755)),
              .stop (Sample.request (.truncate Sample.pathA 100)) 1] =
          some (outcomes, world) ∧
        Simulation.Allowed FileSystem.Undergoes (Sample.onImage image).shown
          [.stop (Sample.request (.write Sample.pathA [1, 2, 3] 4094)) 2,
            .call (Sample.request (.mkdir Sample.pathC 0o755)),
            .stop (Sample.request (.truncate Sample.pathA 100)) 1]
          outcomes fs ∧
        Quiet (readImg 1000 world.device.file) ∧
        ((readImg 1000 world.device.file).objects.map Prod.snd).Nodup ∧
        ∀ name object,
          (∃ inum, (name, inum) ∈ (readImg 1000 world.device.file).objects ∧
            world.disk.object inum = object) ↔
          ∃ names, fs.tree names = some object ∧ name = pathName names := by
  obtain ⟨image, hrun, hlength, hcons, hmagic, hsize⟩ := Sample.generated
  have hcons' : Consistent (Sample.onImage image).disk
    (Sample.onImage image).device.size := hcons
  have hlimit : image.length ≤ 1000 + 2 := by omega
  exact ⟨image, hrun, undergo_inspected hcons' ⟨rfl, rfl⟩ hmagic hsize hlimit
    ⟨⟨⟨by decide, fun _ _ _ => trivial⟩, trivial, id⟩, fun _ _ _ =>
      ⟨⟨by decide, fun _ _ _ => trivial⟩, fun _ _ _ =>
        ⟨⟨⟨by decide, fun _ _ _ => trivial⟩, trivial, id⟩,
          fun _ _ _ => trivial⟩⟩⟩⟩

end Fs5600
