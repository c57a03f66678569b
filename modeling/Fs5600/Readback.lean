/-
What can be read off the listing of an image: the blocks that have leaked and
the number of free ones, and, for a generated image, its description.
-/
import Fs5600.GeneratedListing
import Fs5600.Verdict

namespace Fs5600

open Scripts Preorder LabelledWalk

/-! The blocks of a consistent image. -/

section

variable {image : ImageFile} (hcons : Consistent image.disk image.nblks)
  {limit : Nat}

include hcons

theorem Consistent.numbers_perm {path : List Slot} {names : List Name}
    {i : Nat} (hnode : image.disk.node path = some (names, i)) :
    (image.numbers i).Nodup ∧
      ∀ b, b ∈ image.numbers i ↔ ∃ role, image.disk.owned i role = some b := by
  have hperm : ((List.range (blockCount (image.disk.inode i).length)).map
      (image.disk.inode i).ptr ++ [i]).Perm (image.numbers i) := by
    rw [ImageFile.numbers, FsInode.xblks_eq]
    exact List.perm_append_singleton i _
  refine ⟨hperm.nodup_iff.mp (hcons.nodup_unlinked hnode), fun b => ?_⟩
  rw [← hperm.mem_iff]
  exact (hcons.object _ _ _ hnode).mem_unlinked b

theorem Consistent.held_eq (hwell : WellMarked limit image) :
    (readImg limit image).held =
      (preorder (longer image.disk.slots) limit []).flatMap fun path =>
        image.numbers (image.disk.visited path).2 := by
  rw [ReadScript.held, hwell.printed_readImg, image.held_listing,
    hcons.oneBlock.preorder_children, List.flatMap_map]

theorem Consistent.mem_held (hwell : WellMarked limit image)
    (hlimit : image.nblks ≤ limit + 2) (b : Nat) :
    b ∈ (readImg limit image).held ↔ image.disk.Held b := by
  simp only [hcons.held_eq hwell, List.mem_flatMap, hcons.mem_paths hlimit]
  constructor
  · rintro ⟨path, hsome, hmem⟩
    obtain ⟨⟨names, i⟩, hnode⟩ := Option.isSome_iff_exists.mp hsome
    rw [Disk.visited_of_node hnode] at hmem
    obtain ⟨role, howned⟩ := ((hcons.numbers_perm hnode).2 b).mp hmem
    exact ⟨(path, role), (Disk.holder_of_node hnode role).trans howned⟩
  · rintro ⟨⟨path, role⟩, hholder⟩
    obtain ⟨names, i, hnode, howned⟩ := Disk.holder_eq_some.mp hholder
    refine ⟨path, Option.isSome_iff_exists.mpr ⟨_, hnode⟩, ?_⟩
    rw [Disk.visited_of_node hnode]
    exact ((hcons.numbers_perm hnode).2 b).mpr ⟨role, howned⟩

/-- No block is printed under two objects, or twice under one. -/
theorem Consistent.nodup_held (hwell : WellMarked limit image)
    (hlimit : image.nblks ≤ limit + 2) :
    (readImg limit image).held.Nodup := by
  have hnode : ∀ path ∈ preorder (longer image.disk.slots) limit [],
      ∃ names i, image.disk.node path = some (names, i) := by
    intro path hpath
    obtain ⟨⟨names, i⟩, hnode⟩ :=
      Option.isSome_iff_exists.mp ((hcons.mem_paths hlimit path).mp hpath)
    exact ⟨names, i, hnode⟩
  rw [hcons.held_eq hwell, List.nodup_flatMap]
  refine ⟨fun path hpath => ?_, List.Pairwise.imp_of_mem ?_
    (nodup_preorder_longer image.disk.slots_nodup limit [])⟩
  · obtain ⟨names, i, hnode⟩ := hnode path hpath
    rw [Disk.visited_of_node hnode]
    exact (hcons.numbers_perm hnode).1
  · intro path path' hpath hpath' hne b hb hb'
    obtain ⟨names, i, hhere⟩ := hnode path hpath
    obtain ⟨names', i', hthere⟩ := hnode path' hpath'
    dsimp only at hb hb'
    rw [Disk.visited_of_node hhere] at hb
    rw [Disk.visited_of_node hthere] at hb'
    obtain ⟨role, howned⟩ := ((hcons.numbers_perm hhere).2 b).mp hb
    obtain ⟨role', howned'⟩ := ((hcons.numbers_perm hthere).2 b).mp hb'
    rw [← Disk.holder_of_node hhere] at howned
    rw [← Disk.holder_of_node hthere] at howned'
    exact hne (congrArg Prod.fst (hcons.exclusive _ _ _ howned howned'))

end

theorem WellMarked.mem_used {image : ImageFile} {limit : Nat}
    (hwell : WellMarked limit image) (b : Nat) :
    b ∈ (readImg limit image).used ↔
      b < image.nblks ∧ Marked (image.disk 1) b := by
  rw [ReadScript.used, hwell.printed_readImg, image.used_listing,
    List.mem_filter, List.mem_range, decide_eq_true_eq]

theorem WellMarked.used_length {image : ImageFile} {limit : Nat}
    (hwell : WellMarked limit image) :
    freeCount (image.disk 1) image.nblks + (readImg limit image).used.length =
      image.nblks := by
  have hcount := List.length_eq_countP_add_countP
    (fun i => decide (bitTest (image.disk 1) i = 0))
    (l := List.range image.nblks)
  rw [List.length_range] at hcount
  rw [ReadScript.used, hwell.printed_readImg, image.used_listing,
    ← List.countP_eq_length_filter, freeCount]
  refine Eq.trans (congrArg _ (List.countP_congr fun i _ => ?_)) hcount.symm
  rw [decide_eq_true_eq, decide_eq_true_eq, decide_eq_true_eq]
  rfl

/-- Leaks and the free count in the listing of a consistent image: no block is
listed twice for the objects, all of them are listed as used, the used blocks
are these and the two reserved ones exactly when none has leaked, and the
blocks not listed as used are as many as `fs_statfs` reports free after
`fs_init`. -/
theorem readImg_accounts {image : ImageFile}
    (hcons : Consistent image.disk image.nblks) (hodd : image.odd.val = 0)
    (hmagic : image.disk.superblock.magic = 0x30303635)
    (hsize : image.disk.diskSize = image.nblks) {limit : Nat}
    (hlimit : image.nblks ≤ limit + 2) :
    (readImg limit image).held.Nodup ∧
      (∀ b ∈ (readImg limit image).held,
        2 ≤ b ∧ b ∈ (readImg limit image).used) ∧
      (NoLeak image.disk ↔ (readImg limit image).used.Perm
        (0 :: 1 :: (readImg limit image).held)) ∧
      freeCount (image.disk 1) image.disk.diskSize +
        (readImg limit image).used.length = image.nblks ∧
      ∀ world : World, world.disk = image.disk →
        world.device.size = image.nblks → world.device.readFails = never →
        ∃ mounted stat, run fsInit world = some (.ok 0, mounted) ∧
          run fsStatfs mounted = some (.ok stat, mounted) ∧
          stat.bfree.toNat + (readImg limit image).used.length =
            image.nblks ∧
          stat.bavail.toNat + (readImg limit image).used.length =
            image.nblks := by
  have hwell := hcons.wellMarked hodd hmagic hsize hlimit
  have hheld := hcons.mem_held hwell hlimit
  have hnodup := hcons.nodup_held hwell hlimit
  have hrange : ∀ b ∈ (readImg limit image).held,
      2 ≤ b ∧ b ∈ (readImg limit image).used := fun b hb => by
    obtain ⟨key, hkey⟩ := (hheld b).mp hb
    obtain ⟨hlow, hlt, hmarked⟩ := hcons.range key b hkey
    exact ⟨hlow, (hwell.mem_used b).mpr ⟨hsize ▸ hlt, hmarked⟩⟩
  have hcount : freeCount (image.disk 1) image.disk.diskSize +
      (readImg limit image).used.length = image.nblks := by
    rw [hsize]
    exact hwell.used_length
  refine ⟨hnodup, hrange, ?_, hcount, ?_⟩
  · have hnodup' : (0 :: 1 :: (readImg limit image).held).Nodup := by
      refine List.nodup_cons.mpr ⟨fun hmem => ?_,
        List.nodup_cons.mpr ⟨fun hmem => ?_, hnodup⟩⟩
      · rcases List.mem_cons.mp hmem with heq | hmem'
        · cases heq
        · exact absurd (hrange 0 hmem').1 (by decide)
      · exact absurd (hrange 1 hmem).1 (by decide)
    have hused : (readImg limit image).used.Nodup := by
      rw [ReadScript.used, hwell.printed_readImg, image.used_listing]
      exact List.nodup_range.filter _
    rw [List.perm_ext_iff_of_nodup hused hnodup', NoLeak]
    refine forall_congr' fun b => ?_
    rw [hwell.mem_used, List.mem_cons, List.mem_cons, hheld, hsize, or_assoc]
  · intro world hdisk hblocks hreads
    rw [← hdisk, ← hblocks] at hcons
    have hcounted := Counted.boot hcons
    have hfree : freeCount (world.boot.disk 1) world.boot.disk.diskSize =
        freeCount (image.disk 1) image.disk.diskSize := by
      rw [← hdisk]
      rfl
    refine ⟨world.boot, _, run_fsInit hcons hreads, rfl, ?_, ?_⟩
    · rw [hcounted.bfree, hfree, hcount]
    · rw [hcounted.bavail, hfree, hcount]

/-- A generated image. -/
theorem readImg_accounts_sample :
    ∃ image, genDisk (fun _ _ _ => 0) [Sample.genA]
        [Sample.genTop, Sample.genD] 16 = some (image, []) ∧
      (readImg 1000 (.whole (imageDisk image) image.length)).held.Nodup ∧
      (∀ b ∈ (readImg 1000 (.whole (imageDisk image) image.length)).held,
        2 ≤ b ∧
          b ∈ (readImg 1000 (.whole (imageDisk image) image.length)).used) ∧
      (NoLeak (imageDisk image) ↔
        (readImg 1000 (.whole (imageDisk image) image.length)).used.Perm
          (0 :: 1 ::
            (readImg 1000 (.whole (imageDisk image) image.length)).held)) ∧
      freeCount (imageDisk image 1) (imageDisk image).diskSize +
        (readImg 1000 (.whole (imageDisk image) image.length)).used.length =
          image.length ∧
      ∃ mounted stat,
        run fsInit (Sample.onImage image) = some (.ok 0, mounted) ∧
        run fsStatfs mounted = some (.ok stat, mounted) ∧
        stat.bfree.toNat + (readImg 1000
          (.whole (imageDisk image) image.length)).used.length =
            image.length ∧
        stat.bavail.toNat + (readImg 1000
          (.whole (imageDisk image) image.length)).used.length =
            image.length := by
  obtain ⟨image, hrun, hlength, hcons, hmagic, hsize⟩ := Sample.generated
  have hlimit : image.length ≤ 1000 + 2 := by omega
  have hcons' : Consistent
      (ImageFile.whole (imageDisk image) image.length).disk
      (ImageFile.whole (imageDisk image) image.length).nblks := hcons
  obtain ⟨honce, hused, hleak, hcount, hstatfs⟩ :=
    readImg_accounts hcons' rfl hmagic hsize hlimit
  exact ⟨image, hrun, honce, hused, hleak, hcount,
    hstatfs (Sample.onImage image) rfl rfl rfl⟩

/-! Objects from their lines. -/

/-- An object as it is listed. -/
structure ListedObject where
  inum : Nat
  name : Name
  uid : UInt16
  gid : UInt16
  mode : UInt32
  size : Int32
  blocks : List Nat
  entries : List ListedEntry

/-- One line more in front: the objects so far, and the blocks and the
entries that belong to the next one. -/
def ReadLine.regroup (line : ReadLine)
    (state : List ListedObject × List Nat × List ListedEntry) :
    List ListedObject × List Nat × List ListedEntry :=
  let (objects, held, entries) := state
  match line with
  | .inode inum name uid gid mode size _ =>
      (⟨inum, name, uid, gid, mode, size, held, entries⟩ :: objects, [], [])
  | .pointer ptr _ => (objects, ptr.toNat :: held, entries)
  | .directory dblk _ => (objects, dblk.toNat :: held, entries)
  | .entry slot name inum => (objects, held, (slot, name, inum) :: entries)
  | _ => state

/-- The objects that can be read off the output of a run. -/
def ReadScript.listed {A : Type} (script : ReadScript A) :
    List ListedObject :=
  (script.printed.foldr ReadLine.regroup ([], [], [])).1

/-- The object that a node of the walk is listed as. -/
def ImageFile.listed (image : ImageFile) (node : Name × Nat) :
    ListedObject :=
  let inode := image.disk.inode node.2
  ⟨node.2, printedName node.1, inode.uid, inode.gid, inode.mode, inode.size,
    (List.range inode.xblks).map inode.ptr,
    (List.range inode.xblks).flatMap fun i =>
      if inode.isReg then []
      else listedEntries (.decode (image.disk (inode.ptr i)))⟩

section

variable {image : ImageFile} (objects : List ListedObject)

theorem regroup_entries {A : Type} (lines : A → List ReadLine)
    (found : A → List ListedEntry)
    (hline : ∀ value objects blocks entries,
      (lines value).foldr ReadLine.regroup (objects, blocks, entries) =
        (objects, blocks, found value ++ entries))
    (values : List A) (blocks : List Nat) (entries : List ListedEntry) :
    (values.flatMap lines).foldr ReadLine.regroup
        (objects, blocks, entries) =
      (objects, blocks, values.flatMap found ++ entries) := by
  induction values with
  | nil => rfl
  | cons value values ih =>
      rw [List.flatMap_cons, List.foldr_append, ih, hline,
        List.flatMap_cons, List.append_assoc]

theorem regroup_entryLines (des : Directory) (blocks : List Nat)
    (entries : List ListedEntry) :
    (entryLines des).foldr ReadLine.regroup (objects, blocks, entries) =
      (objects, blocks, listedEntries des ++ entries) := by
  refine regroup_entries objects _ _ (fun j _ _ _ => ?_) _ _ _
  split <;> rfl

theorem regroup_blockLines (inode : FsInode) (values : List Nat)
    (blocks : List Nat) (entries : List ListedEntry) :
    (values.flatMap fun i =>
        if inode.isReg then [.pointer (inode.word i) false]
        else .directory (inode.word i) false ::
          entryLines (.decode (image.disk (inode.ptr i)))).foldr
        ReadLine.regroup (objects, blocks, entries) =
      (objects, values.map inode.ptr ++ blocks,
        (values.flatMap fun i => if inode.isReg then []
          else listedEntries (.decode (image.disk (inode.ptr i)))) ++
          entries) := by
  induction values with
  | nil => rfl
  | cons i values ih =>
      rw [List.flatMap_cons, List.foldr_append, ih, List.flatMap_cons,
        List.map_cons, ← inode.toNat_word]
      split
      · rfl
      · rw [List.foldr_cons, regroup_entryLines, List.append_assoc]
        rfl

theorem regroup_objectLines (node : Name × Nat) :
    (image.objectLines node).foldr ReadLine.regroup (objects, [], []) =
      (image.listed node :: objects, [], []) := by
  rw [ImageFile.objectLines, List.foldr_cons, ImageFile.blockLines,
    regroup_blockLines, List.append_nil, List.append_nil]
  rfl

theorem WellMarked.listed_readImg {limit : Nat}
    (hwell : WellMarked limit image) :
    (readImg limit image).listed =
      (preorder image.children limit ([], 2)).map image.listed := by
  have hnodes : ∀ nodes : List (Name × Nat),
      (nodes.flatMap image.objectLines).foldr ReadLine.regroup ([], [], []) =
        (nodes.map image.listed, [], []) := by
    intro nodes
    induction nodes with
    | nil => rfl
    | cons node nodes ih =>
        rw [List.flatMap_cons, List.foldr_append, ih, regroup_objectLines,
          List.map_cons]
  have hskip : ∀ (line : Nat → ReadLine)
      (_ : ∀ i state, (line i).regroup state = state) (values : List Nat)
      (state : List ListedObject × List Nat × List ListedEntry),
      (values.map line).foldr ReadLine.regroup state = state := by
    intro line hline values state
    induction values with
    | nil => rfl
    | cons i values ih => rw [List.map_cons, List.foldr_cons, ih, hline]
  rw [ReadScript.listed, hwell.printed_readImg, ImageFile.listing,
    List.foldr_append, List.foldr_append, hnodes,
    hskip .found (fun _ _ => rfl), List.foldr_cons, List.foldr_cons,
    hskip .used (fun _ _ => rfl)]
  rfl

end

/-! Descriptions read back. -/

/-- The valid entries, each with its slot. -/
def GenObject.slots (f : GenObject) : List ListedEntry :=
  (List.finRange 128).filterMap fun slot =>
    (f.entries[slot.val]?).bind fun entry =>
      if entry.1 then some (slot, entry.2) else none

theorem GenObject.slotsIn_zero (f : GenObject) : f.slotsIn 0 = f.slots := by
  simp only [slotsIn, slots, Nat.zero_mul, Nat.zero_add]

/-- How a described object is listed under a path. -/
def GenObject.listedAt (f : GenObject) (names : List Name) : ListedObject where
  inum := f.inum
  name := pathName names
  uid := .ofNat f.uid
  gid := .ofNat f.gid
  mode := .ofNat f.mode
  size := .ofInt f.size
  blocks := f.blocks
  entries := f.slots

/-- The object that a description has at a path. -/
def describedObject (objects : List GenObject) (names : List Name) :
    Option GenObject := do
  let root ← findObject objects 2
  followNames objects root names

section

variable {randint : Randint} {objects : List GenObject} {nblocks : Nat}
  {disk : Disk} (hdescribed : Described objects nblocks)
  (hgen : Generated randint objects nblocks disk)

include hdescribed hgen

theorem Generated.blocks_eq {f : GenObject} (hf : f ∈ objects) :
    (List.range (disk.inode f.inum).xblks).map (disk.inode f.inum).ptr =
      f.blocks := by
  have hlength : (disk.inode f.inum).xblks = f.blocks.length := by
    rw [hgen.xblks_eq hdescribed.drawn hf, (hdescribed.object f hf).blocks]
  refine List.ext_getElem ?_ fun k hk hk' => ?_
  · rw [List.length_map, List.length_range, hlength]
  · rw [List.getElem_map, List.getElem_range]
    exact hgen.ptr hdescribed.drawn hf (List.getElem?_eq_getElem hk')

theorem Generated.listed_eq {f : GenObject} (hf : f ∈ objects)
    (names : List Name) :
    (ImageFile.whole disk nblocks).listed
        (names.flatMap (slash :: ·), f.inum) = f.listedAt names := by
  have hobject := hdescribed.object f hf
  have hblocks := hgen.blocks_eq hdescribed hf
  have hinode := hgen.inode f hf
  have hreg : (disk.inode f.inum).isReg = true ↔ f.kind = .file := by
    rw [hinode]
    exact hobject.drawn.isReg_iff
  have hentries : ((List.range (disk.inode f.inum).xblks).flatMap fun i =>
      if (disk.inode f.inum).isReg then []
      else listedEntries (.decode (disk ((disk.inode f.inum).ptr i)))) =
        f.slots := by
    rcases f.kind_cases with ⟨hkind, hnone⟩ | hdir
    · have hslots : f.slots = [] := by
        rw [GenObject.slots, hnone, List.filterMap_eq_nil_iff]
        exact fun _ _ => rfl
      rw [hslots, List.flatMap_eq_nil_iff]
      exact fun i _ => if_pos (hreg.mpr hkind)
    · have hkind : f.kind ≠ .file := by simp [hdir]
      have hone : blockCount f.size.toNat = 1 :=
        hobject.blocks.symm.trans (hobject.blocks_of_dir hkind)
      obtain ⟨b, hb, hptr⟩ := hgen.block_of_lt hdescribed.drawn hf
        (hone ▸ Nat.one_pos : 0 < blockCount f.size.toNat)
      rw [hgen.xblks_eq hdescribed.drawn hf, hone, List.range_one,
        List.flatMap_singleton, if_neg fun h => hkind (hreg.mp h), hptr,
        hgen.listedEntries_eq hdescribed.drawn hf hkind hb, f.slotsIn_zero]
  rw [ImageFile.listed, GenObject.listedAt, printedName_flatMap]
  change ListedObject.mk f.inum _ (disk.inode f.inum).uid
    (disk.inode f.inum).gid (disk.inode f.inum).mode (disk.inode f.inum).size
    ((List.range (disk.inode f.inum).xblks).map (disk.inode f.inum).ptr)
    ((List.range (disk.inode f.inum).xblks).flatMap fun i =>
      if (disk.inode f.inum).isReg then []
      else listedEntries (.decode (disk ((disk.inode f.inum).ptr i)))) = _
  rw [hblocks, hentries, hinode]
  rfl

theorem Generated.node_iff (names : List Name) (i : Nat) :
    (∃ path, disk.node path = some (names, i)) ↔
      ∃ f, describedObject objects names = some f ∧ f ∈ objects ∧
        f.inum = i := by
  obtain ⟨root, hroot, hinum, -⟩ := hdescribed.root
  have hresolve := hgen.resolveFrom_eq hdescribed hroot names
  have hfound := hdescribed.drawn.findObject_eq hroot
  rw [hinum] at hfound hresolve
  rw [describedObject, hfound, Option.bind_eq_bind, Option.bind_some]
  have hcons := hgen.consistent hdescribed
  constructor
  · rintro ⟨path, hnode⟩
    have hthere := Disk.resolve_of_node hcons.object hnode
    rw [Disk.resolve] at hthere
    cases hfollow : followNames objects root names with
    | none =>
        rw [hfollow] at hresolve
        obtain ⟨status, hstatus⟩ := hresolve
        rw [hstatus] at hthere
        cases hthere
    | some f =>
        rw [hfollow] at hresolve
        obtain ⟨hf, path', hpath⟩ := hresolve
        rw [hpath] at hthere
        cases hthere
        exact ⟨f, rfl, hf, rfl⟩
  · rintro ⟨f, hfollow, -, rfl⟩
    rw [hfollow] at hresolve
    obtain ⟨-, path, hpath⟩ := hresolve
    exact ⟨path, Disk.node_of_resolve hpath⟩

theorem Generated.wellMarked {limit : Nat} (hlimit : nblocks ≤ limit + 2) :
    WellMarked limit (.whole disk nblocks) :=
  Consistent.wellMarked (hgen.consistent hdescribed) rfl
    (congrArg FsSuper.magic hgen.superblock)
    (hgen.diskSize hdescribed.drawn) hlimit

/-- What is listed for a generated image. -/
theorem Generated.mem_listed {limit : Nat} (hlimit : nblocks ≤ limit + 2)
    (there : ListedObject) :
    there ∈ (readImg limit (.whole disk nblocks)).listed ↔
      ∃ names f, describedObject objects names = some f ∧ f ∈ objects ∧
        there = f.listedAt names := by
  have hcons := hgen.consistent hdescribed
  have hone : (ImageFile.whole disk nblocks).OneBlock :=
    Consistent.oneBlock hcons
  rw [(hgen.wellMarked hdescribed hlimit).listed_readImg,
    hone.preorder_children, List.map_map, List.mem_map]
  constructor
  · rintro ⟨path, hpath, rfl⟩
    obtain ⟨⟨names, i⟩, hnode⟩ :=
      Option.isSome_iff_exists.mp ((hcons.mem_paths hlimit path).mp hpath)
    obtain ⟨f, hfound, hf, rfl⟩ :=
      (hgen.node_iff hdescribed names i).mp ⟨path, hnode⟩
    refine ⟨names, f, hfound, hf, ?_⟩
    rw [Function.comp_apply]
    exact (congrArg _ (Disk.visited_of_node hnode)).trans
      (hgen.listed_eq hdescribed hf names)
  · rintro ⟨names, f, hfound, hf, rfl⟩
    obtain ⟨path, hnode⟩ :=
      (hgen.node_iff hdescribed names f.inum).mpr ⟨f, hfound, hf, rfl⟩
    refine ⟨path, (hcons.mem_paths hlimit path).mpr
      (Option.isSome_iff_exists.mpr ⟨_, hnode⟩), ?_⟩
    rw [Function.comp_apply]
    exact (congrArg _ (Disk.visited_of_node hnode)).trans
      (hgen.listed_eq hdescribed hf names)

/-- Every described object is listed once. -/
theorem Generated.listed_perm {limit : Nat} (hlimit : nblocks ≤ limit + 2) :
    ((readImg limit (.whole disk nblocks)).listed.map
      ListedObject.inum).Perm (objects.map GenObject.inum) := by
  have hwell := hgen.wellMarked hdescribed hlimit
  have hcons : Consistent (ImageFile.whole disk nblocks).disk
      (ImageFile.whole disk nblocks).nblks := hgen.consistent hdescribed
  have hlists := hcons.lists hwell hlimit
  have hnumbers := hdescribed.drawn.nodup_numbers
  have honce : ((readImg limit (.whole disk nblocks)).listed.map
      ListedObject.inum).Nodup := by
    have hobjects := hlists.once
    rw [ReadScript.objects, hwell.printed_readImg,
      ImageFile.objects_listing, List.map_map] at hobjects
    rw [hwell.listed_readImg, List.map_map]
    exact hobjects
  have hinums : (objects.map GenObject.inum).Nodup := by
    refine List.pairwise_map.mpr
      ((List.nodup_flatMap.mp hnumbers).2.imp fun hdisjoint heq => ?_)
    refine hdisjoint List.mem_cons_self ?_
    rw [heq]
    exact List.mem_cons_self
  rw [List.perm_ext_iff_of_nodup honce hinums]
  intro i
  simp only [List.mem_map, hgen.mem_listed hdescribed hlimit]
  constructor
  · rintro ⟨_, ⟨names, f, -, hf, rfl⟩, rfl⟩
    exact ⟨f, hf, rfl⟩
  · rintro ⟨f, hf, rfl⟩
    obtain ⟨path, names, hnode⟩ :=
      hgen.node_of_reached hdescribed (hdescribed.reached f hf)
    obtain ⟨g, hfound, hg, hinum⟩ :=
      (hgen.node_iff hdescribed names f.inum).mp ⟨path, hnode⟩
    exact ⟨_, ⟨names, g, hfound, hg, rfl⟩, hinum⟩

end

/-- A description can be read back from the image that `gen-disk.py` makes of
it: `read-img.py` lists every described object once, and what it prints of an
object is its path in the description, its attributes but for the times, its
blocks and its valid entries. -/
theorem genDisk_readBack (randint : Randint) {files dirs : List GenObject}
    {nblocks : Nat} (hdescribed : Described (files ++ dirs) nblocks)
    {limit : Nat} (hlimit : nblocks ≤ limit + 2) :
    ∃ image, genDisk randint files dirs nblocks = some (image, []) ∧
      ((readImg limit (.whole (imageDisk image) image.length)).listed.map
          ListedObject.inum).Perm
        ((files ++ dirs).map GenObject.inum) ∧
      ∀ there,
        there ∈ (readImg limit
          (.whole (imageDisk image) image.length)).listed ↔
        ∃ names f, describedObject (files ++ dirs) names = some f ∧
          f ∈ files ++ dirs ∧ there = f.listedAt names := by
  obtain ⟨image, hrun, hlength, hgen⟩ :=
    hdescribed.drawn.genDisk_generated randint
  refine ⟨image, hrun, ?_⟩
  rw [hlength]
  exact ⟨hgen.listed_perm hdescribed hlimit,
    hgen.mem_listed hdescribed hlimit⟩

theorem genDisk_readBack_sample :
    ∃ image, genDisk (fun _ _ _ => 0) [Sample.genA]
        [Sample.genTop, Sample.genD] 16 = some (image, []) ∧
      ((readImg 1000 (.whole (imageDisk image) image.length)).listed.map
          ListedObject.inum).Perm
        (([Sample.genA] ++ [Sample.genTop, Sample.genD]).map
          GenObject.inum) ∧
      ∀ there,
        there ∈ (readImg 1000
          (.whole (imageDisk image) image.length)).listed ↔
        ∃ names f,
          describedObject ([Sample.genA] ++ [Sample.genTop, Sample.genD])
            names = some f ∧
          f ∈ [Sample.genA] ++ [Sample.genTop, Sample.genD] ∧
          there = f.listedAt names :=
  genDisk_readBack (fun _ _ _ => 0) Sample.genDescribed (by decide)

end Fs5600
