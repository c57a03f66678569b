/-
What the reader prints of a generated image, computed from the description
alone.  Several entries may lead to one object and a directory may have several
blocks, as in `disk1.in`.
-/
import Fs5600.GeneratedTree

namespace Fs5600

open Preorder

/-- The directory entries of a listing: slot, name and inode. -/
abbrev ListedEntry := Slot × Name × Nat

def listedEntries (des : Directory) : List ListedEntry :=
  (List.finRange 128).flatMap fun j =>
    if (des j).valid then
      [(j, (des j).nameString, (des j).inode.toNat)]
    else []

theorem directoryChildren_eq (name : Name) (des : Directory) :
    directoryChildren name des = (listedEntries des).map fun entry =>
      (name ++ slash :: entry.2.1, entry.2.2) := by
  rw [directoryChildren, listedEntries, List.filterMap_eq_flatMap_toList,
    List.map_flatMap]
  refine List.flatMap_congr fun j _ => ?_
  split <;> rfl

theorem entryLines_eq (des : Directory) :
    entryLines des = (listedEntries des).map fun entry =>
      .entry entry.1 entry.2.1 entry.2.2 := by
  rw [entryLines, listedEntries, List.map_flatMap]
  refine List.flatMap_congr fun j _ => ?_
  split <;> rfl

/-! The listing of a description. -/

/-- The valid entries in a block of a directory, each with its slot. -/
def GenObject.slotsIn (f : GenObject) (k : Nat) : List ListedEntry :=
  (List.finRange 128).filterMap fun slot =>
    (f.entries[k * 128 + slot.val]?).bind fun entry =>
      if entry.1 then some (slot, entry.2) else none

/-- The nodes one entry below a node. -/
def describedNext (objects : List GenObject) (node : Name × Nat) :
    List (Name × Nat) :=
  match findObject objects node.2 with
  | none => []
  | some f => (f.entries.filter Prod.fst).map fun entry =>
      (node.1 ++ slash :: entry.2.1, entry.2.2)

def GenObject.blockLines (f : GenObject) (k : Nat) : List ReadLine :=
  let ptr := .ofNat (f.blocks.getD k 0)
  match f.kind with
  | .file => [.pointer ptr false]
  | .dir _ => .directory ptr false :: (f.slotsIn k).map fun entry =>
      .entry entry.1 entry.2.1 entry.2.2

/-- The lines of an object under a name; blocks behind its size are not
printed. -/
def GenObject.objectLines (f : GenObject) (name : Name) : List ReadLine :=
  .inode f.inum (printedName name) (.ofNat f.uid) (.ofNat f.gid)
    (.ofNat f.mode) (.ofInt f.size) false ::
    (List.range (blockCount f.size.toNat)).flatMap f.blockLines

def describedLines (objects : List GenObject) (node : Name × Nat) :
    List ReadLine :=
  match findObject objects node.2 with
  | none => []
  | some f => f.objectLines node.1

/-- The output for the image of a description. -/
def describedListing (limit : Nat) (objects : List GenObject)
    (nblocks : Nat) : List ReadLine :=
  let nodes := preorder (describedNext objects) limit ([], 2)
  .magic 0x30303635 false :: .blocks (.ofNat nblocks) none ::
    ((List.range nblocks).filter fun i =>
      decide (i ∈ usedNumbers objects)).map .used ++
    ((List.range nblocks).filter fun i =>
      decide (i ∈ nodes.map Prod.snd)).map .found ++
    nodes.flatMap (describedLines objects)

/-! Entries by blocks. -/

theorem filterMap_getElem? {A : Type} (n : Nat) (values : List A) :
    ((List.finRange n).filterMap fun j => values[j.val]?) =
      values.take n := by
  induction n generalizing values with
  | zero => rfl
  | succ n ih =>
      rw [List.finRange_succ]
      cases values with
      | nil => simp
      | cons value values =>
          rw [List.filterMap_cons, List.filterMap_map, List.take_succ_cons,
            ← ih]
          rfl

theorem flatMap_slices {A : Type} {m n : Nat} {values : List A}
    (hfits : values.length ≤ m * n) :
    ((List.range n).flatMap fun k => (values.drop (k * m)).take m) =
      values := by
  induction n generalizing values with
  | zero =>
      rw [Nat.mul_zero, Nat.le_zero, List.length_eq_zero_iff] at hfits
      rw [hfits]
      rfl
  | succ n ih =>
      have hrest : (values.drop m).length ≤ m * n := by
        rw [List.length_drop, Nat.sub_le_iff_le_add, ← Nat.mul_succ]
        exact hfits
      rw [List.range_succ_eq_map, List.flatMap_cons, List.flatMap_map,
        Nat.zero_mul, List.drop_zero]
      conv_rhs => rw [← List.take_append_drop m values, ← ih hrest]
      congr 1
      refine List.flatMap_congr fun k _ => ?_
      rw [List.drop_drop, Nat.succ_mul, Nat.add_comm]

theorem GenObject.map_slotsIn (f : GenObject) (k : Nat) :
    (f.slotsIn k).map Prod.snd =
      (((f.entries.drop (k * 128)).take 128).filter Prod.fst).map
        Prod.snd := by
  rw [slotsIn, ← filterMap_getElem?, List.map_filterMap,
    List.filter_filterMap, List.map_filterMap]
  refine List.filterMap_congr fun slot _ => ?_
  rw [List.getElem?_drop]
  cases f.entries[k * 128 + slot.val]? with
  | none => rfl
  | some entry =>
      rcases entry with ⟨_ | _, hop⟩ <;> rfl

/-- The valid entries, block by block. -/
theorem GenObject.flatMap_slotsIn {f : GenObject} {n : Nat}
    (hfits : f.entries.length ≤ 128 * n) :
    ((List.range n).flatMap fun k => (f.slotsIn k).map Prod.snd) =
      (f.entries.filter Prod.fst).map Prod.snd := by
  conv_rhs => rw [← flatMap_slices hfits]
  rw [List.filter_flatMap, List.map_flatMap]
  exact List.flatMap_congr fun k _ => f.map_slotsIn k

/-! The walk over the image. -/

section

variable {randint : Randint} {objects : List GenObject} {nblocks : Nat}
  {disk : Disk} (hdrawn : Drawn objects nblocks)
  (hgen : Generated randint objects nblocks disk) {f : GenObject}
  (hf : f ∈ objects)

include hdrawn hgen hf

theorem Generated.listedEntries_eq (hkind : f.kind ≠ .file) {k b : Nat}
    (hb : f.blocks[k]? = some b) :
    listedEntries (.decode (disk b)) = f.slotsIn k := by
  obtain ⟨packed, hpacked, hblock⟩ := hgen.directory_eq hf hkind hb
  obtain ⟨hlength, hpack⟩ := packEntries_eq_some hpacked
  rw [hblock, listedEntries, GenObject.slotsIn,
    List.filterMap_eq_flatMap_toList]
  refine List.flatMap_congr fun slot _ => ?_
  have hslice : ((f.entries.drop (k * 128)).take 128)[slot.val]? =
      f.entries[k * 128 + slot.val]? := by
    rw [List.getElem?_take_of_lt slot.isLt, List.getElem?_drop]
  rw [List.getD_eq_getElem?_getD]
  cases hentry : f.entries[k * 128 + slot.val]? with
  | none =>
      rw [hentry, List.getElem?_eq_none_iff, ← hlength] at hslice
      rw [List.getElem?_eq_none hslice]
      rfl
  | some entry =>
      rw [hentry] at hslice
      obtain ⟨d, hd, hvalid, hinode, hname⟩ := hpack slot.val entry hslice
      rw [hd, Option.getD_some, hvalid, Option.bind_some]
      by_cases hval : entry.1 = true
      · have hmem := List.mem_of_getElem? hentry
        obtain ⟨g, hg, hnum⟩ := hdrawn.target f hf entry.2.2
          (List.mem_map_of_mem (List.mem_filter.mpr ⟨hmem, hval⟩))
        have hlt := hdrawn.below g hg g.inum List.mem_cons_self
        have hfits := hdrawn.nblocks_le
        rw [if_pos hval, if_pos hval,
          hname ((hdrawn.object f hf).nul_free entry hmem hval), hinode,
          BitVec.toNat_ofNat, Nat.mod_eq_of_lt (by omega)]
        rfl
      · rw [if_neg hval, if_neg hval]
        rfl

theorem Generated.xblks_eq :
    (disk.inode f.inum).xblks = blockCount f.size.toNat := by
  rw [FsInode.xblks_eq, hgen.inode f hf, (hdrawn.object f hf).record_length]

/-- The pointers up to the size. -/
theorem Generated.block_of_lt {k : Nat} (hk : k < blockCount f.size.toNat) :
    ∃ b, f.blocks[k]? = some b ∧ (disk.inode f.inum).ptr k = b := by
  have hlt := hk.trans_le (hdrawn.object f hf).size.2
  exact ⟨_, List.getElem?_eq_getElem hlt,
    hgen.ptr hdrawn hf (List.getElem?_eq_getElem hlt)⟩

theorem Generated.children_eq (name : Name) :
    (ImageFile.whole disk nblocks).children (name, f.inum) =
      describedNext objects (name, f.inum) := by
  have hobject := hdrawn.object f hf
  have hdir : (disk.inode f.inum).isDir = true ↔ f.kind ≠ .file := by
    rw [hgen.inode f hf]
    exact hobject.isDir_iff
  have hlist : ∀ entries : List (Bool × Name × Nat),
      (entries.map fun entry => (name ++ slash :: entry.2.1, entry.2.2)) =
        (entries.map Prod.snd).map fun hop =>
          (name ++ slash :: hop.1, hop.2) := fun entries => by
    rw [List.map_map]
    rfl
  rw [describedNext, hdrawn.findObject_eq hf, ImageFile.children,
    ImageFile.childrenOf]
  change (if (disk.inode f.inum).isDir then
    (List.range (disk.inode f.inum).xblks).flatMap fun k =>
      directoryChildren name (.decode (disk ((disk.inode f.inum).ptr k)))
    else []) = (f.entries.filter Prod.fst).map fun entry =>
      (name ++ slash :: entry.2.1, entry.2.2)
  rw [hgen.xblks_eq hdrawn hf, hlist]
  split
  next hkind =>
    rw [← GenObject.flatMap_slotsIn hobject.fits, List.map_flatMap]
    refine List.flatMap_congr fun k hk => ?_
    obtain ⟨b, hb, hptr⟩ :=
      hgen.block_of_lt hdrawn hf (List.mem_range.mp hk)
    rw [hptr, directoryChildren_eq,
      hgen.listedEntries_eq hdrawn hf (hdir.mp hkind) hb, List.map_map]
    rfl
  next hfile =>
    rcases f.kind_cases with ⟨-, hnone⟩ | hkind
    · rw [hnone]
      rfl
    · exact absurd (hdir.mpr (by simp [hkind])) hfile

theorem Generated.objectLines_eq (name : Name) :
    (ImageFile.whole disk nblocks).objectLines (name, f.inum) =
      describedLines objects (name, f.inum) := by
  have hobject := hdrawn.object f hf
  have hreg : (disk.inode f.inum).isReg = true ↔ f.kind = .file := by
    rw [hgen.inode f hf]
    exact hobject.isReg_iff
  have hblocks : (ImageFile.whole disk nblocks).blockLines
      (disk.inode f.inum) =
        (List.range (blockCount f.size.toNat)).flatMap f.blockLines := by
    rw [ImageFile.blockLines, hgen.xblks_eq hdrawn hf]
    refine List.flatMap_congr fun k hk => ?_
    obtain ⟨b, hb, hptr⟩ :=
      hgen.block_of_lt hdrawn hf (List.mem_range.mp hk)
    have hlt := hdrawn.below f hf b
      (List.mem_cons_of_mem _ (List.mem_of_getElem? hb))
    have hfits := hdrawn.nblocks_le
    have hword : (disk.inode f.inum).word k = .ofNat (f.blocks.getD k 0) := by
      rw [← UInt32.toNat_inj, FsInode.toNat_word, hptr,
        List.getD_eq_getElem?_getD, hb, Option.getD_some,
        UInt32.toNat_ofNat']
      omega
    rw [GenObject.blockLines, hword]
    change (if (disk.inode f.inum).isReg then _ else _ ::
      entryLines (.decode (disk ((disk.inode f.inum).ptr k)))) = _
    rcases f.kind_cases with ⟨hkind, -⟩ | hkind
    · rw [if_pos (hreg.mpr hkind), hkind]
    · have hdir : f.kind ≠ .file := by simp [hkind]
      rw [if_neg fun h => hdir (hreg.mp h), hkind, hptr, entryLines_eq,
        hgen.listedEntries_eq hdrawn hf hdir hb]
  rw [describedLines, hdrawn.findObject_eq hf]
  change ReadLine.inode f.inum (printedName name) (disk.inode f.inum).uid
    (disk.inode f.inum).gid (disk.inode f.inum).mode
    (disk.inode f.inum).size false ::
      (ImageFile.whole disk nblocks).blockLines (disk.inode f.inum) = _
  rw [hblocks, hgen.inode f hf]
  rfl

end

/-- The node belongs to an object. -/
def InDescription (objects : List GenObject) (node : Name × Nat) : Prop :=
  ∃ f ∈ objects, f.inum = node.2

section

variable {randint : Randint} {objects : List GenObject} {nblocks : Nat}
  {disk : Disk} (hdrawn : Drawn objects nblocks)

include hdrawn

theorem Drawn.inDescription_root : InDescription objects ([], 2) :=
  hdrawn.root

theorem Drawn.inDescription_next (node : Name × Nat)
    (hnode : InDescription objects node) :
    ∀ there ∈ describedNext objects node, InDescription objects there := by
  obtain ⟨name, inum⟩ := node
  obtain ⟨f, hf, rfl⟩ := hnode
  rw [describedNext, hdrawn.findObject_eq hf]
  intro there hthere
  obtain ⟨entry, hentry, rfl⟩ := List.mem_map.mp hthere
  exact hdrawn.target f hf entry.2.2 (List.mem_map_of_mem hentry)

variable (hgen : Generated randint objects nblocks disk)

include hgen

theorem Generated.children_inDescription (node : Name × Nat)
    (hnode : InDescription objects node) :
    (ImageFile.whole disk nblocks).children node =
      describedNext objects node := by
  obtain ⟨name, inum⟩ := node
  obtain ⟨f, hf, rfl⟩ := hnode
  exact hgen.children_eq hdrawn hf name

/-- The walk over the image is the walk over the description. -/
theorem Generated.steps_iff {k : Nat} {node : Name × Nat} :
    Steps (ImageFile.whole disk nblocks).children k ([], 2) node ↔
      Steps (describedNext objects) k ([], 2) node :=
  Steps.congr hdrawn.inDescription_next
    (hgen.children_inDescription hdrawn) hdrawn.inDescription_root

theorem Generated.blocksMarked {f : GenObject} (hf : f ∈ objects) :
    BlocksMarked (.whole disk nblocks) (disk.inode f.inum) := by
  have hobject := hdrawn.object f hf
  have hblock : ∀ k < (disk.inode f.inum).xblks,
      (disk.inode f.inum).ptr k ∈ f.numbers := by
    intro k hk
    rw [hgen.xblks_eq hdrawn hf] at hk
    obtain ⟨b, hb, hptr⟩ := hgen.block_of_lt hdrawn hf hk
    rw [hptr]
    exact List.mem_cons_of_mem _ (List.mem_of_getElem? hb)
  refine ⟨?_, ?_, fun k hk => (hgen.marked _).mpr
    (mem_usedNumbers hf (hblock k hk)), fun _ k hk =>
    hdrawn.below f hf _ (hblock k hk)⟩
  · rw [hgen.inode f hf]
    by_cases hkind : f.kind = .file
    · exact Or.inl (hobject.file hkind)
    · exact Or.inr (hobject.dir hkind)
  · rw [hgen.xblks_eq hdrawn hf]
    exact hobject.size.2.trans hobject.pointers

/-- The reader has nothing to complain of but the depth. -/
theorem Generated.wellMarked_iff {limit : Nat} :
    WellMarked limit (.whole disk nblocks) ↔
      ∀ k node, Steps (describedNext objects) k ([], 2) node → k < limit := by
  constructor
  · intro hwell k node hsteps
    exact (hwell.reached k node ((hgen.steps_iff hdrawn).mpr hsteps)).1
  · intro hdepth
    refine ⟨rfl, congrArg FsSuper.magic hgen.superblock,
      hgen.diskSize hdrawn, hdrawn.nblocks_le.trans (by decide),
      fun k node hsteps => ?_⟩
    have hsteps' := (hgen.steps_iff hdrawn).mp hsteps
    obtain ⟨f, hf, hinum⟩ :=
      hsteps'.keeps hdrawn.inDescription_next hdrawn.inDescription_root
    rw [← hinum]
    exact ⟨hdepth k node hsteps', hdrawn.below f hf _ List.mem_cons_self,
      (hgen.marked _).mpr (mem_usedNumbers hf List.mem_cons_self),
      hgen.blocksMarked hdrawn hf⟩

theorem Generated.listing_eq (limit : Nat) :
    (ImageFile.whole disk nblocks).listing limit =
      describedListing limit objects nblocks := by
  have hnodes : preorder (ImageFile.whole disk nblocks).children limit
      ([], 2) = preorder (describedNext objects) limit ([], 2) :=
    preorder_congr hdrawn.inDescription_next
      (hgen.children_inDescription hdrawn) hdrawn.inDescription_root
  have hlines : ∀ node ∈ preorder (describedNext objects) limit ([], 2),
      (ImageFile.whole disk nblocks).objectLines node =
        describedLines objects node := by
    intro node hnode
    obtain ⟨k, -, hsteps⟩ := mem_preorder.mp hnode
    obtain ⟨f, hf, hinum⟩ :=
      hsteps.keeps hdrawn.inDescription_next hdrawn.inDescription_root
    obtain ⟨name, inum⟩ := node
    subst hinum
    exact hgen.objectLines_eq hdrawn hf name
  have hused : ((List.range nblocks).filter fun i =>
      decide (Marked (disk 1) i)) =
        (List.range nblocks).filter fun i =>
          decide (i ∈ usedNumbers objects) :=
    List.filter_congr fun i _ => decide_eq_decide.mpr (hgen.marked i)
  have hsuper := hgen.superblock
  rw [ImageFile.listing, describedListing, hnodes,
    List.flatMap_congr hlines]
  change .magic disk.superblock.magic false ::
    .blocks disk.superblock.diskSize none ::
    ((List.range nblocks).filter fun i =>
      decide (Marked (disk 1) i)).map ReadLine.used ++ _ ++ _ = _
  rw [hused, hsuper]
  rfl

end

/-- What `gen-disk.py` and `read-img.py` make of a description of a graph, in
which several entries may lead to one object: the generator ends without a
complaint, the reader complains of its image only where the entries go deeper
than its calls may nest, and what the reader prints is the listing of the
description. -/
theorem genDisk_listed (randint : Randint) {files dirs : List GenObject}
    {nblocks : Nat} (hdrawn : Drawn (files ++ dirs) nblocks) (limit : Nat) :
    ∃ image, genDisk randint files dirs nblocks = some (image, []) ∧
      (Quiet (readImg limit (.whole (imageDisk image) image.length)) ↔
        ∀ k node, Steps (describedNext (files ++ dirs)) k ([], 2) node →
          k < limit) ∧
      (Quiet (readImg limit (.whole (imageDisk image) image.length)) →
        (readImg limit (.whole (imageDisk image) image.length)).printed =
          describedListing limit (files ++ dirs) nblocks) := by
  obtain ⟨image, hrun, hlength, hgen⟩ := hdrawn.genDisk_generated randint
  refine ⟨image, hrun, ?_⟩
  rw [hlength]
  refine ⟨quiet_readImg.trans (hgen.wellMarked_iff hdrawn), fun hquiet => ?_⟩
  rw [(quiet_readImg.mp hquiet).printed_readImg]
  exact hgen.listing_eq hdrawn limit

namespace Sample

/-! A root directory of two blocks, and a file that is `a` and, in the second
block, `b` there and `a` in `d`. -/

def linkedTop : GenObject :=
  ⟨.dir ([(true, nameA, 4), (true, nameD, 7)] ++
    (List.replicate 126 (false, [110], 0) ++ [(true, nameB, 4)])), 2, [47], 0,
    0, 0o040777, 7, 7, 8192, [3, 9]⟩

def linkedD : GenObject :=
  ⟨.dir [(true, nameA, 4)], 7, [47, 100], 0, 0, 0o040777, 7, 7, 4096, [8]⟩

example : (preorder (describedNext [genA, linkedTop, linkedD]) 3
    ([], 2)).map Prod.snd = [2, 4, 7, 4, 4] := by decide

theorem mem_linkedTop {entry : Bool × Name × Nat}
    (hmem : entry ∈ linkedTop.entries) :
    entry = (false, [110], 0) ∨ entry = (true, nameA, 4) ∨
      entry = (true, nameD, 7) ∨ entry = (true, nameB, 4) := by
  rcases List.mem_append.mp hmem with hfirst | hrest
  · simp only [List.mem_cons, List.not_mem_nil, or_false] at hfirst
    tauto
  · rcases List.mem_append.mp hrest with hunused | hlast
    · exact Or.inl (List.eq_of_mem_replicate hunused)
    · rw [List.mem_singleton] at hlast
      tauto

theorem linkedDrawn : Drawn [genA, linkedTop, linkedD] 16 := by
  have htop : ObjectDrawn linkedTop := by
    refine ⟨by decide, by decide, fun hkind => (by cases hkind),
      fun _ => by decide, by simp [linkedTop, GenObject.entries, blockCount],
      fun entry hmem => ?_, fun entry hmem => ?_⟩
    · rcases mem_linkedTop hmem with rfl | rfl | rfl | rfl <;> decide
    · rcases mem_linkedTop hmem with rfl | rfl | rfl | rfl <;> decide
  have hd : ObjectDrawn linkedD :=
    ⟨by decide, by decide, fun hkind => (by cases hkind),
      fun _ => by decide, by decide, by decide, by decide⟩
  refine ⟨by decide, by decide, by decide, ?_, ⟨linkedTop, by simp, rfl⟩, ?_⟩
  · simp only [List.forall_mem_cons, List.not_mem_nil, false_implies,
      implies_true, and_true]
    exact ⟨(objectDescribed_a []).drawn, htop, hd⟩
  · simp only [List.forall_mem_cons, List.not_mem_nil, false_implies,
      implies_true, and_true]
    refine ⟨by decide, fun num hnum => ?_, by decide⟩
    obtain ⟨entry, hentry, rfl⟩ := List.mem_map.mp hnum
    obtain ⟨hmem, hvalid⟩ := List.mem_filter.mp hentry
    rcases mem_linkedTop hmem with rfl | rfl | rfl | rfl
    · cases hvalid
    · exact ⟨genA, by simp, rfl⟩
    · exact ⟨linkedD, by simp, rfl⟩
    · exact ⟨genA, by simp, rfl⟩

end Sample

theorem genDisk_listed_sample :
    ∃ image, genDisk (fun _ _ _ => 0) [Sample.genA]
        [Sample.linkedTop, Sample.linkedD] 16 = some (image, []) ∧
      (Quiet (readImg 1000 (.whole (imageDisk image) image.length)) ↔
        ∀ k node, Steps (describedNext
          ([Sample.genA] ++ [Sample.linkedTop, Sample.linkedD])) k ([], 2)
            node → k < 1000) ∧
      (Quiet (readImg 1000 (.whole (imageDisk image) image.length)) →
        (readImg 1000 (.whole (imageDisk image) image.length)).printed =
          describedListing 1000
            ([Sample.genA] ++ [Sample.linkedTop, Sample.linkedD]) 16) :=
  genDisk_listed (fun _ _ _ => 0) Sample.linkedDrawn 1000

end Fs5600
