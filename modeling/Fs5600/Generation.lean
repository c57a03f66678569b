/-
Images made by `gen-disk.py` from a description of a tree: the generator ends
without a complaint, and the image is consistent and shows the tree described.
-/
import Fs5600.ImageTool
import Fs5600.Inspection
import Fs5600.Accounting

namespace Fs5600

open MachineWord LabelledWalk

/-- The blocks of a generated image as a disk. -/
def imageDisk (image : List Block) : Disk := fun b => image.getD b zeroBlock

def GenObject.entries (f : GenObject) : List (Bool × Name × Nat) :=
  match f.kind with
  | .file => []
  | .dir entries => entries

theorem GenObject.kind_cases (f : GenObject) :
    f.kind = .file ∧ f.entries = [] ∨
      f.kind = .dir f.entries := by
  rw [entries]
  cases f.kind with
  | file => exact Or.inl ⟨rfl, rfl⟩
  | dir entries => exact Or.inr rfl

/-- The inode that `inode` packs. -/
def GenObject.record (f : GenObject) : FsInode where
  uid := .ofNat f.uid
  gid := .ofNat f.gid
  mode := .ofNat f.mode
  ctime := .ofNat f.ctime
  mtime := .ofNat f.mtime
  size := .ofInt f.size
  ptrs := fun j => .ofNat (f.blocks.getD j.val 0)

/-- The numbers behind the valid entries. -/
def GenObject.links (f : GenObject) : List Nat :=
  (f.entries.filter Prod.fst).map fun entry => entry.2.2

/-! What a description is asked for. -/

/-- The mode goes with the class, the blocks are enough for the size and the
size for the entries, and the names fit in entries. -/
structure ObjectDrawn (f : GenObject) : Prop where
  pointers : f.blocks.length ≤ 1019
  size : 0 ≤ f.size ∧ blockCount f.size.toNat ≤ f.blocks.length
  file : f.kind = .file → sIsReg (.ofNat f.mode) = true
  dir : f.kind ≠ .file → sIsDir (.ofNat f.mode) = true
  fits : f.entries.length ≤ 128 * blockCount f.size.toNat
  short : ∀ entry ∈ f.entries, entry.2.1.length ≤ 28
  nul_free : ∀ entry ∈ f.entries, entry.1 = true → 0 ∉ entry.2.1

/-- A description of a graph: no number is used twice or lies outside the
image, there is an inode 2, and the valid entries lead to objects. -/
structure Drawn (objects : List GenObject) (nblocks : Nat) : Prop where
  nodup : (usedNumbers objects).Nodup
  below : ∀ f ∈ objects, ∀ n ∈ f.numbers, n < nblocks
  nblocks_le : nblocks ≤ 400
  object : ∀ f ∈ objects, ObjectDrawn f
  root : ∃ f ∈ objects, f.inum = 2
  target : ∀ f ∈ objects, ∀ num ∈ f.links, ∃ g ∈ objects, g.inum = num

/-- The entries fit in one block, and the valid ones have names of their own
and lead to objects. -/
structure EntriesDescribed (objects : List GenObject)
    (entries : List (Bool × Name × Nat)) : Prop where
  length_le : entries.length ≤ 128
  short : ∀ entry ∈ entries, entry.2.1.length ≤ 27
  name : ∀ entry ∈ entries, entry.1 = true → ValidName entry.2.1
  distinct : entries.Pairwise fun entry entry' =>
    entry.1 = true → entry'.1 = true → entry.2.1 ≠ entry'.2.1
  target : ∀ entry ∈ entries, entry.1 = true →
    ∃ g ∈ objects, g.inum = entry.2.2

/-- The mode goes with the class, and there are as many blocks as the size
asks for. -/
structure ObjectDescribed (objects : List GenObject) (f : GenObject) :
    Prop where
  blocks : f.blocks.length = blockCount f.size.toNat
  size : 0 ≤ f.size ∧ f.size ≤ 4173824
  file : f.kind = .file → sIsReg (.ofNat f.mode) = true
  dir : ∀ entries, f.kind = .dir entries →
    sIsDir (.ofNat f.mode) = true ∧ f.size = 4096 ∧
      EntriesDescribed objects entries

/-- The objects that entries lead to from the root. -/
inductive Reached (objects : List GenObject) : Nat → Prop
  | root : Reached objects 2
  | entry {f : GenObject} {num : Nat} (hf : f ∈ objects)
      (hreached : Reached objects f.inum) (hnum : num ∈ f.links) :
      Reached objects num

/-- A description of a tree: no number is used twice or lies outside the
image, inode 2 is a directory, and every other object is behind one entry and
below the root. -/
structure Described (objects : List GenObject) (nblocks : Nat) : Prop where
  nodup : (usedNumbers objects).Nodup
  below : ∀ f ∈ objects, ∀ n ∈ f.numbers, n < nblocks
  nblocks_le : nblocks ≤ 400
  object : ∀ f ∈ objects, ObjectDescribed objects f
  root : ∃ f ∈ objects, f.inum = 2 ∧ f.kind ≠ .file
  links : (2 :: objects.flatMap GenObject.links).Nodup
  reached : ∀ f ∈ objects, Reached objects f.inum

theorem ObjectDescribed.drawn {objects : List GenObject} {f : GenObject}
    (hobject : ObjectDescribed objects f) : ObjectDrawn f := by
  have hsize := hobject.size
  have hblocks := hobject.blocks
  have hpointers : f.blocks.length ≤ 1019 := by
    rw [blockCount] at hblocks
    omega
  rcases f.kind_cases with ⟨hkind, hnone⟩ | hkind
  · exact ⟨hpointers, ⟨hsize.1, hblocks.ge⟩, hobject.file,
      fun h => absurd hkind h, by simp [hnone], by simp [hnone],
      by simp [hnone]⟩
  · obtain ⟨hdir, hblock, hentries⟩ := hobject.dir _ hkind
    refine ⟨hpointers, ⟨hsize.1, hblocks.ge⟩, hobject.file, fun _ => hdir,
      ?_, fun entry hentry => Nat.le_succ_of_le (hentries.short entry hentry),
      fun entry hentry hvalid => (hentries.name entry hentry hvalid).nul_free⟩
    rw [hblock]
    exact hentries.length_le

theorem Described.drawn {objects : List GenObject} {nblocks : Nat}
    (hdescribed : Described objects nblocks) : Drawn objects nblocks := by
  obtain ⟨root, hroot, hinum, -⟩ := hdescribed.root
  refine ⟨hdescribed.nodup, hdescribed.below, hdescribed.nblocks_le,
    fun f hf => (hdescribed.object f hf).drawn, ⟨root, hroot, hinum⟩,
    fun f hf num hnum => ?_⟩
  obtain ⟨entry, hentry, rfl⟩ := List.mem_map.mp hnum
  obtain ⟨hmem, hvalid⟩ := List.mem_filter.mp hentry
  rcases f.kind_cases with ⟨-, hnone⟩ | hkind
  · rw [hnone] at hmem
    cases hmem
  · exact ((hdescribed.object f hf).dir _ hkind).2.2.target entry hmem hvalid

theorem Drawn.two_lt {objects : List GenObject} {nblocks : Nat}
    (hdrawn : Drawn objects nblocks) : 2 < nblocks := by
  obtain ⟨root, hroot, hinum⟩ := hdrawn.root
  have hlt := hdrawn.below root hroot root.inum List.mem_cons_self
  rwa [hinum] at hlt

/-! Packed entries. -/

/-- A name that does not fill the field is followed by a zero. -/
theorem storeName_eq_some {field field' : Fin 28 → UInt8} {name : Name}
    (hstore : storeName field name = some field') (hnul : 0 ∉ name) :
    (List.ofFn field').takeWhile (· != 0) = name := by
  rw [storeName] at hstore
  split at hstore
  next hlength =>
    cases hstore
    generalize hfield : (fun j : Fin 28 =>
      if j.val ≤ name.length then name.getD j.val 0 else field j) = field'
    have hbyte : ∀ j : Fin 28, j.val ≤ name.length →
        field' j = name.getD j.val 0 := fun j hj => by
      rw [← hfield]
      exact if_pos hj
    have htake : (List.ofFn field').take name.length = name := by
      refine List.ext_getElem ?_ fun k hk hk' => ?_
      · rw [List.length_take, List.length_ofFn]
        omega
      · rw [List.getElem_take, List.getElem_ofFn, hbyte _ hk'.le,
          List.getD_eq_getElem name 0 hk']
    have hname : ∀ c ∈ name, (c != 0) = true := fun c hc => by
      rw [bne_iff_ne]
      rintro rfl
      exact hnul hc
    rw [← List.take_append_drop name.length (List.ofFn field'), htake,
      List.takeWhile_append_of_pos hname]
    refine (congrArg _ ?_).trans (List.append_nil name)
    rcases hlength.lt_or_eq with hlt | heq
    · have hzero : field' ⟨name.length, hlt⟩ = 0 :=
        (hbyte _ le_rfl).trans (List.getD_eq_default name 0 le_rfl)
      rw [List.drop_eq_getElem_cons (by rwa [List.length_ofFn]),
        List.getElem_ofFn, hzero]
      rfl
    · rw [List.drop_of_length_le (by rw [List.length_ofFn, heq])]
      rfl
  next => cases hstore

theorem packEntries_eq_some {de : FsDirent}
    {entries : List (Bool × Name × Nat)} {packed : List FsDirent}
    (hpack : packEntries de entries = some packed) :
    packed.length = entries.length ∧
      ∀ (k : Nat) (entry : Bool × Name × Nat), entries[k]? = some entry →
        ∃ d : FsDirent, packed[k]? = some d ∧
          d.valid = entry.1 ∧ d.inode = .ofNat 31 entry.2.2 ∧
          (0 ∉ entry.2.1 → d.nameString = entry.2.1) := by
  induction entries generalizing de packed with
  | nil =>
      cases hpack
      simp
  | cons entry entries ih =>
      obtain ⟨val, name, num⟩ := entry
      rw [packEntries] at hpack
      simp only [Option.bind_eq_bind, Option.bind_eq_some_iff] at hpack
      obtain ⟨field, hstore, rest, hrest, heq⟩ := hpack
      cases heq
      obtain ⟨hlength, hentries⟩ := ih hrest
      refine ⟨by rw [List.length_cons, List.length_cons, hlength],
        fun k entry hk => ?_⟩
      cases k with
      | zero =>
          cases hk
          exact ⟨_, rfl, rfl, rfl, storeName_eq_some hstore⟩
      | succ k => exact hentries k entry hk

/-- Names of 27 bytes leave the last byte of an entry alone. -/
theorem packEntries_last {de : FsDirent}
    {entries : List (Bool × Name × Nat)} {packed : List FsDirent}
    (hpack : packEntries de entries = some packed) (hlast : de.name 27 = 0)
    (hshort : ∀ entry ∈ entries, entry.2.1.length ≤ 27) :
    ∀ d ∈ packed, d.name 27 = 0 := by
  induction entries generalizing de packed with
  | nil =>
      cases hpack
      exact fun d hd => by cases hd
  | cons entry entries ih =>
      obtain ⟨val, name, num⟩ := entry
      rw [packEntries] at hpack
      simp only [Option.bind_eq_bind, Option.bind_eq_some_iff] at hpack
      obtain ⟨field, hstore, rest, hrest, heq⟩ := hpack
      cases heq
      rw [List.forall_mem_cons] at hshort
      have hzero : field 27 = 0 := by
        rw [storeName, if_pos (Nat.le_succ_of_le hshort.1)] at hstore
        cases hstore
        dsimp only
        split
        · exact List.getD_eq_default name 0 hshort.1
        · exact hlast
      exact List.forall_mem_cons.mpr ⟨hzero, ih hrest hzero hshort.2⟩

theorem packEntries_isSome (de : FsDirent)
    {entries : List (Bool × Name × Nat)}
    (hshort : ∀ entry ∈ entries, entry.2.1.length ≤ 28) :
    ∃ packed, packEntries de entries = some packed := by
  induction entries generalizing de with
  | nil => exact ⟨[], rfl⟩
  | cons entry entries ih =>
      obtain ⟨val, name, num⟩ := entry
      rw [List.forall_mem_cons] at hshort
      obtain ⟨field, hstore⟩ : ∃ field,
          storeName de.name name = some field := ⟨_, if_pos hshort.1⟩
      obtain ⟨packed, hpacked⟩ := ih ⟨val, .ofNat 31 num, field⟩ hshort.2
      exact ⟨⟨val, .ofNat 31 num, field⟩ :: packed, by
        simp only [packEntries, hstore, Option.bind_eq_bind,
          Option.bind_some, hpacked]⟩

/-! The generator ends. -/

/-- The object that a cell belongs to. -/
def GenCell.object : GenCell → GenObject
  | .inode f => f
  | .data f _ => f

/-- Every cell belongs to one of the objects. -/
def GenState.From (state : GenState) (objects : List GenObject) : Prop :=
  ∀ n cell, state.blocks n = some cell → cell.object ∈ objects

section

variable {state : GenState} {objects : List GenObject}

theorem GenState.assign_isSome {i : Nat} (cell : GenCell) (hi : i < 400)
    (hfrom : state.From objects) (hcell : cell.object ∈ objects) :
    ∃ state', state.assign i cell = some state' ∧ state'.From objects := by
  refine ⟨_, if_pos hi, fun n cell' hn => ?_⟩
  dsimp only at hn
  by_cases hni : n = i
  · subst hni
    rw [Function.update_self] at hn
    cases hn
    exact hcell
  · rw [Function.update_of_ne hni] at hn
    exact hfrom n cell' hn

theorem GenState.mark_isSome {i : Nat} (hi : i < 400)
    (hfrom : state.From objects) :
    ∃ state', state.mark i = some state' ∧ state'.From objects := by
  obtain ⟨map, hset, -⟩ := state.blockmap.set_eq (i := i) (by omega) true
  exact ⟨{ state with blockmap := map }, by rw [mark, hset]; rfl, hfrom⟩

theorem GenState.placeData_isSome {f : GenObject} (hf : f ∈ objects)
    {bs : List Nat} (hbs : ∀ b ∈ bs, b < 400) (hfrom : state.From objects)
    (i : Nat) :
    ∃ state', placeData f state bs i = some state' ∧
      state'.From objects := by
  induction bs generalizing state i with
  | nil => exact ⟨state, rfl, hfrom⟩
  | cons b bs ih =>
      rw [List.forall_mem_cons] at hbs
      have hget := state.blockmap.get_eq (i := b) (by omega)
      generalize hcounted : (if decide (Marked state.blockmap.toBlock b)
        then { state with doubleCounted := state.doubleCounted ++ [b] }
        else state : GenState) = counted
      have hblocks : counted.From objects := by
        subst hcounted
        split <;> exact hfrom
      obtain ⟨marked, hmark, hmarked⟩ := mark_isSome hbs.1 hblocks
      obtain ⟨assigned, hassign, hassigned⟩ :=
        assign_isSome (.data f i) hbs.1 hmarked hf
      obtain ⟨last, hlast, hfrom'⟩ := ih hbs.2 hassigned (i + 1)
      refine ⟨last, ?_, hfrom'⟩
      simp only [placeData, hget, Option.bind_eq_bind, Option.bind_some,
        hcounted, hmark, hassign, hlast]

theorem GenState.place_isSome {f : GenObject} (hf : f ∈ objects)
    (hnumbers : ∀ n ∈ f.numbers, n < 400) (hfrom : state.From objects) :
    ∃ state', state.place f = some state' ∧ state'.From objects := by
  rw [GenObject.numbers, List.forall_mem_cons] at hnumbers
  obtain ⟨assigned, hassign, hassigned⟩ :=
    assign_isSome (.inode f) hnumbers.1 hfrom hf
  obtain ⟨marked, hmark, hmarked⟩ := mark_isSome hnumbers.1 hassigned
  obtain ⟨last, hlast, hfrom'⟩ := placeData_isSome hf hnumbers.2 hmarked 0
  refine ⟨last, ?_, hfrom'⟩
  simp only [place, Option.bind_eq_bind, hassign, Option.bind_some, hmark,
    hlast]

theorem genBlockMap_isSome
    (hnumbers : ∀ f ∈ objects, ∀ n ∈ f.numbers, n < 400) :
    ∃ state, genBlockMap objects = some state ∧ state.From objects := by
  have hfold : ∀ (rest : List GenObject) (state : GenState),
      rest ⊆ objects → state.From objects →
      ∃ state', rest.foldlM GenState.place state = some state' ∧
        state'.From objects := by
    intro rest
    induction rest with
    | nil => exact fun state _ hfrom => ⟨state, rfl, hfrom⟩
    | cons f rest ih =>
        intro state hsubset hfrom
        rw [List.cons_subset] at hsubset
        obtain ⟨next, hplace, hnext⟩ :=
          GenState.place_isSome hsubset.1 (hnumbers f hsubset.1) hfrom
        obtain ⟨last, hlast, hfrom'⟩ := ih next hsubset.2 hnext
        refine ⟨last, ?_, hfrom'⟩
        rw [List.foldlM_cons, hplace, Option.bind_eq_bind, Option.bind_some,
          hlast]
  obtain ⟨first, hfirst, -⟩ :=
    DiskfmtBitmap.empty.set_eq (i := 0) (by decide) true
  obtain ⟨second, hsecond, -⟩ := first.set_eq (i := 1) (by decide) true
  obtain ⟨state, hstate, hfrom⟩ := hfold objects ⟨second, fun _ => none, []⟩
    (List.Subset.refl _) fun n cell hn => by cases hn
  refine ⟨state, ?_, hfrom⟩
  simp only [genBlockMap, GenState.start, Option.bind_eq_bind, hfirst,
    Option.bind_some, hsecond, hstate]

end

theorem genWrite_isSome {randint : Randint} {blocks : Nat → Option GenCell}
    (hbytes : ∀ n, ∃ block, GenCell.bytes randint (blocks n) = some block)
    (count i : Nat) (hfits : i + count ≤ 400) :
    ∃ image, genWrite randint blocks count i = some image := by
  induction count generalizing i with
  | zero => exact ⟨[], rfl⟩
  | succ count ih =>
      obtain ⟨block, hblock⟩ := hbytes i
      obtain ⟨image, himage⟩ := ih (i + 1) (by omega)
      refine ⟨block :: image, ?_⟩
      rw [genWrite, if_pos (by omega), hblock, Option.bind_eq_bind,
        Option.bind_some, himage]
      rfl

/-! What the image holds. -/

/-- The disk holds what the objects say. -/
structure Generated (randint : Randint) (objects : List GenObject)
    (nblocks : Nat) (disk : Disk) : Prop where
  superblock : disk.superblock = ⟨0x30303635, .ofNat nblocks⟩
  marked : ∀ n, Marked (disk 1) n ↔ n ∈ usedNumbers objects
  inode : ∀ f ∈ objects, disk.inode f.inum = f.record
  data : ∀ f ∈ objects, ∀ k b, f.blocks[k]? = some b →
    f.block randint k = some (disk b)

theorem superblock_genSuper (nblocks : Nat) :
    FsSuper.decode (genSuper nblocks) = ⟨0x30303635, .ofNat nblocks⟩ := by
  rw [FsSuper.decode, genSuper, Block.word_ofWords, Block.word_ofWords]
  rfl

section

variable {files dirs : List GenObject} {nblocks : Nat}

theorem ObjectDrawn.inode_isSome {f : GenObject} (hobject : ObjectDrawn f) :
    f.inode = some f.record.encode := if_pos hobject.pointers

theorem ObjectDrawn.block_isSome {f : GenObject} (hobject : ObjectDrawn f)
    (randint : Randint) (k : Nat) :
    ∃ block, f.block randint k = some block := by
  rw [GenObject.block]
  rcases f.kind_cases with ⟨hkind, -⟩ | hkind
  · rw [hkind]
    exact ⟨_, rfl⟩
  · have hshort : ∀ entry ∈ (f.entries.drop (k * 128)).take 128,
        entry.2.1.length ≤ 28 := fun entry hmem => hobject.short entry
      (List.mem_of_mem_drop (List.mem_of_mem_take hmem))
    obtain ⟨packed, hpacked⟩ := packEntries_isSome emptyDirent hshort
    rw [hkind]
    exact ⟨Directory.encode fun slot => packed.getD slot.val emptyDirent,
      by simp only [hpacked, Option.bind_eq_bind, Option.bind_some]⟩

/-- The generator ends without a complaint, with an image of that size. -/
theorem Drawn.genDisk_generated (randint : Randint)
    (hdrawn : Drawn (files ++ dirs) nblocks) :
    ∃ image, genDisk randint files dirs nblocks = some (image, []) ∧
      image.length = nblocks ∧
      Generated randint (files ++ dirs) nblocks (imageDisk image) := by
  have hnblocks := hdrawn.nblocks_le
  have htwo := hdrawn.two_lt
  obtain ⟨state, hstate, hfrom⟩ := genBlockMap_isSome
    fun f hf n hn => (hdrawn.below f hf n hn).trans_le hnblocks
  have hbytes : ∀ n, ∃ block,
      GenCell.bytes randint (state.blocks n) = some block := by
    intro n
    cases hcell : state.blocks n with
    | none => exact ⟨zeroBlock, rfl⟩
    | some cell =>
        have hobject := hdrawn.object _ (hfrom n cell hcell)
        cases cell with
        | inode f => exact ⟨_, hobject.inode_isSome⟩
        | data f k => exact hobject.block_isSome randint k
  obtain ⟨rest, hrest⟩ :=
    genWrite_isSome hbytes (nblocks - 2) 2 (by omega)
  have htracks := genBlockMap_tracks hstate
  obtain ⟨hfresh, -⟩ := (nodup_usedNumbers_iff _).mp hdrawn.nodup
  have hrun : genDisk randint files dirs nblocks =
      some (genSuper nblocks :: state.blockmap.toBlock :: rest, []) := by
    simp only [genDisk, hstate, Option.bind_eq_bind, Option.bind_some, hrest,
      htracks.reported.mpr hfresh]
  obtain ⟨-, hobjects⟩ := genDisk_exclusive hrun hdrawn.below hdrawn.nodup
  refine ⟨_, hrun, ?_, ?_, fun n => htracks.marked n, fun f hf => ?_,
    fun f hf k b hb => ?_⟩
  · rw [List.length_cons, List.length_cons, genWrite_length hrest]
    omega
  · exact superblock_genSuper nblocks
  · obtain ⟨⟨bytes, hinode, himage⟩, -⟩ := hobjects f hf
    rw [(hdrawn.object f hf).inode_isSome] at hinode
    cases hinode
    rw [Disk.inode, imageDisk, List.getD_eq_getElem?_getD, himage,
      Option.getD_some, FsInode.decode_encode]
  · obtain ⟨bytes, hblock, himage⟩ := (hobjects f hf).2 k b hb
    rw [hblock, imageDisk, List.getD_eq_getElem?_getD, himage,
      Option.getD_some]

end

/-! The records of a generated image. -/

section

variable {f : GenObject} (hobject : ObjectDrawn f)

include hobject

theorem ObjectDrawn.size_range : 0 ≤ f.size ∧ f.size ≤ 4173824 := by
  have hsize := hobject.size
  have hpointers := hobject.pointers
  rw [blockCount] at hsize
  omega

theorem ObjectDrawn.record_size : f.record.size.toInt = f.size := by
  have hsize := hobject.size_range
  exact Int32.toInt_ofInt_of_le (by omega) (by omega)

theorem ObjectDrawn.record_length : f.record.length = f.size.toNat := by
  rw [FsInode.length, hobject.record_size]

theorem ObjectDrawn.isDir_iff : f.record.isDir = true ↔ f.kind ≠ .file := by
  refine ⟨fun hdir hkind => ?_, hobject.dir⟩
  have hreg := hobject.file hkind
  rw [FsInode.isDir, show f.record.mode = .ofNat f.mode from rfl,
    sIsDir_of_sIsReg hreg] at hdir
  cases hdir

theorem ObjectDrawn.isReg_iff : f.record.isReg = true ↔ f.kind = .file := by
  refine ⟨fun hreg => ?_, hobject.file⟩
  by_contra hkind
  have hdir := hobject.dir hkind
  rw [FsInode.isReg, show f.record.mode = .ofNat f.mode from rfl,
    sIsReg_of_sIsDir hdir] at hreg
  cases hreg

theorem ObjectDrawn.record_ptr {k b : Nat} (hb : f.blocks[k]? = some b)
    (hlt : b < 400) : f.record.ptr k = b := by
  have hpointers := hobject.pointers
  obtain ⟨hk, -⟩ := List.getElem?_eq_some_iff.mp hb
  rw [FsInode.ptr, dif_pos (by omega), GenObject.record]
  simp only [List.getD_eq_getElem?_getD, hb, Option.getD_some,
    UInt32.toNat_ofNat']
  omega

end

/-- A block of a directory, entry by entry. -/
theorem Generated.directory_eq {randint : Randint}
    {objects : List GenObject} {nblocks : Nat} {disk : Disk}
    (hgen : Generated randint objects nblocks disk) {f : GenObject}
    (hf : f ∈ objects) (hkind : f.kind ≠ .file) {k b : Nat}
    (hb : f.blocks[k]? = some b) :
    ∃ packed, packEntries emptyDirent
        ((f.entries.drop (k * 128)).take 128) = some packed ∧
      Directory.decode (disk b) = fun slot =>
        packed.getD slot.val emptyDirent := by
  have hdir : f.kind = .dir f.entries := by
    rcases f.kind_cases with ⟨hfile, -⟩ | hdir
    · exact absurd hfile hkind
    · exact hdir
  have hblock := hgen.data f hf k b hb
  rw [GenObject.block, hdir] at hblock
  simp only [Option.bind_eq_bind, Option.bind_eq_some_iff] at hblock
  obtain ⟨packed, hpacked, heq⟩ := hblock
  rw [Option.some.injEq] at heq
  exact ⟨packed, hpacked, by rw [← heq, Directory.decode_encode]⟩

section

variable {randint : Randint} {objects : List GenObject} {nblocks : Nat}
  {disk : Disk} (hdrawn : Drawn objects nblocks)
  (hgen : Generated randint objects nblocks disk)

include hdrawn hgen

theorem Generated.diskSize : disk.diskSize = nblocks := by
  have hfits := hdrawn.nblocks_le
  rw [Disk.diskSize, hgen.superblock, UInt32.toNat_ofNat']
  omega

variable {f : GenObject} (hf : f ∈ objects)

include hf

theorem Generated.ptr {k b : Nat} (hb : f.blocks[k]? = some b) :
    (disk.inode f.inum).ptr k = b := by
  have hmem : b ∈ f.numbers :=
    List.mem_cons_of_mem _ (List.mem_of_getElem? hb)
  rw [hgen.inode f hf]
  exact (hdrawn.object f hf).record_ptr hb
    ((hdrawn.below f hf b hmem).trans_le hdrawn.nblocks_le)

end

end Fs5600
