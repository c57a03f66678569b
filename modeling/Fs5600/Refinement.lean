/-
The code refines the file system that it is for: in every world that shows a
tree, each orderly request is served with a reply that the tree allows, and
leaves a world that shows what the tree then is.
-/
import Fs5600.Lib.Simulation
import Fs5600.FileSystem
import Fs5600.TreeChange
import Fs5600.Accounting

namespace Fs5600

open MachineWord EffectProgram Program NameTree

/-- What `statVfs` holds from `fs_init` on, besides the counters. -/
structure Announced (world : World) : Prop where
  bsize : world.globals.statVfs.bsize = 4096
  blocks : world.globals.statVfs.blocks.toNat = world.disk.diskSize - 2
  namemax : world.globals.statVfs.namemax = 27

theorem Announced.boot {world : World}
    (hcons : Consistent world.disk world.device.size) :
    Announced world.boot := by
  have hroot := (hcons.inode_range Disk.node_nil).2.1
  refine ⟨rfl, ?_, rfl⟩
  change (world.disk.superblock.diskSize - 2).toUInt64.toNat =
    world.disk.superblock.diskSize.toNat - 2
  rw [Disk.diskSize] at hroot
  have htwo : (2 : UInt32) ≤ world.disk.superblock.diskSize := by
    rw [UInt32.le_iff_toNat_le]
    exact hroot.le
  rw [UInt32.toNat_toUInt64, UInt32.toNat_sub_of_le _ _ htwo]
  rfl

/-- The world shows this file system. -/
structure Shown (world : World) (fs : FileSystem) : Prop where
  steady : Steady world
  tree : fs.tree = world.disk.tree
  free : fs.free = freeCount (world.disk 1) world.disk.diskSize
  capacity : fs.capacity = world.disk.diskSize
  announced : Announced world
  counted : fs.counted = true → Counted world

/-- What a world shows right after `fs_init`. -/
def World.shown (world : World) : FileSystem where
  tree := world.disk.tree
  free := freeCount (world.disk 1) world.disk.diskSize
  capacity := world.disk.diskSize
  counted := true

theorem Shown.boot {world : World}
    (hcons : Consistent world.disk world.device.size)
    (hhealthy : world.device.Healthy) : Shown world.boot world.shown where
  steady := Steady.boot hcons hhealthy
  tree := rfl
  free := rfl
  capacity := rfl
  announced := Announced.boot hcons
  counted := fun _ => Counted.boot hcons

section

variable {world : World} {names : List Name} {change : Change}

theorem Announced.apply (hmount : Mounted world)
    (hvalid : change.Valid world names) (hannounced : Announced world) :
    Announced (change.apply world) := by
  have hsize := (Change.apply_shows hmount hvalid).diskSize hmount hvalid
  have hglobals : (change.apply world).globals = _ :=
    Change.apply_globals hmount
  obtain ⟨hbsize, hblocks, hnamemax⟩ := hannounced
  refine ⟨?_, ?_, ?_⟩ <;> rw [hglobals, Change.settle]
  · cases change.delta world.disk <;> exact hbsize
  · rw [hsize]
    cases change.delta world.disk <;> exact hblocks
  · cases change.delta world.disk <;> exact hnamemax

/-- The world after a change shows the tree after the change. -/
theorem Shown.apply {fs fs' : FileSystem} (hshown : Shown world fs)
    (hvalid : change.Valid world names)
    (htree : fs'.tree = (change.apply world).disk.tree)
    (hfree : fs'.free + change.taken.length =
      fs.free + (change.released world.disk).length)
    (hcapacity : fs'.capacity = fs.capacity)
    (hcounted : fs'.counted = true →
      fs.counted = true ∧ change.CoversEnd world.disk) :
    Shown (change.apply world) fs' := by
  have hmount := hshown.steady.toMounted
  have hsize := (Change.apply_shows hmount hvalid).diskSize hmount hvalid
  have hcount := Change.freeCount_map hmount hvalid
  refine ⟨hshown.steady.apply hvalid, htree, ?_, ?_,
    hshown.announced.apply hmount hvalid, fun hexact => ?_⟩
  · rw [Change.apply_bitmap hmount hvalid, hsize]
    have hold := hshown.free
    omega
  · rw [hcapacity, hshown.capacity, hsize]
  · obtain ⟨hbefore, hcovers⟩ := hcounted hexact
    exact (Change.counted_iff hmount hvalid
      (hshown.counted hbefore)).mpr hcovers

end

section

variable {world : World} {fs : FileSystem} (hshown : Shown world fs)
  {names : List Name} {site : List Slot} {i : Nat}

include hshown

theorem Shown.wellFormed : WellFormed fs.tree := by
  rw [hshown.tree]
  exact hshown.steady.consistent.tree_wellFormed

theorem Shown.lookup_error {status : Int}
    (hresolve : world.disk.resolve names = .error status) :
    fs.tree.lookup names = .error status := by
  rw [hshown.tree, hshown.steady.consistent.lookup_tree, hresolve]
  rfl

theorem Shown.lookup_dir
    (hresolve : world.disk.resolve names = .ok (site, i))
    (hdir : (world.disk.inode i).isDir = true) :
    fs.tree.lookup names = .ok (.branch (world.disk.inode i).attributes) := by
  rw [hshown.tree, hshown.steady.consistent.lookup_tree, hresolve,
    ← Disk.object_of_isDir hdir]
  rfl

theorem Shown.lookup_file
    (hresolve : world.disk.resolve names = .ok (site, i))
    (hdir : ¬ (world.disk.inode i).isDir = true) :
    fs.tree.lookup names =
      .ok (.leaf (world.disk.inode i).attributes
        (fileContent world.disk (world.disk.inode i))) := by
  rw [hshown.tree, hshown.steady.consistent.lookup_tree, hresolve,
    ← Disk.object_of_not_isDir hdir]
  rfl

omit hshown in
theorem Consistent.isReg_of_resolve {disk : Disk} {size : Nat}
    (hcons : Consistent disk size)
    (hresolve : disk.resolve names = .ok (site, i))
    (hdir : ¬ (disk.inode i).isDir = true) :
    (disk.inode i).isReg = true :=
  (hcons.object _ _ _ (Disk.node_of_resolve hresolve)).isReg_of_not_isDir hdir

end

theorem FsInode.not_isReg {inode : FsInode} (hdir : inode.isDir = true) :
    ¬ inode.isReg = true := by
  rw [FsInode.isReg, sIsReg_of_sIsDir hdir]
  exact Bool.false_ne_true

/-- A plan and an outcome say the same. -/
def Agrees (world : World) :
    Except Int Change → Except Int (Int × FileSystem) → Prop
  | .error status, .error status' => status = status'
  | .ok change, .ok (result, fs') =>
      result = change.result ∧ Shown (change.apply world) fs'
  | _, _ => False

section

variable {world : World} {fs : FileSystem} (hshown : Shown world fs)

include hshown

/-- A mutating call whose plan agrees with an outcome is answered with it. -/
theorem Shown.settles {request : Request}
    (hcontract : request.call.Contract) (hmut : request.call.Mutates)
    {outcome : Except Int (Int × FileSystem)}
    (hagrees : Agrees world (request.plan world) outcome) :
    ∃ reply world' fs', run request.perform world = some (reply, world') ∧
      (reply, fs') = fs.answer outcome ∧ Shown world' fs' := by
  rw [hshown.steady.run_perform hmut hcontract]
  cases hplan : request.plan world with
  | error status =>
      cases outcome with
      | error status' =>
          rw [hplan] at hagrees
          obtain rfl : status = status' := hagrees
          exact ⟨_, _, _, rfl, rfl, hshown⟩
      | ok after =>
          rw [hplan] at hagrees
          exact hagrees.elim
  | ok change =>
      cases outcome with
      | error status' =>
          rw [hplan] at hagrees
          exact hagrees.elim
      | ok after =>
          obtain ⟨result, fs'⟩ := after
          rw [hplan] at hagrees
          obtain ⟨rfl, hafter⟩ := hagrees
          exact ⟨_, _, _, rfl, rfl, hafter⟩

/-! Creation. -/

theorem Shown.free_lt_iff (n : Nat) :
    fs.free < n ↔ lowestFree world.globals.bitmap world.disk.diskSize n =
      none := by
  rw [lowestFree_eq_none, hshown.free, hshown.steady.bitmap]

theorem Shown.insert {names : List Name} {site : List Slot} {inum : Nat}
    {slot : Slot} {name : Name} {inode : FsInode} {dirflag : Bool}
    {blocks : List Nat}
    (hok : InsertOk world names site inum slot name inode dirflag blocks) :
    Shown (Change.apply (.insert site inum slot name inode dirflag blocks)
      world)
      { fs with
        tree := put fs.tree (names ++ [name])
          (if dirflag then .branch inode.attributes
          else .leaf inode.attributes [])
        free := fs.free - if dirflag then 2 else 1 } := by
  have hmount := hshown.steady.toMounted
  have hvalid : Change.Valid world names
    (.insert site inum slot name inode dirflag blocks) := hok
  have hlength := (lowestFree_eq_some hok.blocks).1
  have henough : ¬ fs.free < if dirflag then 2 else 1 := by
    rw [hshown.free_lt_iff, hok.blocks]
    exact Option.some_ne_none _
  refine hshown.apply hvalid ?_ ?_ rfl fun hexact => ⟨hexact, trivial⟩
  · rw [hok.tree_eq hmount, hok.apply_object hmount, hshown.tree]
  · change (fs.free - if dirflag then 2 else 1) + blocks.length = fs.free + 0
    omega

theorem Shown.agrees_create (ctx : Context) {path : CString}
    (hne : components path ≠ []) (mode : UInt32) (dirflag : Bool)
    (hmode : mode &&& sIfmt = if dirflag then 0 else sIfreg)
    {object : Object} (hobject : object = if dirflag then
        .branch (FileSystem.newAttributes ctx (mode ||| sIfdir))
      else .leaf (FileSystem.newAttributes ctx mode) []) :
    Agrees world (world.planCreate ctx path mode dirflag)
      (fs.make (parse path) object) := by
  have hmount := hshown.steady.toMounted
  have hcons := hmount.consistent
  have hcost : objectCost object = if dirflag then 2 else 1 := by
    rw [hobject]
    cases dirflag <;> rfl
  have hsnoc := parse_eq_snoc (parse_ne_nil hne)
  cases hresolve : world.disk.resolve (parse path).dropLast with
  | error status =>
      rw [World.planCreate, FileSystem.make, hresolve,
        hshown.lookup_error hresolve]
      rfl
  | ok there =>
      obtain ⟨site, inum⟩ := there
      by_cases hdir : (world.disk.inode inum).isDir = true
      swap
      · rw [World.planCreate, FileSystem.make, hresolve,
          hshown.lookup_file hresolve hdir]
        dsimp only
        rw [if_pos hdir]
        rfl
      have hnode := Disk.node_of_resolve hresolve
      have hchild := hcons.tree_child hnode hdir (leaf path)
      rw [← hsnoc, ← hshown.tree] at hchild
      have hfull := hcons.children_full hnode hdir
      rw [← hshown.tree] at hfull
      have hfree := hshown.free_lt_iff (objectCost object)
      rw [hcost] at hfree
      have hmake := congrArg (Agrees world · (fs.make (parse path) object))
        (World.planCreate.eq_def world ctx path mode dirflag)
      rw [hresolve] at hmake
      simp only [hdir, not_true_eq_false, if_false] at hmake
      rw [hmake, FileSystem.make, hshown.lookup_dir hresolve hdir]
      dsimp only
      cases hnamed : firstNamed (world.disk.entries inum) (leaf path) with
      | some slot =>
          have hthere : fs.tree (parse path) ≠ none := by
            rw [hchild, hnamed]
            exact Option.some_ne_none _
          rw [if_pos hthere]
          rfl
      | none =>
          have hfresh : ¬ fs.tree (parse path) ≠ none := by
            rw [hchild, hnamed]
            exact not_not.mpr rfl
          rw [if_neg hfresh, hcost]
          simp only [Option.isSome_none, Bool.false_eq_true, if_false]
          cases hslot : firstInvalid (world.disk.entries inum) 0 with
          | none =>
              rw [if_pos (Or.inl (hfull.mpr hslot))]
              rfl
          | some slot =>
              have hroom : ¬ 128 ≤
                  (children fs.tree (parse path).dropLast).ncard := by
                rw [hfull, hslot]
                exact Option.some_ne_none _
              cases hblocks : lowestFree world.globals.bitmap
                  world.disk.diskSize (if dirflag then 2 else 1) with
              | none =>
                  rw [if_pos (Or.inr (hfree.mpr hblocks))]
                  rfl
              | some blocks =>
                  have henough : ¬ fs.free < if dirflag then 2 else 1 := by
                    rw [hfree, hblocks]
                    exact Option.some_ne_none _
                  rw [if_neg (not_or.mpr ⟨hroom, henough⟩)]
                  obtain ⟨names, hvalid, hnames⟩ :=
                    World.planCreate_planned hmount (parse_ne_nil hne)
                      hmode (World.planCreate_eq_ok.mpr ⟨site, inum, slot,
                        blocks, hresolve, hdir, hnamed, hslot, hblocks, rfl⟩)
                  have hafter := hshown.insert hvalid
                  rw [show names ++ [leaf path] = parse path from hnames]
                    at hafter
                  refine ⟨rfl, ?_⟩
                  rw [hobject]
                  cases dirflag <;> exact hafter

/-! Removal. -/

theorem Shown.remove {names : List Name} {site : List Slot} {inum : Nat}
    {slot : Slot} {blocks : List Nat} {object : Object}
    (hvalid : Change.Valid world names (.remove site inum slot blocks))
    (hcost : blocks.length = objectCost object) :
    Shown (Change.apply (.remove site inum slot blocks) world)
      (fs.without
        (names ++ [(world.disk.entries inum slot).nameString]) object) := by
  refine hshown.apply hvalid ?_ ?_ rfl fun hexact => ⟨hexact, trivial⟩
  · rw [Change.tree_of_remove hshown.steady.toMounted hvalid, ← hshown.tree]
    rfl
  · change fs.free + objectCost object + 0 = fs.free + blocks.length
    rw [hcost]
    rfl

theorem Shown.agrees_unlink {path : CString} (hne : components path ≠ [])
    (hfile : ∀ site i, world.disk.resolve (parse path) = .ok (site, i) →
      (world.disk.inode i).isDir = false) :
    Agrees world (world.planUnlink path) (fs.unlink (parse path)) := by
  have hmount := hshown.steady.toMounted
  cases hresolve : world.disk.resolve (parse path) with
  | error status =>
      rw [World.planUnlink, FileSystem.unlink, hresolve,
        hshown.lookup_error hresolve]
      rfl
  | ok there =>
      obtain ⟨target, i⟩ := there
      have hdir : ¬ (world.disk.inode i).isDir = true := by
        rw [hfile target i hresolve]
        exact Bool.false_ne_true
      obtain ⟨site, inum, slot, hentry, hname, -, hplan⟩ :=
        World.planRemove_eq (parse_ne_nil hne) hresolve
      have hunlink : world.planUnlink path = .ok (.remove site inum slot
          ((List.range (blockCount (world.disk.inode i).length)).map
            (world.disk.inode i).ptr ++ [i])) := by
        rw [World.planUnlink, hresolve]
        exact hplan _
      obtain ⟨names, hvalid, hnames⟩ :=
        World.planUnlink_planned hmount (parse_ne_nil hne) hunlink
      rw [hunlink, FileSystem.unlink, hshown.lookup_file hresolve hdir]
      refine ⟨rfl, ?_⟩
      rw [← hnames]
      refine hshown.remove hvalid ?_
      rw [objectCost, length_fileContent, List.length_append, List.length_map,
        List.length_range, List.length_singleton, Nat.add_comm]

theorem Shown.agrees_rmdir {path : CString} (hne : components path ≠ [])
    (hempty : ∀ site i, world.disk.resolve (parse path) = .ok (site, i) →
      (world.disk.inode i).isDir = true →
      (∀ slot, (world.disk.entries i slot).valid = false) ∨
        ((world.disk.entries i 0).valid = true ∧
          ∃ slot, (world.disk.entries i slot).valid = false)) :
    Agrees world (world.planRmdir path) (fs.rmdir (parse path)) := by
  have hmount := hshown.steady.toMounted
  have hcons := hmount.consistent
  cases hresolve : world.disk.resolve (parse path) with
  | error status =>
      rw [World.planRmdir, FileSystem.rmdir, hresolve,
        hshown.lookup_error hresolve]
      rfl
  | ok there =>
      obtain ⟨target, i⟩ := there
      by_cases hdir : (world.disk.inode i).isDir = true
      swap
      · rw [World.planRmdir, FileSystem.rmdir, hresolve,
          hshown.lookup_file hresolve hdir]
        dsimp only
        rw [if_pos hdir]
        rfl
      have hchildren := hcons.children_empty
        (Disk.node_of_resolve hresolve) hdir
      rw [← hshown.tree] at hchildren
      rcases hempty target i hresolve hdir with hnone | ⟨hzero, slot, hfree⟩
      · obtain ⟨site, inum, slot, hrmdir⟩ :=
          World.planRmdir_ok (parse_ne_nil hne) hresolve hdir hnone
        obtain ⟨names, hvalid, hnames⟩ :=
          World.planRmdir_planned hmount (parse_ne_nil hne) hrmdir
        rw [hrmdir, FileSystem.rmdir, hshown.lookup_dir hresolve hdir]
        dsimp only
        rw [if_neg (not_not.mpr (hchildren.mpr hnone))]
        refine ⟨rfl, ?_⟩
        rw [← hnames]
        exact hshown.remove hvalid rfl
      · have hsome : firstInvalid (world.disk.entries i) 0 ≠ none := by
          rw [Ne, firstInvalid_eq_none]
          intro hall
          rw [hall slot] at hfree
          cases hfree
        obtain ⟨first, hfirst⟩ := Option.ne_none_iff_exists'.mp hsome
        have hne : first ≠ 0 := by
          rintro rfl
          rw [firstInvalid_eq_some hfirst] at hzero
          cases hzero
        have hused : children fs.tree (parse path) ≠ ∅ := by
          rw [Ne, hchildren]
          intro hall
          rw [hall 0] at hzero
          cases hzero
        rw [World.planRmdir, FileSystem.rmdir, hresolve,
          hshown.lookup_dir hresolve hdir]
        dsimp only
        rw [if_neg (not_not.mpr hdir), hfirst, if_pos hused]
        dsimp only
        rw [if_pos hne]
        rfl

/-! Renaming. -/

theorem Shown.agrees_rename (srcPath dstPath : CString) :
    Agrees world (world.planRename srcPath dstPath)
      (fs.rename (parse srcPath) (parse dstPath)) := by
  have hmount := hshown.steady.toMounted
  have hthere : fs.tree (parse dstPath) ≠ none ↔
      (world.disk.resolve (parse dstPath)).isOk = true := by
    rw [hshown.tree, Ne, Disk.tree_eq_none, Bool.not_eq_false]
  cases hresolve : world.disk.resolve (parse srcPath) with
  | error status =>
      rw [World.planRename, FileSystem.rename, hresolve,
        hshown.lookup_error hresolve]
      rfl
  | ok there =>
      have hlookup : ∃ object, fs.tree.lookup (parse srcPath) =
          .ok object := by
        rw [hshown.tree, hmount.consistent.lookup_tree, hresolve]
        exact ⟨_, rfl⟩
      obtain ⟨object, hlookup⟩ := hlookup
      by_cases hdst : (world.disk.resolve (parse dstPath)).isOk = true
      · rw [World.planRename, FileSystem.rename, hresolve, hlookup]
        dsimp only
        rw [if_pos hdst, if_pos (hthere.mpr hdst)]
        rfl
      by_cases hlength : (parse dstPath).length ≠ (parse srcPath).length
      · rw [World.planRename, FileSystem.rename, hresolve, hlookup]
        dsimp only
        rw [if_neg hdst, if_neg (mt hthere.mp hdst), if_pos hlength,
          if_pos hlength]
        rfl
      by_cases hparent : (parse srcPath).dropLast ≠ (parse dstPath).dropLast
      · rw [World.planRename, FileSystem.rename, hresolve, hlookup]
        dsimp only
        rw [if_neg hdst, if_neg (mt hthere.mp hdst), if_neg hlength,
          if_neg hlength, if_pos hparent, if_pos hparent]
        rfl
      have hdne : parse dstPath ≠ [] := by
        intro hnil
        rw [hnil] at hdst
        exact hdst rfl
      have hsne : parse srcPath ≠ [] := by
        intro hnil
        rw [hnil, List.length_nil, not_not, List.length_eq_zero_iff]
          at hlength
        exact hdne hlength
      obtain ⟨site, inum, slot, hdirectory, -, hfound, -⟩ :=
        Disk.resolve_parent hsne hresolve
      have hplan : world.planRename srcPath dstPath =
          .ok (.relabel site inum slot (leaf dstPath)) := by
        rw [World.planRename, hresolve]
        dsimp only
        rw [if_neg hdst, if_neg hlength, if_neg hparent, hdirectory]
        dsimp only
        rw [hfound]
      obtain ⟨names, hvalid, hnames⟩ := World.planRename_planned hplan
      rw [hplan, FileSystem.rename, hlookup]
      dsimp only
      rw [if_neg (mt hthere.mp hdst), if_neg hlength, if_neg hparent]
      refine ⟨rfl, hshown.apply hvalid ?_ rfl rfl fun hexact =>
        ⟨hexact, trivial⟩⟩
      have hsource : names ++
          [(world.disk.entries inum slot).nameString] = parse srcPath :=
        hnames
      have htarget : names ++ [leaf dstPath] = parse dstPath := by
        rw [parse_eq_snoc hdne, ← not_not.mp hparent, ← hsource,
          List.dropLast_concat]
      rw [Change.tree_of_relabel hmount hvalid, hsource, htarget,
        hshown.tree]

/-! Attributes. -/

theorem Shown.attributes {names : List Name} {site : List Slot}
    {inum : Nat} {inode : FsInode}
    (hok : AttributesOk world.disk names site inum inode) :
    Shown (Change.apply (.attributes site inum inode) world)
      { fs with
        tree := put fs.tree names
          (if (world.disk.inode inum).isDir then .branch inode.attributes
          else .leaf inode.attributes
            (fileContent world.disk (world.disk.inode inum))) } := by
  have hvalid : Change.Valid world names (.attributes site inum inode) := hok
  refine hshown.apply hvalid ?_ rfl rfl fun hexact => ⟨hexact, trivial⟩
  rw [Change.tree_of_inode hshown.steady.toMounted hvalid rfl,
    hok.apply_object hshown.steady.toMounted, hshown.tree]

theorem Shown.agrees_chmod (path : CString) (mode : UInt32) :
    Agrees world (world.planChmod path mode)
      (fs.chmod (parse path) mode) := by
  cases hresolve : world.disk.resolve (parse path) with
  | error status =>
      rw [World.planChmod, FileSystem.chmod, hresolve,
        hshown.lookup_error hresolve]
      rfl
  | ok there =>
      obtain ⟨site, inum⟩ := there
      have hplan : world.planChmod path mode =
          .ok (.attributes site inum { world.disk.inode inum with
            mode := ((world.disk.inode inum).mode &&& ~~~permissionsMask) |||
              (mode &&& permissionsMask) }) := by
        rw [World.planChmod, hresolve]
      obtain ⟨names, hok, hnames⟩ := World.planChmod_planned hplan
      have hafter := hshown.attributes hok
      rw [show names = parse path from hnames] at hafter
      rw [hplan, FileSystem.chmod]
      by_cases hdir : (world.disk.inode inum).isDir = true
      · rw [hshown.lookup_dir hresolve hdir]
        rw [if_pos hdir] at hafter
        exact ⟨rfl, hafter⟩
      · rw [hshown.lookup_file hresolve hdir]
        rw [if_neg hdir] at hafter
        exact ⟨rfl, hafter⟩

theorem Shown.agrees_utime (path : CString) (modtime : Int) :
    Agrees world (world.planUtime path modtime)
      (fs.utime (parse path) modtime) := by
  cases hresolve : world.disk.resolve (parse path) with
  | error status =>
      rw [World.planUtime, FileSystem.utime, hresolve,
        hshown.lookup_error hresolve]
      rfl
  | ok there =>
      obtain ⟨site, inum⟩ := there
      by_cases hdir : (world.disk.inode inum).isDir = true
      · have hreg := FsInode.not_isReg hdir
        rw [World.planUtime, FileSystem.utime, hresolve,
          hshown.lookup_dir hresolve hdir]
        dsimp only
        rw [if_pos hreg]
        rfl
      · have hreg := hshown.steady.consistent.isReg_of_resolve hresolve hdir
        have hplan : world.planUtime path modtime =
            .ok (.attributes site inum { world.disk.inode inum with
              mtime := wordOfInt modtime }) := by
          rw [World.planUtime, hresolve]
          dsimp only
          rw [if_neg (not_not.mpr hreg)]
        obtain ⟨names, hok, hnames⟩ := World.planUtime_planned hplan
        have hafter := hshown.attributes hok
        rw [show names = parse path from hnames, if_neg hdir] at hafter
        rw [hplan, FileSystem.utime, hshown.lookup_file hresolve hdir]
        exact ⟨rfl, hafter⟩

/-! File contents. -/

theorem Shown.agrees_truncate (path : CString) (len : Int) :
    ∃ tail, Agrees world (world.planTruncate path len)
      (fs.truncate (parse path) len tail) := by
  have hmount := hshown.steady.toMounted
  by_cases hlen : len < 0
  · refine ⟨fun _ => 0, ?_⟩
    rw [World.planTruncate, FileSystem.truncate, if_pos hlen, if_pos hlen]
    rfl
  cases hresolve : world.disk.resolve (parse path) with
  | error status =>
      refine ⟨fun _ => 0, ?_⟩
      rw [World.planTruncate, FileSystem.truncate, hresolve,
        hshown.lookup_error hresolve, if_neg hlen, if_neg hlen]
      rfl
  | ok there =>
      obtain ⟨site, inum⟩ := there
      by_cases hdir : (world.disk.inode inum).isDir = true
      · have hreg := FsInode.not_isReg hdir
        refine ⟨fun _ => 0, ?_⟩
        rw [World.planTruncate, FileSystem.truncate, hresolve,
          hshown.lookup_dir hresolve hdir, if_neg hlen, if_neg hlen]
        dsimp only
        rw [if_pos hreg]
        rfl
      have hreg := hshown.steady.consistent.isReg_of_resolve hresolve hdir
      refine ⟨fun p =>
        blockByte (fun k => world.disk ((world.disk.inode inum).ptr k))
          ((world.disk.inode inum).length + p), ?_⟩
      rw [World.planTruncate, FileSystem.truncate, hresolve,
        hshown.lookup_file hresolve hdir, if_neg hlen, if_neg hlen]
      dsimp only
      rw [if_neg (not_not.mpr hreg), length_fileContent]
      by_cases hlonger : blockCount len.toNat >
          blockCount (world.disk.inode inum).length
      · rw [if_pos hlonger, if_pos hlonger]
        rfl
      rw [if_neg hlonger, if_neg hlonger]
      have hok : ShrinkOk world.disk (parse path) site inum len.toNat :=
        ⟨Disk.node_of_resolve hresolve, hreg, not_lt.mp hlonger⟩
      have hvalid : Change.Valid world (parse path)
        (.shrink site inum len.toNat) := hok
      refine ⟨rfl, hshown.apply hvalid ?_ ?_ rfl fun hexact =>
        ⟨hexact, trivial⟩⟩
      · rw [Change.tree_of_inode hmount hvalid rfl, hok.apply_object hmount,
          hshown.tree]
      · change fs.free + _ + 0 =
          fs.free + ((world.disk.inode inum).dropped len.toNat).length
        rw [FsInode.dropped, List.length_map, List.length_range']
        rfl

theorem Shown.agrees_write (ctx : Context) (path : CString)
    {buf : List UInt8} (hbuf : 1 ≤ buf.length) {offset : Int}
    (hpos : 0 ≤ offset) (hend : offset + buf.length ≤ 4173824) :
    Agrees world (world.planWrite ctx path buf offset)
      (fs.write ctx (parse path) buf offset) := by
  have hmount := hshown.steady.toMounted
  cases hresolve : world.disk.resolve (parse path) with
  | error status =>
      rw [World.planWrite, FileSystem.write, hresolve,
        hshown.lookup_error hresolve]
      rfl
  | ok there =>
      obtain ⟨site, inum⟩ := there
      by_cases hdir : (world.disk.inode inum).isDir = true
      · have hreg := FsInode.not_isReg hdir
        rw [World.planWrite, FileSystem.write, hresolve,
          hshown.lookup_dir hresolve hdir]
        dsimp only
        rw [if_pos hreg]
        rfl
      have hreg := hshown.steady.consistent.isReg_of_resolve hresolve hdir
      by_cases hinside : offset > (world.disk.inode inum).length
      · rw [World.planWrite, FileSystem.write, hresolve,
          hshown.lookup_file hresolve hdir]
        dsimp only
        rw [if_neg (not_not.mpr hreg), length_fileContent, if_pos hinside,
          if_pos hinside]
        rfl
      have hfree := hshown.free_lt_iff (FileSystem.growth
        (fileContent world.disk (world.disk.inode inum))
        (offset.toNat + buf.length))
      rw [FileSystem.growth, length_fileContent] at hfree
      cases hfresh : lowestFree world.globals.bitmap world.disk.diskSize
          (blockCount (offset.toNat + buf.length) -
            blockCount (world.disk.inode inum).length) with
      | none =>
          rw [World.planWrite, FileSystem.write, hresolve,
            hshown.lookup_file hresolve hdir]
          dsimp only
          rw [if_neg (not_not.mpr hreg), FileSystem.growth,
            length_fileContent, if_neg hinside, if_neg hinside, hfresh,
            if_pos (hfree.mpr hfresh)]
          rfl
      | some fresh =>
          have henough := mt hfree.mp (by rw [hfresh]; simp)
          have hplan : world.planWrite ctx path buf offset =
              .ok (.write site inum offset.toNat buf
                (wordOfInt (ctx.time 0)) fresh) :=
            World.planWrite_eq_ok.mpr ⟨site, inum, fresh, hresolve, hreg,
              not_lt.mp hinside, hfresh, rfl⟩
          rw [hplan, FileSystem.write, hshown.lookup_file hresolve hdir]
          dsimp only
          rw [FileSystem.growth, length_fileContent, if_neg hinside,
            if_neg henough]
          have hok : WriteOk world (parse path) site inum offset.toNat buf
              fresh := ⟨Disk.node_of_resolve hresolve, hreg, by omega, hbuf,
            by omega, hfresh⟩
          have hvalid : Change.Valid world (parse path)
            (.write site inum offset.toNat buf (wordOfInt (ctx.time 0))
              fresh) := hok
          have hlength := (lowestFree_eq_some hfresh).1
          refine ⟨rfl, hshown.apply hvalid ?_ ?_ rfl fun hexact => ?_⟩
          · rw [Change.tree_of_inode hmount hvalid rfl,
              hok.apply_object hmount, hshown.tree]
          · change fs.free - _ + fresh.length = fs.free + 0
            omega
          · rw [Bool.and_eq_true, decide_eq_true_eq] at hexact
            exact hexact

/-! Queries. -/

theorem Shown.run_getattr (path : CString) :
    run (do pure (.attr (← fsGetattr path)) : Fs Reply) world =
      some (fs.getattr (parse path), world) := by
  have hmount := hshown.steady.toMounted
  cases hresolve : world.disk.resolve (parse path) with
  | error status =>
      have hrun : run (fsGetattr path) world = some (.error status, world) :=
        run_bind_error (hmount.run_target_error hresolve)
      rw [run_bind_error hrun, FileSystem.getattr,
        hshown.lookup_error hresolve]
      rfl
  | ok there =>
      obtain ⟨site, i⟩ := there
      have hrun : run (fsGetattr path) world =
          some (.ok (inodeToStat (world.disk.inode i)), world) :=
        run_bind_ok (hmount.run_target hresolve)
      have hobject := hmount.consistent.object _ _ _
        (Disk.node_of_resolve hresolve)
      rw [run_bind_ok hrun, FileSystem.getattr, hshown.tree,
        hmount.consistent.lookup_tree, hresolve, ← hobject.objectStat]
      rfl

theorem Shown.run_readdir (path : CString) :
    ∃ reply, run (do
        let (result, filled) ← fsReaddir path
        pure (.listing result filled) : Fs Reply) world =
          some (reply, world) ∧ fs.Lists (parse path) reply := by
  have hmount := hshown.steady.toMounted
  have hcons := hmount.consistent
  cases hresolve : world.disk.resolve (parse path) with
  | error status =>
      have hrun : run (fsReaddir path) world = some (.error status, world) :=
        run_bind_error (hmount.run_target_error hresolve)
      refine ⟨_, run_bind_error hrun, ?_⟩
      rw [FileSystem.Lists, hshown.lookup_error hresolve]
  | ok there =>
      obtain ⟨site, i⟩ := there
      by_cases hdir : (world.disk.inode i).isDir = true
      swap
      · refine ⟨_, run_bind_error (hmount.run_fsReaddir_notDir hresolve hdir),
          ?_⟩
        rw [FileSystem.Lists, hshown.lookup_file hresolve hdir]
      refine ⟨_, run_bind_ok (hmount.run_fsReaddir hresolve hdir), ?_⟩
      have hnode := Disk.node_of_resolve hresolve
      have hnames := (hcons.object _ _ _ hnode).names hdir
      rw [FileSystem.Lists, hshown.lookup_dir hresolve hdir]
      refine ⟨_, rfl, Disk.listing_nodup hnames, fun name stat => ?_⟩
      rw [Disk.mem_listing_iff hnames, hshown.tree,
        hcons.tree_child hnode hdir]
      have hstat : ∀ {slot : Slot},
          firstNamed (world.disk.entries i) name = some slot →
          objectStat (world.disk.object (world.disk.child i slot)) =
            inodeToStat (world.disk.inode
              (world.disk.entries i slot).inode.toNat) := fun hfound =>
        (hcons.object _ _ _ (Disk.node_child hnode
          (Disk.edge_of_firstNamed hdir hfound))).objectStat
      constructor
      · rintro ⟨slot, hfound, rfl⟩
        refine ⟨_, by rw [hfound]; rfl, (hstat hfound).symm⟩
      · rintro ⟨object, hobject, rfl⟩
        obtain ⟨slot, hfound, rfl⟩ := Option.map_eq_some_iff.mp hobject
        exact ⟨slot, hfound, hstat hfound⟩

/-- A read is served unless it passes the end of its file where the slot
behind the file's blocks is no spare one. -/
theorem Shown.run_read (path : CString) {len : Nat} {offset : Int}
    (hlen : 1 ≤ len) (hoffset : 0 ≤ offset)
    (hbound : offset + len < 9223372036854775808)
    (hspare : ∀ site i, world.disk.resolve (parse path) = .ok (site, i) →
      (world.disk.inode i).isReg = true →
      offset + len ≤ (world.disk.inode i).length ∨
        (world.disk.inode i).length ≤ offset ∨
          SpareSlot world (world.disk.inode i)) :
    run (do
        let (result, bytes) ← fsRead path len offset
        pure (.data result bytes) : Fs Reply) world =
      some (fs.read (parse path) len offset, world) := by
  have hmount := hshown.steady.toMounted
  obtain ⟨o, rfl⟩ := Int.eq_ofNat_of_zero_le hoffset
  cases hresolve : world.disk.resolve (parse path) with
  | error status =>
      have hrun : run (fsRead path len o) world =
          some (.error status, world) :=
        run_bind_error (hmount.run_target_error hresolve)
      rw [run_bind_error hrun, FileSystem.read, hshown.lookup_error hresolve]
  | ok there =>
      obtain ⟨site, i⟩ := there
      by_cases hdir : (world.disk.inode i).isDir = true
      · rw [run_bind_error (hmount.run_fsRead_notReg hresolve
          (FsInode.not_isReg hdir) len o), FileSystem.read,
          hshown.lookup_dir hresolve hdir]
      have hreg := hmount.consistent.isReg_of_resolve hresolve hdir
      have hsize := (hmount.consistent.object _ _ _
        (Disk.node_of_resolve hresolve)).size_eq
      rw [FileSystem.read, hshown.lookup_file hresolve hdir]
      dsimp only
      rw [Int.toNat_natCast]
      by_cases hinside : o + len ≤ (world.disk.inode i).length
      · rw [run_bind_ok (hmount.run_fsRead_inside hresolve hreg hlen hinside)]
        have hlength : (((fileContent world.disk
            (world.disk.inode i)).drop o).take len).length = len := by
          rw [List.length_take, List.length_drop, length_fileContent]
          omega
        rw [hlength]
        rfl
      have hshort : ((fileContent world.disk
          (world.disk.inode i)).drop o).take len =
            (fileContent world.disk (world.disk.inode i)).drop o := by
        refine List.take_of_length_le ?_
        rw [List.length_drop, length_fileContent]
        omega
      have hrest : ((fileContent world.disk
          (world.disk.inode i)).drop o).length =
            (world.disk.inode i).length - o := by
        rw [List.length_drop, length_fileContent]
      rw [hshort, hrest]
      by_cases hbeyond : (world.disk.inode i).length ≤ o
      · rw [run_bind_ok (hmount.run_fsRead_beyond hresolve hreg
          (by omega) len), List.drop_eq_nil_of_le
          (by rw [length_fileContent]; exact hbeyond),
          Nat.sub_eq_zero_of_le hbeyond]
        rfl
      rcases hspare site i hresolve hreg with hin | hout | hspare
      · exact absurd hin (by omega)
      · exact absurd hout (by omega)
      obtain ⟨hk, b, hseek, hb⟩ := hspare
      have hextra : ReadsSlot world (world.disk.inode i) _ (world.disk b) :=
        ⟨hk, run_blockRead_at hmount.reads hseek hb⟩
      rw [run_bind_ok (hmount.run_fsRead_short hresolve hreg (by omega)
        (by omega) (by omega) hextra)]
      rfl

theorem Shown.reports : fs.Reports world.globals.statVfs where
  bsize := hshown.announced.bsize
  blocks := by rw [hshown.capacity, hshown.announced.blocks]
  namemax := hshown.announced.namemax
  bfree := fun hexact => by rw [hshown.free, (hshown.counted hexact).bfree]
  bavail := fun hexact => by rw [hshown.free, (hshown.counted hexact).bavail]

theorem Shown.remount : Shown world.boot { fs with counted := true } where
  steady := Steady.boot hshown.steady.consistent
    ⟨hshown.steady.reads, hshown.steady.writes⟩
  tree := hshown.tree
  free := hshown.free
  capacity := hshown.capacity
  announced := Announced.boot hshown.steady.consistent
  counted := fun _ => Counted.boot hshown.steady.consistent

end

/-- What the callers of the entry points see to: arguments within the
contract, no `unlink` of a directory and no `rmdir` of a directory in use that
the test of its first slot lets through or that is full, and no read past the
end of a file that has no spare slot. -/
def Orderly (world : World) (request : Request) : Prop :=
  request.call.Contract ∧
    ∀ site i, world.disk.resolve request.call.subject = .ok (site, i) →
      match request.call with
      | .unlink _ => (world.disk.inode i).isDir = false
      | .rmdir _ => (world.disk.inode i).isDir = true →
          (∀ slot, (world.disk.entries i slot).valid = false) ∨
            ((world.disk.entries i 0).valid = true ∧
              ∃ slot, (world.disk.entries i slot).valid = false)
      | .read _ len offset => (world.disk.inode i).isReg = true →
          offset + len ≤ (world.disk.inode i).length ∨
            (world.disk.inode i).length ≤ offset ∨
              SpareSlot world (world.disk.inode i)
      | _ => True

/-- The code, one request at a time. -/
abbrev World.step (world : World) (request : Request) :
    Option (Except Int Reply × World) := run request.perform world

theorem serve_eq_answers (requests : List Request) (world : World) :
    serve requests world = Simulation.answers World.step world requests := by
  induction requests generalizing world with
  | nil => rfl
  | cons request requests ih =>
      rw [serve, Simulation.answers, World.step]
      cases run request.perform world with
      | none => rfl
      | some after =>
          dsimp only
          rw [ih]

/-- Every entry point does what the file system allows. -/
theorem perform_simulates :
    Simulation.Simulates World.step FileSystem.Allows Orderly Shown := by
  rintro world fs ⟨ctx, call⟩ hshown ⟨hcontract, horderly⟩
  cases call with
  | init =>
      exact ⟨_, _, _, Request.run_init rfl hshown.steady.consistent
        hshown.steady.reads, ⟨rfl, rfl⟩, hshown.remount⟩
  | getattr path =>
      exact ⟨_, _, _, hshown.run_getattr path, ⟨rfl, rfl⟩, hshown⟩
  | readdir path =>
      obtain ⟨reply, hrun, hlists⟩ := hshown.run_readdir path
      exact ⟨reply, world, fs, hrun, ⟨hlists, rfl⟩, hshown⟩
  | create path mode =>
      exact hshown.settles hcontract trivial (hshown.agrees_create ctx
        hcontract.1 mode false hcontract.2 rfl)
  | mkdir path mode =>
      exact hshown.settles hcontract trivial (hshown.agrees_create ctx
        hcontract.1 mode true hcontract.2 rfl)
  | unlink path =>
      exact hshown.settles hcontract trivial
        (hshown.agrees_unlink hcontract horderly)
  | rmdir path =>
      exact hshown.settles hcontract trivial
        (hshown.agrees_rmdir hcontract horderly)
  | rename srcPath dstPath =>
      exact hshown.settles hcontract trivial
        (hshown.agrees_rename srcPath dstPath)
  | chmod path mode =>
      exact hshown.settles hcontract trivial (hshown.agrees_chmod path mode)
  | utime path modtime =>
      exact hshown.settles hcontract trivial
        (hshown.agrees_utime path modtime)
  | truncate path len =>
      obtain ⟨tail, hagrees⟩ := hshown.agrees_truncate path len
      obtain ⟨reply, world', fs', hrun, hanswer, hafter⟩ :=
        hshown.settles hcontract trivial hagrees
      exact ⟨reply, world', fs', hrun, ⟨tail, hanswer⟩, hafter⟩
  | read path len offset =>
      exact ⟨_, _, _, hshown.run_read path hcontract.1 hcontract.2.1
        hcontract.2.2 horderly, ⟨rfl, rfl⟩, hshown⟩
  | write path buf offset =>
      exact hshown.settles hcontract trivial (hshown.agrees_write ctx path
        hcontract.1 hcontract.2.1 hcontract.2.2)
  | statfs =>
      exact ⟨_, _, _, rfl, ⟨⟨_, rfl, hshown.reports⟩, rfl⟩, hshown⟩

/-- From a consistent image, any series of orderly requests after `fs_init` is
served, every reply is one that the file system in the image allows, and the
image then shows what the file system has become. -/
theorem serve_refines {image : World}
    (hcons : Consistent image.disk image.device.size)
    (hhealthy : image.device.Healthy) {requests : List Request}
    (horderly : Simulation.Guarded World.step Orderly image.boot requests) :
    ∃ replies world fs,
      serve requests image.boot = some (replies, world) ∧
      Simulation.Allowed FileSystem.Allows image.shown requests replies fs ∧
      Shown world fs := by
  rw [serve_eq_answers]
  exact perform_simulates.run (Shown.boot hcons hhealthy) horderly

theorem serve_refines_sample :
    ∃ replies world fs,
      serve [Sample.request (.mkdir Sample.pathC 0o755),
          Sample.request (.write Sample.pathA [1, 2, 3] 4094),
          Sample.request .statfs] (Sample.world 400 zeroBlock).boot =
        some (replies, world) ∧
      Simulation.Allowed FileSystem.Allows (Sample.world 400 zeroBlock).shown
        [Sample.request (.mkdir Sample.pathC 0o755),
          Sample.request (.write Sample.pathA [1, 2, 3] 4094),
          Sample.request .statfs] replies fs ∧
      Shown world fs := by
  refine serve_refines (Sample.consistent 400 zeroBlock (by decide)
    (by decide)) (Sample.healthy 400 zeroBlock) ?_
  exact ⟨⟨by decide, fun _ _ _ => trivial⟩, fun _ _ _ =>
    ⟨⟨by decide, fun _ _ _ => trivial⟩, fun _ _ _ =>
      ⟨⟨trivial, fun _ _ _ => trivial⟩, fun _ _ _ => trivial⟩⟩⟩

end Fs5600
