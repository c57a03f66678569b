/-
Removal of files and of empty directories: what goes away, what is given
back, and that the path can be used again.
-/
import Fs5600.Creation
import Fs5600.Removal

namespace Fs5600

open MachineWord EffectProgram Program

/-- What the removal of the object at `path`, which held `blocks`, leaves. -/
structure Deleted (path : CString) (blocks : List Nat)
    (world world' : World) : Prop where
  gone : run (pathToInode path 0) world' = some (.error (-eNoEnt), world')
  parent : ∀ parent : CString,
    components parent = (components path).dropLast → ∃ old new name stat,
      run (fsReaddir parent) world = some (.ok (0, old), world) ∧
      run (fsReaddir parent) world' = some (.ok (0, new), world') ∧
      (components path).getLast? = some name ∧
      run (fsGetattr path) world = some (.ok stat, world) ∧
      old.Perm ((name, stat) :: new)
  nodup : blocks.Nodup
  held : ∀ b ∈ blocks, Marked (world.disk 1) b
  freed : ∀ b, Marked (world'.disk 1) b ↔
    Marked (world.disk 1) b ∧ b ∉ blocks
  bitmap : world'.globals.bitmap = world'.disk 1
  statVfs : world'.globals.statVfs = { world.globals.statVfs with
    bfree := world.globals.statVfs.bfree + .ofNat blocks.length
    bavail := world.globals.statVfs.bavail + .ofNat blocks.length }

section

variable {world : World} (hmount : Mounted world) {names : List Name}
  {site : List Slot} {inum : Nat} {slot : Slot} {blocks : List Nat}
  (hvalid : Change.Valid world names (.remove site inum slot blocks))

include hmount hvalid

/-- Where the removed entry and its directory are found afterwards. -/
theorem Change.remove_resolve :
    let disk' := (Change.apply (.remove site inum slot blocks) world).disk
    disk'.resolve names = .ok (site, inum) ∧
      (disk'.inode inum).isDir = true ∧
      (disk'.entries inum slot).valid = false ∧
      firstNamed (disk'.entries inum)
        (world.disk.entries inum slot).nameString = none := by
  intro disk'
  obtain ⟨hrw, hentries⟩ := Change.entryRewrite hmount hvalid
    (Change.apply_shows hmount hvalid) rfl
  have hentry := hvalid.entry
  have hself : (disk'.entries inum slot).valid = false := by
    rw [hentries, Function.update_self]
  refine ⟨Disk.resolve_of_node
    (Change.mounted hmount hvalid).consistent.object hrw.node_path,
    hrw.isDir_eq, hself, ?_⟩
  have hnames := (hmount.consistent.object _ _ _ hentry.node).names
    hentry.isDir
  refine firstNamed_gone hnames hentry.valid hrw.others fun hused => ?_
  rw [hself] at hused
  cases hused

/-- The directory listed the entry besides those it lists now. -/
theorem Change.remove_listing :
    let disk' := (Change.apply (.remove site inum slot blocks) world).disk
    (world.disk.listing (world.disk.entries inum)).Perm
      (((world.disk.entries inum slot).nameString,
        inodeToStat (world.disk.inode (world.disk.child inum slot))) ::
          disk'.listing (disk'.entries inum)) := by
  intro disk'
  obtain ⟨hrw, -⟩ := Change.entryRewrite hmount hvalid
    (Change.apply_shows hmount hvalid) rfl
  obtain ⟨-, -, hfree, -⟩ := Change.remove_resolve hmount hvalid
  have hentry := hvalid.entry
  refine Disk.listing_perm hfree hentry.valid
    (fun slot' hslot => (hrw.others slot' hslot).symm) ?_
  intro slot' hused
  have hslot : slot' ≠ slot := by
    rintro rfl
    rw [hfree] at hused
    cases hused
  rw [hrw.others slot' hslot] at hused ⊢
  exact (hrw.inode_eq (Disk.node_child hentry.node
    (Disk.edge_eq_some.mpr ⟨hentry.isDir, hused, rfl⟩))).symm

theorem Change.remove_freeCount :
    let world' := Change.apply (.remove site inum slot blocks) world
    freeCount (world'.disk 1) world'.disk.diskSize =
      freeCount (world.disk 1) world.disk.diskSize + blocks.length := by
  intro world'
  have hsize : world'.disk.diskSize = world.disk.diskSize :=
    (Change.apply_shows hmount hvalid).diskSize hmount hvalid
  rw [hsize, show world'.disk 1 = _ from Change.apply_bitmap hmount hvalid]
  exact Change.freeCount_map hmount hvalid

variable {path : CString} (hne : components path ≠ [])
  (hlen : (components path).length ≤ 10)
  (hnames : names ++ [(world.disk.entries inum slot).nameString] =
    parse path)

include hne hlen hnames

theorem Change.remove_deleted :
    Deleted path blocks world
      (Change.apply (.remove site inum slot blocks) world) := by
  have hmount' := Change.mounted hmount hvalid
  have hentry := hvalid.entry
  obtain ⟨hparent, hdir, -, hgone⟩ := Change.remove_resolve hmount hvalid
  have hnode := Disk.node_child hentry.node
    (Disk.edge_eq_some.mpr ⟨hentry.isDir, hentry.valid, rfl⟩)
  have hobject := hmount.consistent.object
  have hheld : ∀ b ∈ blocks, Marked (world.disk 1) b := by
    intro b hb
    obtain ⟨key, -, hheld⟩ := Change.released_dropped hvalid hb
    exact (hmount.consistent.range key b hheld).2.2
  refine ⟨?_, ?_, hvalid.nodup, hheld, fun b => ?_, hmount'.bitmap, ?_⟩
  · have hresolve := Disk.resolve_gone hparent hdir hgone
    rw [hnames] at hresolve
    exact hmount'.run_target_error hresolve
  · intro parent hcomponents
    have hparse : parse parent = names := by
      rw [parse_parent hlen hcomponents, ← hnames, List.dropLast_concat]
    have hbefore : world.disk.resolve (parse parent) = .ok (site, inum) := by
      rw [hparse]
      exact Disk.resolve_of_node hobject hentry.node
    have hthere := Disk.resolve_of_node hobject hnode
    rw [hnames] at hthere
    rw [← hparse] at hparent
    refine ⟨_, _, _, _, hmount.run_fsReaddir hbefore hentry.isDir,
      hmount'.run_fsReaddir hparent hdir, getLast_components hne hlen, ?_,
      leaf_eq hnames ▸ Change.remove_listing hmount hvalid⟩
    rw [fsGetattr, run_bind_ok (hmount.run_target hthere)]
    rfl
  · rw [Change.apply_bitmap hmount hvalid, Change.marked_map hmount hvalid,
      and_comm]
    exact and_congr_left fun _ => or_iff_right List.not_mem_nil
  · rw [Change.apply_globals hmount]
    simp only [Change.settle, Change.delta, Globals.addFree,
      addFree_natCast]
    rfl

/-- The path can be used again: its slot is free, and so are the blocks. -/
theorem Change.remove_creationError (dirflag : Bool)
    (hblocks : (if dirflag then 2 else 1) ≤ blocks.length) :
    (Change.apply (.remove site inum slot blocks) world).creationError path
      dirflag = none := by
  obtain ⟨hparent, hdir, hfree, hgone⟩ :=
    Change.remove_resolve hmount hvalid
  have hcount := Change.remove_freeCount hmount hvalid
  have hsame : (components path).dropLast = names := by
    rw [← parse_eq_components hlen, ← hnames, List.dropLast_concat]
  rw [World.creationError, hsame, hparent, getLast_components hne hlen,
    leaf_eq hnames]
  dsimp only
  rw [if_neg (not_not.mpr hdir), if_neg, if_neg]
  · rintro (hfull | hfew)
    · rw [hfull slot] at hfree
      cases hfree
    · omega
  · rw [exists_named_iff, hgone]
    exact Bool.false_ne_true

end

theorem World.planUnlink_ok {world : World} {path : CString}
    (hne : parse path ≠ []) {target : List Slot} {i : Nat}
    (hresolve : world.disk.resolve (parse path) = .ok (target, i)) :
    ∃ site inum slot, world.planUnlink path =
      .ok (.remove site inum slot
        ((List.range (blockCount (world.disk.inode i).length)).map
          (world.disk.inode i).ptr ++ [i])) := by
  obtain ⟨site, inum, slot, -, -, hthere, hplan⟩ :=
    planRemove_eq hne hresolve
  exact ⟨site, inum, slot, by rw [planUnlink, hresolve]; exact hplan _⟩

theorem World.planRmdir_ok {world : World} {path : CString}
    (hne : parse path ≠ []) {target : List Slot} {i : Nat}
    (hresolve : world.disk.resolve (parse path) = .ok (target, i))
    (hdir : (world.disk.inode i).isDir = true)
    (hempty : ∀ slot, (world.disk.entries i slot).valid = false) :
    ∃ site inum slot, world.planRmdir path =
      .ok (.remove site inum slot [i, (world.disk.inode i).ptr 0]) := by
  obtain ⟨site, inum, slot, -, -, hthere, hplan⟩ :=
    planRemove_eq hne hresolve
  refine ⟨site, inum, slot, ?_⟩
  rw [planRmdir_eq hresolve hdir, firstInvalid_zero (hempty 0)]
  exact hplan _

/-- `fs_unlink` of a file and `fs_rmdir` of an empty directory give back what
the object held, and the path can be created again. -/
theorem remove_gives_back {world : World} (hreach : Reachable world)
    {path : CString} (hne : components path ≠ [])
    (hlen : (components path).length ≤ 10) {inum : Int} {inode : FsInode}
    (hfound : run (pathToInode path 0) world =
      some (.ok (inum, inode), world)) :
    (sIsReg inode.mode = true → ∃ world',
      run (fsUnlink path) world = some (.ok 0, world') ∧
      Deleted path ((List.range (blockCount inode.length)).map inode.ptr ++
        [inum.toNat]) world world' ∧
      ∀ ctx mode, mode &&& sIfmt = sIfreg → ∃ world'',
        run (fsCreate ctx path mode) world' = some (.ok 0, world'') ∧
        Created ctx path mode false world' world'') ∧
    (sIsDir inode.mode = true →
      (∀ slot, (Directory.decode
        (world.disk (inode.ptr 0)) slot).valid = false) → ∃ world',
      run (fsRmdir path) world = some (.ok 0, world') ∧
      Deleted path [inum.toNat, inode.ptr 0] world world' ∧
      ∀ ctx mode, mode &&& sIfmt = 0 → ∃ world'',
        run (fsMkdir ctx path mode) world' = some (.ok 0, world'') ∧
        Created ctx path mode true world' world'') := by
  have hsteady := hreach.steady
  have hmount := hsteady.toMounted
  have hparse := parse_ne_nil hne
  obtain ⟨target, i, hresolve, rfl, rfl, -⟩ := hmount.resolve_of_run hfound
  refine ⟨fun hreg => ?_, fun hdir hempty => ?_⟩
  · have hrun := hsteady.run_follows (hmount.follows_unlink hparse)
    obtain ⟨site, inum, slot, hplan⟩ := World.planUnlink_ok hparse hresolve
    obtain ⟨names, hvalid, hnames⟩ :=
      World.planUnlink_planned hmount hparse hplan
    rw [hplan] at hrun
    refine ⟨_, hrun, Change.remove_deleted hmount hvalid hne hlen hnames,
      fun ctx mode hmode => ?_⟩
    have hnone := Change.remove_creationError hmount hvalid hne hlen hnames
      false (by simp)
    exact ((hsteady.apply hvalid).run_create ctx hne hlen mode false
      hmode).made hnone
  · have hrun := hsteady.run_follows (hmount.follows_rmdir hparse)
    obtain ⟨site, inum, slot, hplan⟩ :=
      World.planRmdir_ok hparse hresolve hdir hempty
    obtain ⟨names, hvalid, hnames⟩ :=
      World.planRmdir_planned hmount hparse hplan
    rw [hplan] at hrun
    refine ⟨_, hrun, Change.remove_deleted hmount hvalid hne hlen hnames,
      fun ctx mode hmode => ?_⟩
    have hnone := Change.remove_creationError hmount hvalid hne hlen hnames
      true (by simp)
    exact ((hsteady.apply hvalid).run_create ctx hne hlen mode true
      hmode).made hnone

theorem remove_gives_back_sample : ∃ world',
    run (fsUnlink Sample.pathA) (Sample.world 400 zeroBlock).boot =
        some (.ok 0, world') ∧
      Deleted Sample.pathA
        ((List.range (blockCount (Sample.fileInode 5000 5 6).length)).map
          (Sample.fileInode 5000 5 6).ptr ++ [(4 : Int).toNat])
        (Sample.world 400 zeroBlock).boot world' ∧
      ∀ ctx mode, mode &&& sIfmt = sIfreg → ∃ world'',
        run (fsCreate ctx Sample.pathA mode) world' =
          some (.ok 0, world'') ∧
        Created ctx Sample.pathA mode false world' world'' :=
  (remove_gives_back
    (Sample.reachable 400 zeroBlock (by decide) (by decide)) (by decide)
    (by decide)
    (Sample.run_pathA 400 zeroBlock (by decide) (by decide))).1
      (Sample.fileInode_isReg 5000 5 6)

end Fs5600
