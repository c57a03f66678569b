/-
`fs_chmod` and `fs_utime`: what changes in the attributes of an object, and
that nothing else does.
-/
import Fs5600.Queries

namespace Fs5600

open MachineWord EffectProgram Program

/-- What an update of the inode at `path` leaves alone: the bytes of a file
and the listing of a directory, the globals and every other block. -/
structure RestKept (world world' : World) (path : CString) (inum : Int)
    (inode : FsInode) : Prop where
  content : sIsReg inode.mode = true → ∀ o len : Nat, 1 ≤ len →
    (o + len : Int) ≤ inode.size.toInt → ∃ bytes,
      run (fsRead path len o) world = some (.ok ((len : Int), bytes), world) ∧
      run (fsRead path len o) world' =
        some (.ok ((len : Int), bytes), world')
  listing : sIsDir inode.mode = true → ∃ filled,
    run (fsReaddir path) world = some (.ok (0, filled), world) ∧
    run (fsReaddir path) world' = some (.ok (0, filled), world')
  globals : world'.globals = world.globals
  blocks : ∀ b : Nat, (b : Int) ≠ inum → world'.disk b = world.disk b
  size : world'.device.size = world.device.size

section

variable {world : World} (hmount : Mounted world) {names : List Name}
  {site : List Slot} {inum : Nat} {inode : FsInode}
  (hok : AttributesOk world.disk names site inum inode)

include hmount hok

/-- The objects of a directory are other inodes than the directory. -/
theorem AttributesOk.listing_eq
    (hdir : (world.disk.inode inum).isDir = true) :
    (Change.apply (.attributes site inum inode) world).disk.listing
        ((Change.apply (.attributes site inum inode) world).disk.entries
          inum) =
      world.disk.listing (world.disk.entries inum) := by
  have hvalid : Change.Valid world names (.attributes site inum inode) := hok
  have hshows := Change.apply_shows hmount hvalid
  rw [Change.entries_eq hmount hvalid hshows hok.node hdir]
  change Disk.listing _ (world.disk.entries inum) = _
  refine List.map_congr_left fun entry hmem => ?_
  obtain ⟨hentry, hvalid'⟩ := List.mem_filter.mp hmem
  obtain ⟨slot, rfl⟩ := List.mem_ofFn.mp hentry
  have hedge := Disk.edge_eq_some.mpr ⟨hdir, hvalid', rfl⟩
  have hchild := Disk.node_child hok.node hedge
  have hne : (world.disk.entries inum slot).inode.toNat ≠ inum := by
    refine hmount.consistent.holder_ne (Disk.holder_inode hchild)
      (Disk.holder_inode hok.node) fun hsame => ?_
    have hsite := congrArg (List.length ∘ Prod.fst) hsame
    simp at hsite
  rw [Change.inode_eq hmount hvalid hshows hchild]
  simp only [Change.inodeAt, Change.rewrittenInode, if_neg hne]

end

theorem Steady.run_attributes {world : World} (hsteady : Steady world)
    {path : CString} {site : List Slot} {inum : Nat}
    (hresolve : world.disk.resolve (parse path) = .ok (site, inum))
    {names : List Name} {inode : FsInode}
    (hok : AttributesOk world.disk names site inum inode) :
    let world' := Change.apply (.attributes site inum inode) world
    run (fsGetattr path) world' =
        some (.ok (inodeToStat inode), world') ∧
      RestKept world world' path inum (world.disk.inode inum) := by
  intro world'
  have hmount := hsteady.toMounted
  have hvalid : Change.Valid world names (.attributes site inum inode) := hok
  have hmount' : Mounted world' := Change.mounted hmount hvalid
  have hresolve' : world'.disk.resolve (parse path) = .ok (site, inum) :=
    Change.resolve_apply hmount hvalid rfl hresolve
  have hshows := Change.apply_shows hmount hvalid
  have hinode : world'.disk.inode inum = inode := hshows.inode _ _ _ rfl
  have hlength : inode.length = (world.disk.inode inum).length := by
    rw [FsInode.length, hok.size]
    rfl
  refine ⟨?_, ?_, ?_, rfl, ?_, rfl⟩
  · rw [fsGetattr, run_bind_ok (hmount'.run_target hresolve'), hinode]
    rfl
  · intro hreg o len hlen hfits
    have hobject := hmount.consistent.object _ _ _ hok.node
    have hin : o + len ≤ (world.disk.inode inum).length := by
      rw [hobject.size_eq] at hfits
      omega
    have hself : Change.inodeAt world.disk (.attributes site inum inode)
        inum = inode := by
      simp [Change.inodeAt, Change.rewrittenInode]
    have hcontent := Change.content_eq hmount hvalid hok.node hreg
      fun _ _ _ hcut => by cases hcut
    rw [hself] at hcontent
    refine ⟨_, hmount.run_fsRead_inside hresolve hreg hlen hin, ?_⟩
    rw [hmount'.run_fsRead_inside hresolve'
      (by rw [hinode, hok.isReg]; exact hreg) hlen
      (by rw [hinode, hlength]; exact hin), hinode,
      show fileContent world'.disk inode = _ from hcontent]
    rfl
  · intro hdir
    refine ⟨_, hmount.run_fsReaddir hresolve hdir, ?_⟩
    rw [hmount'.run_fsReaddir hresolve'
      (by rw [hinode, hok.isDir]; exact hdir), hok.listing_eq hmount hdir]
  · intro b hb
    exact Function.update_of_ne (fun heq => hb (by rw [heq])) _ _

theorem chmod_permissions (old mode : UInt32) :
    ((old &&& ~~~permissionsMask) ||| (mode &&& permissionsMask)) &&&
        permissionsMask = mode &&& permissionsMask := by
  apply UInt32.toBitVec_inj.mp
  apply BitVec.eq_of_getLsbD_eq
  intro i hi
  simp only [UInt32.toBitVec_and, UInt32.toBitVec_or, UInt32.toBitVec_not,
    BitVec.getLsbD_and, BitVec.getLsbD_or, BitVec.getLsbD_not]
  cases permissionsMask.toBitVec.getLsbD i <;> simp

theorem chmod_kept (old mode : UInt32) :
    ((old &&& ~~~permissionsMask) ||| (mode &&& permissionsMask)) &&&
        ~~~permissionsMask = old &&& ~~~permissionsMask := by
  apply UInt32.toBitVec_inj.mp
  apply BitVec.eq_of_getLsbD_eq
  intro i hi
  simp only [UInt32.toBitVec_and, UInt32.toBitVec_or, UInt32.toBitVec_not,
    BitVec.getLsbD_and, BitVec.getLsbD_or, BitVec.getLsbD_not, hi]
  cases permissionsMask.toBitVec.getLsbD i <;> simp

/-- `fs_chmod` changes the permission bits of a file or directory and
`fs_utime` the times of a file, and a directory is refused by `fs_utime`. -/
theorem attributes_update {world : World} (hreach : Reachable world)
    {path : CString} {inum : Int} {inode : FsInode}
    (hfound : run (pathToInode path 0) world =
      some (.ok (inum, inode), world)) :
    run (fsGetattr path) world =
        some (.ok (inodeToStat inode), world) ∧
    (∀ mode, ∃ world' mode',
      run (fsChmod path mode) world = some (.ok 0, world') ∧
      run (fsGetattr path) world' =
        some (.ok { inodeToStat inode with mode := mode' }, world') ∧
      mode' &&& permissionsMask = mode &&& permissionsMask ∧
      mode' &&& ~~~permissionsMask = inode.mode &&& ~~~permissionsMask ∧
      RestKept world world' path inum inode) ∧
    (sIsReg inode.mode = true → ∀ modtime : Int, ∃ world' mtime,
      run (fsUtime path modtime) world = some (.ok 0, world') ∧
      run (fsGetattr path) world' =
        some (.ok { inodeToStat inode with mtime := mtime, atime := mtime },
          world') ∧
      (mtime.toNat : Int) = modtime % 4294967296 ∧
      RestKept world world' path inum inode) ∧
    (sIsDir inode.mode = true → ∀ modtime : Int,
      run (fsUtime path modtime) world = some (.error (-eIsDir), world)) := by
  have hsteady := hreach.steady
  have hmount := hsteady.toMounted
  obtain ⟨site, i, hresolve, rfl, rfl, -⟩ := hmount.resolve_of_run hfound
  refine ⟨?_, fun mode => ?_, fun hreg modtime => ?_, fun hdir modtime => ?_⟩
  · rw [fsGetattr, run_bind_ok hfound]
    rfl
  · have hplan : world.planChmod path mode =
        .ok (.attributes site i { world.disk.inode i with mode :=
          ((world.disk.inode i).mode &&& ~~~permissionsMask) |||
            (mode &&& permissionsMask) }) := by
      rw [World.planChmod, hresolve]
    have hrun := hsteady.run_follows (hmount.follows_chmod path mode)
    rw [hplan] at hrun
    obtain ⟨names, hok, -⟩ := World.planChmod_planned hplan
    obtain ⟨hstat, hkept⟩ := hsteady.run_attributes hresolve hok
    exact ⟨_, _, hrun, hstat, chmod_permissions _ _, chmod_kept _ _, hkept⟩
  · have hplan : world.planUtime path modtime =
        .ok (.attributes site i
          { world.disk.inode i with mtime := wordOfInt modtime }) := by
      rw [World.planUtime, hresolve]
      exact if_neg (not_not.mpr hreg)
    have hrun := hsteady.run_follows (hmount.follows_utime path modtime)
    rw [hplan] at hrun
    obtain ⟨names, hok, -⟩ := World.planUtime_planned hplan
    obtain ⟨hstat, hkept⟩ := hsteady.run_attributes hresolve hok
    refine ⟨_, _, hrun, hstat, ?_, hkept⟩
    rw [wordOfInt_toNat]
    omega
  · have hrun := hsteady.run_follows (hmount.follows_utime path modtime)
    rw [World.planUtime, hresolve] at hrun
    have hreg : ¬ (world.disk.inode i).isReg = true := by
      rw [FsInode.isReg, sIsReg_of_sIsDir hdir]
      exact Bool.false_ne_true
    dsimp only at hrun
    rwa [if_pos hreg] at hrun

theorem attributes_update_sample :
    let world := (Sample.world 400 zeroBlock).boot
    (∃ world' mode,
      run (fsChmod Sample.pathA 0o600) world = some (.ok 0, world') ∧
      run (fsGetattr Sample.pathA) world' = some
        (.ok { inodeToStat (Sample.fileInode 5000 5 6) with mode := mode },
          world') ∧
      mode &&& permissionsMask = 0o600 ∧
      mode &&& ~~~permissionsMask = sIfreg ∧
      RestKept world world' Sample.pathA 4 (Sample.fileInode 5000 5 6)) ∧
    (∃ world', run (fsUtime Sample.pathA 7) world = some (.ok 0, world') ∧
      run (fsGetattr Sample.pathA) world' = some
        (.ok { inodeToStat (Sample.fileInode 5000 5 6) with
          mtime := 7, atime := 7 }, world')) ∧
    run (fsUtime Sample.pathD 7) world = some (.error (-eIsDir), world) := by
  intro world
  have hreach := Sample.reachable 400 zeroBlock (by decide) (by decide)
  obtain ⟨-, hchmod, hutime, -⟩ := attributes_update hreach
    (Sample.run_pathA 400 zeroBlock (by decide) (by decide))
  obtain ⟨-, -, -, hrefused⟩ := attributes_update hreach
    (Sample.run_pathD 400 zeroBlock (by decide) (by decide))
  obtain ⟨marked, mode, hmarked, hstat, hnew, hold, hrest⟩ := hchmod 0o600
  obtain ⟨touched, mtime, htouched, htimes, htime, -⟩ :=
    hutime (Sample.fileInode_isReg 5000 5 6) 7
  have hseven : mtime = 7 := by
    apply UInt32.toNat_inj.mp
    rw [show (7 : UInt32).toNat = 7 from rfl]
    omega
  subst hseven
  exact ⟨⟨marked, mode, hmarked, hstat, hnew.trans (by decide),
    hold.trans (by decide), hrest⟩, ⟨touched, htouched, htimes⟩,
    hrefused (Sample.directoryInode_isDir 8) 7⟩

/-- The sample's `d` resolves, and `fs_utime` refuses it. -/
theorem utime_refuses_directory :
    ¬ ∀ world path inum inode modtime, Reachable world →
      (components path).length ≤ 10 →
      run (pathToInode path 0) world = some (.ok (inum, inode), world) →
      ∃ world', run (fsUtime path modtime) world =
        some (.ok 0, world') := by
  intro hall
  obtain ⟨world', hrun⟩ := hall _ _ _ _ 7
    (Sample.reachable 400 zeroBlock (by decide) (by decide)) (by decide)
    (Sample.run_pathD 400 zeroBlock (by decide) (by decide))
  have hreply : (run (fsUtime Sample.pathD 7)
      (Sample.world 400 zeroBlock).boot).map Prod.fst =
        some (.error (-eIsDir)) := by decide +kernel
  rw [hrun] at hreply
  cases hreply

end Fs5600
