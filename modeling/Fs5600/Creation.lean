/-
`fs_create` and `fs_mkdir`: which check fails first, and what is at the path
and in the directory above it when none does.
-/
import Fs5600.Listing

namespace Fs5600

open MachineWord EffectProgram Program

/-- The checks of a creation, in their order. -/
def World.creationError (world : World) (path : CString) (dirflag : Bool) :
    Option Int :=
  match world.disk.resolve (components path).dropLast with
  | .error status => some status
  | .ok (_, inum) =>
      let dir := world.disk.entries inum
      if ¬ (world.disk.inode inum).isDir then some (-eNotDir)
      else if ∃ slot, (dir slot).valid = true ∧
        (components path).getLast? = some (dir slot).nameString then
          some (-eExist)
      else if (∀ slot, (dir slot).valid = true) ∨
        freeCount (world.disk 1) world.disk.diskSize <
          (if dirflag then 2 else 1) then some (-eNoSpc)
      else none

/-- What a creation leaves: the new object, without contents, and its
entry. -/
structure Created (ctx : Context) (path : CString) (mode : UInt32)
    (dirflag : Bool) (world world' : World) : Prop where
  stat : ∃ stat, run (fsGetattr path) world' = some (.ok stat, world') ∧
    stat.mode = (if dirflag then mode ||| sIfdir else mode) ∧
    stat.size = (if dirflag then 4096 else 0) ∧
    stat.uid.toNat = ctx.uid.toNat % 65536 ∧
    stat.gid.toNat = ctx.gid.toNat % 65536
  file : dirflag = false → ∀ (len : Nat) (offset : Int), 0 ≤ offset →
    run (fsRead path len offset) world' = some (.ok (0, []), world')
  directory : dirflag = true →
    run (fsReaddir path) world' = some (.ok (0, []), world')
  parent : ∀ parent : CString,
    components parent = (components path).dropLast → ∃ old new name stat,
      run (fsReaddir parent) world = some (.ok (0, old), world) ∧
      run (fsReaddir parent) world' = some (.ok (0, new), world') ∧
      (components path).getLast? = some name ∧
      run (fsGetattr path) world' = some (.ok stat, world') ∧
      new.Perm ((name, stat) :: old)

section

variable {world : World} (hmount : Mounted world) {names : List Name}
  {site : List Slot} {inum : Nat} {slot : Slot} {name : Name}
  {inode : FsInode} {dirflag : Bool} {blocks : List Nat}
  (hok : InsertOk world names site inum slot name inode dirflag blocks)

include hmount hok

/-- The new object is found under its names, and the directory under its
own. -/
theorem InsertOk.apply_resolve :
    let disk' := (Change.apply
      (.insert site inum slot name inode dirflag blocks) world).disk
    disk'.resolve (names ++ [name]) =
        .ok (site ++ [slot], blocks.getD 0 0) ∧
      disk'.resolve names = .ok (site, inum) := by
  intro disk'
  have hvalid : Change.Valid world names
    (.insert site inum slot name inode dirflag blocks) := hok
  have hshows := Change.apply_shows hmount hvalid
  have hrw := (Change.entryRewrite hmount hvalid hshows rfl).1
  have hobject := (Change.mounted hmount hvalid).consistent.object
  have hnode := Disk.node_child hrw.node_path (hok.leaf hmount hshows).1
  exact ⟨Disk.resolve_of_node hobject hnode,
    Disk.resolve_of_node hobject hrw.node_path⟩

theorem InsertOk.apply_inode :
    (Change.apply (.insert site inum slot name inode dirflag blocks)
      world).disk.inode (blocks.getD 0 0) = inode := by
  have hvalid : Change.Valid world names
    (.insert site inum slot name inode dirflag blocks) := hok
  exact (Change.apply_shows hmount hvalid).child.1

/-- A new directory has no entries, whatever was in its block. -/
theorem InsertOk.apply_empty (hdir : dirflag = true) :
    let disk' := (Change.apply
      (.insert site inum slot name inode dirflag blocks) world).disk
    disk'.listing (disk'.entries (blocks.getD 0 0)) = [] := by
  intro disk'
  have hvalid : Change.Valid world names
    (.insert site inum slot name inode dirflag blocks) := hok
  have hzero : disk' (blocks.getD 1 0) = zeroBlock :=
    (Change.apply_shows hmount hvalid).child.2 hdir
  rw [Disk.entries, hok.apply_inode hmount, hok.inode.block hdir, hzero,
    Disk.listing, List.map_eq_nil_iff, List.filter_eq_nil_iff]
  intro entry hmem
  obtain ⟨slot', rfl⟩ := List.mem_ofFn.mp hmem
  rw [Directory.decode_zeroBlock_valid]
  exact Bool.false_ne_true

/-- The directory lists the new entry besides the old ones. -/
theorem InsertOk.apply_listing :
    let disk' := (Change.apply
      (.insert site inum slot name inode dirflag blocks) world).disk
    (disk'.inode inum).isDir = true ∧
      (disk'.listing (disk'.entries inum)).Perm
        ((name, inodeToStat inode) ::
          world.disk.listing (world.disk.entries inum)) := by
  intro disk'
  have hvalid : Change.Valid world names
    (.insert site inum slot name inode dirflag blocks) := hok
  have hshows := Change.apply_shows hmount hvalid
  have hrw := (Change.entryRewrite hmount hvalid hshows rfl).1
  obtain ⟨hdir, hused, hhop⟩ :=
    Disk.edge_eq_some.mp (hok.leaf hmount hshows).1
  obtain ⟨hname, hchild⟩ := Prod.mk.inj hhop
  refine ⟨hdir, ?_⟩
  have hperm := Disk.listing_perm hok.free hused hrw.others
    fun slot' hvalid' => hrw.inode_eq (Disk.node_child hok.node
      (Disk.edge_eq_some.mpr ⟨hok.isDir, hvalid', rfl⟩))
  rwa [← hname, ← hchild, hok.apply_inode hmount] at hperm

theorem InsertOk.run_readdir_parent {parent : CString}
    (hparse : parse parent = names) :
    let world' := Change.apply
      (.insert site inum slot name inode dirflag blocks) world
    ∃ old new, run (fsReaddir parent) world = some (.ok (0, old), world) ∧
      run (fsReaddir parent) world' = some (.ok (0, new), world') ∧
      new.Perm ((name, inodeToStat inode) :: old) := by
  intro world'
  have hvalid : Change.Valid world names
    (.insert site inum slot name inode dirflag blocks) := hok
  have hbefore := Disk.resolve_of_node hmount.consistent.object hok.node
  have hafter := (hok.apply_resolve hmount).2
  rw [← hparse] at hbefore hafter
  obtain ⟨hdir, hperm⟩ := hok.apply_listing hmount
  exact ⟨_, _, hmount.run_fsReaddir hbefore hok.isDir,
    (Change.mounted hmount hvalid).run_fsReaddir hafter hdir, hperm⟩

end

theorem getLast_components {path : CString} (hne : components path ≠ [])
    (hlen : (components path).length ≤ 10) :
    (components path).getLast? = some (leaf path) := by
  rw [leaf, parse_eq_components hlen, List.getLast?_eq_some_getLast hne,
    List.getLastD_eq_getLast?, List.getLast?_eq_some_getLast hne]
  rfl

theorem exists_named_iff {dir : Directory} {name : Name} :
    (∃ slot, (dir slot).valid = true ∧
        some name = some (dir slot).nameString) ↔
      (firstNamed dir name).isSome = true := by
  constructor
  · rintro ⟨slot, hvalid, hname⟩
    rw [Option.isSome_iff_ne_none]
    intro hnone
    exact firstNamed_eq_none.mp hnone slot hvalid
      (Option.some.inj hname).symm
  · intro hsome
    obtain ⟨slot, hfound⟩ := Option.isSome_iff_exists.mp hsome
    obtain ⟨hvalid, hname⟩ := firstNamed_eq_some hfound
    exact ⟨slot, hvalid, by rw [hname]⟩

/-- The checks as the searches of the plan make them. -/
theorem World.creationError_eq {world : World} (hmount : Mounted world)
    {path : CString} (hne : components path ≠ [])
    (hlen : (components path).length ≤ 10) (dirflag : Bool) :
    world.creationError path dirflag =
      match world.disk.resolve (parse path).dropLast with
      | .error status => some status
      | .ok (_, inum) =>
          if ¬ (world.disk.inode inum).isDir then some (-eNotDir)
          else if (firstNamed (world.disk.entries inum) (leaf path)).isSome
            then some (-eExist)
          else
            match firstInvalid (world.disk.entries inum) 0 with
            | none => some (-eNoSpc)
            | some _ =>
                match lowestFree world.globals.bitmap world.disk.diskSize
                    (if dirflag then 2 else 1) with
                | none => some (-eNoSpc)
                | some _ => none := by
  rw [creationError, parse_eq_components hlen, getLast_components hne hlen,
    hmount.bitmap]
  cases world.disk.resolve (components path).dropLast with
  | error status => rfl
  | ok there =>
      obtain ⟨site, inum⟩ := there
      refine if_congr Iff.rfl rfl (if_congr exists_named_iff rfl ?_)
      cases hslot : firstInvalid (world.disk.entries inum) 0 with
      | none => exact if_pos (Or.inl (firstInvalid_eq_none.mp hslot))
      | some slot =>
          have hslots : ¬ ∀ slot,
              (world.disk.entries inum slot).valid = true := by
            rw [← firstInvalid_eq_none, hslot]
            exact Option.some_ne_none slot
          cases hblocks : lowestFree (world.disk 1) world.disk.diskSize
              (if dirflag then 2 else 1) with
          | none => exact if_pos (Or.inr (lowestFree_eq_none.mp hblocks))
          | some blocks =>
              refine if_neg fun hor => hor.elim hslots fun hlt => ?_
              rw [lowestFree_eq_none.mpr hlt] at hblocks
              cases hblocks

/-- The plan of a creation, by its checks. -/
theorem World.planCreate_cases {world : World} (hmount : Mounted world)
    {path : CString} (hne : components path ≠ [])
    (hlen : (components path).length ≤ 10) (ctx : Context) (mode : UInt32)
    (dirflag : Bool) :
    match world.creationError path dirflag with
    | some status =>
        world.planCreate ctx path mode dirflag = .error status
    | none => ∃ site inum slot blocks block,
        world.planCreate ctx path mode dirflag =
          .ok (.insert site inum slot (leaf path)
            ((inodeFromMode ctx
              (if dirflag then mode ||| sIfdir else mode)).setPtr 0 block)
            dirflag blocks) := by
  rw [creationError_eq hmount hne hlen, planCreate]
  cases world.disk.resolve (parse path).dropLast with
  | error status => rfl
  | ok there =>
      obtain ⟨site, inum⟩ := there
      dsimp only
      cases hdir : (world.disk.inode inum).isDir with
      | false => simp
      | true =>
          cases firstNamed (world.disk.entries inum) (leaf path) with
          | some slot => simp
          | none =>
              cases firstInvalid (world.disk.entries inum) 0 with
              | none => simp
              | some slot =>
                  cases lowestFree world.globals.bitmap world.disk.diskSize
                      (if dirflag then 2 else 1) with
                  | none => simp
                  | some blocks => simp

/-- What a creation does: it is refused for its first error, or carried
out. -/
structure Creates (code : Fs Int) (ctx : Context) (path : CString)
    (mode : UInt32) (dirflag : Bool) (world : World) : Prop where
  refused : ∀ status, world.creationError path dirflag = some status →
    run code world = some (.error status, world)
  made : world.creationError path dirflag = none →
    ∃ world', run code world = some (.ok 0, world') ∧
      Created ctx path mode dirflag world world'

theorem created_of_insertOk {world : World} (hsteady : Steady world)
    {ctx : Context} {path : CString} (hne : components path ≠ [])
    (hlen : (components path).length ≤ 10) {mode : UInt32} {block : Int}
    {names : List Name} {site : List Slot} {inum : Nat} {slot : Slot}
    {dirflag : Bool} {blocks : List Nat}
    (hok : InsertOk world names site inum slot (leaf path)
      ((inodeFromMode ctx
        (if dirflag then mode ||| sIfdir else mode)).setPtr 0 block)
      dirflag blocks)
    (hnames : names ++ [leaf path] = parse path) :
    Created ctx path mode dirflag world
      (Change.apply (.insert site inum slot (leaf path)
        ((inodeFromMode ctx
          (if dirflag then mode ||| sIfdir else mode)).setPtr 0 block)
        dirflag blocks) world) := by
  have hmount := hsteady.toMounted
  generalize hinode : (inodeFromMode ctx
    (if dirflag then mode ||| sIfdir else mode)).setPtr 0 block = inode
    at hok ⊢
  generalize hworld : Change.apply (.insert site inum slot (leaf path)
    inode dirflag blocks) world = world'
  have hmount' : Mounted world' := hworld ▸ Change.mounted hmount hok
  have hresolve := (hok.apply_resolve hmount).1
  have hnew := hok.apply_inode hmount
  rw [hworld] at hresolve hnew
  rw [hnames] at hresolve
  have hstat : run (fsGetattr path) world' =
      some (.ok (inodeToStat inode), world') := by
    rw [fsGetattr, run_bind_ok (hmount'.run_target hresolve), hnew]
    rfl
  refine ⟨⟨_, hstat, ?_, ?_, ?_, ?_⟩, ?_, ?_, ?_⟩
  · rw [← hinode]
    rfl
  · have hsize := hok.inode.size
    apply Int32.toInt_inj.mp
    change inode.size.toInt = _
    rw [hsize]
    cases dirflag <;> rfl
  · rw [← hinode]
    exact UInt16.toNat_ofNat'
  · rw [← hinode]
    exact UInt16.toNat_ofNat'
  · intro hfile len offset hoffset
    refine hmount'.run_fsRead_beyond hresolve ?_ ?_ len
    · rw [hnew, hok.inode.isReg, hfile]
      rfl
    · rw [hnew, hok.inode.size, hfile]
      exact hoffset
  · intro hdir
    have hempty := hok.apply_empty hmount hdir
    rw [hworld] at hempty
    rw [hmount'.run_fsReaddir hresolve (by rw [hnew, hok.inode.isDir, hdir]),
      hempty]
  · intro parent hcomponents
    have hparse : parse parent = names := by
      rw [parse_parent hlen hcomponents, ← hnames, List.dropLast_concat]
    obtain ⟨old, new, hold, hnew, hperm⟩ :=
      hok.run_readdir_parent hmount hparse
    rw [hworld] at hnew
    exact ⟨old, new, _, _, hold, hnew, getLast_components hne hlen, hstat,
      hperm⟩

theorem Steady.run_create {world : World} (hsteady : Steady world)
    (ctx : Context) {path : CString} (hne : components path ≠ [])
    (hlen : (components path).length ≤ 10) (mode : UInt32) (dirflag : Bool)
    (hmode : mode &&& sIfmt = if dirflag then 0 else sIfreg) :
    Creates (createDirectoryEntry ctx path mode dirflag) ctx path mode
      dirflag world := by
  have hmount := hsteady.toMounted
  have hrun := hsteady.run_follows
    (hmount.follows_create ctx (parse_ne_nil hne) mode dirflag)
  have hplan := World.planCreate_cases hmount hne hlen ctx mode dirflag
  refine ⟨fun status herror => ?_, fun herror => ?_⟩
  · rw [herror] at hplan
    rw [hrun, show World.planCreate _ _ _ _ _ = _ from hplan]
    rfl
  · rw [herror] at hplan
    obtain ⟨site, inum, slot, blocks, block, hplan⟩ := hplan
    obtain ⟨names, hok, hnames⟩ := World.planCreate_planned hmount
      (parse_ne_nil hne) hmode hplan
    refine ⟨_, hrun.trans ?_,
      created_of_insertOk hsteady hne hlen hok hnames⟩
    rw [hplan]
    rfl

/-- `fs_create` and `fs_mkdir` return the first error of their checks, or
make a new object and enter it in its directory. -/
theorem create_makes_entry {world : World} (hreach : Reachable world)
    (ctx : Context) {path : CString} (hne : components path ≠ [])
    (hlen : (components path).length ≤ 10) :
    (∀ mode, mode &&& sIfmt = sIfreg →
      Creates (fsCreate ctx path mode) ctx path mode false world) ∧
    (∀ mode, mode &&& sIfmt = 0 →
      Creates (fsMkdir ctx path mode) ctx path mode true world) :=
  ⟨fun mode => hreach.steady.run_create ctx hne hlen mode false,
    fun mode => hreach.steady.run_create ctx hne hlen mode true⟩

theorem create_makes_entry_sample :
    Creates (fsCreate Sample.context Sample.pathC 0o100644) Sample.context
        Sample.pathC 0o100644 false (Sample.world 400 zeroBlock).boot ∧
      Creates (fsMkdir Sample.context Sample.pathC 0o755) Sample.context
        Sample.pathC 0o755 true (Sample.world 400 zeroBlock).boot := by
  obtain ⟨hfile, hdirectory⟩ := @create_makes_entry
    (Sample.world 400 zeroBlock).boot
    (Sample.reachable 400 zeroBlock (by decide) (by decide)) Sample.context
    Sample.pathC (by decide) (by decide)
  exact ⟨hfile 0o100644 (by decide), hdirectory 0o755 (by decide)⟩

end Fs5600
