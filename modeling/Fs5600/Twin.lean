/-
Two images that agree in everything but the bytes of free blocks and the bytes
behind the end of files: no call tells them apart.
-/
import Fs5600.Queries

namespace Fs5600

open MachineWord EffectProgram Program LabelledWalk

/-- Disks with the same bitmap, the same objects and the same bytes in every
file.  Free blocks and the rest of a file's last block may differ. -/
structure Disk.Twin (disk disk' : Disk) : Prop where
  superblock : disk'.superblock = disk.superblock
  bitmap : disk' 1 = disk 1
  inode : ∀ path names i, disk.node path = some (names, i) →
    disk'.inode i = disk.inode i
  entries : ∀ path names i, disk.node path = some (names, i) →
    (disk.inode i).isDir = true → disk'.entries i = disk.entries i
  content : ∀ path names i, disk.node path = some (names, i) →
    (disk.inode i).isReg = true →
      fileContent disk' (disk.inode i) = fileContent disk (disk.inode i)

section

variable {disk disk' : Disk} (htwin : Disk.Twin disk disk')

include htwin

theorem Disk.Twin.diskSize : disk'.diskSize = disk.diskSize := by
  rw [Disk.diskSize, htwin.superblock, Disk.diskSize]

theorem Disk.Twin.node_eq (path : List Slot) :
    disk'.node path = disk.node path := by
  refine walk_congr 2 ?_ path
  rintro q slot ⟨names, i⟩ hq
  refine Disk.edge_congr ?_ fun hdir => ?_
  · rw [htwin.inode q names i hq]
  · rw [htwin.entries q names i hq hdir]

theorem Disk.Twin.resolve_eq (names : List Name) :
    disk'.resolve names = disk.resolve names := by
  induction names using List.reverseRecOn with
  | nil => rfl
  | append_singleton names name ih =>
      rw [Disk.resolve_snoc, Disk.resolve_snoc, ih]
      cases hresolve : disk.resolve names with
      | error status => rfl
      | ok there =>
          have hnode := Disk.node_of_resolve hresolve
          simp only [Except.bind]
          rw [htwin.inode _ _ _ hnode]
          by_cases hdir : (disk.inode there.2).isDir = true
          · rw [if_pos hdir, if_pos hdir, htwin.entries _ _ _ hnode hdir]
          · rw [if_neg hdir, if_neg hdir]

theorem Disk.Twin.listing_eq {path : List Slot} {names : List Name} {i : Nat}
    (hnode : disk.node path = some (names, i))
    (hdir : (disk.inode i).isDir = true) :
    disk'.listing (disk'.entries i) = disk.listing (disk.entries i) := by
  rw [htwin.entries _ _ _ hnode hdir]
  refine List.map_congr_left fun entry hmem => ?_
  obtain ⟨hentry, hvalid⟩ := List.mem_filter.mp hmem
  obtain ⟨slot, rfl⟩ := List.mem_ofFn.mp hentry
  have hedge := Disk.edge_eq_some.mpr ⟨hdir, hvalid, rfl⟩
  have hchild := Disk.node_behind hnode slot []
  rw [hedge] at hchild
  rw [htwin.inode _ _ _ hchild]

end

/-! Plans. -/

section

variable {world world' : World}
  (htwin : Disk.Twin world.disk world'.disk)
  (hglobals : world'.globals = world.globals)

include htwin

theorem Disk.Twin.planRemove_eq {path : CString} (hne : parse path ≠ [])
    {there : List Slot × Nat}
    (hresolve : world.disk.resolve (parse path) = .ok there)
    (blocks : List Nat) :
    world'.planRemove path blocks = world.planRemove path blocks := by
  obtain ⟨site, inum, slot, hparent, hdir, -⟩ :=
    Disk.resolve_parent hne hresolve
  have hnode := Disk.node_of_resolve hparent
  simp only [World.planRemove, htwin.resolve_eq, hparent,
    htwin.entries _ _ _ hnode hdir]

include hglobals

theorem Disk.Twin.planCreate_eq (ctx : Context) (path : CString)
    (mode : UInt32) (dirflag : Bool) :
    world'.planCreate ctx path mode dirflag =
      world.planCreate ctx path mode dirflag := by
  rw [World.planCreate, htwin.resolve_eq, hglobals, htwin.diskSize,
    World.planCreate]
  cases hresolve : world.disk.resolve (parse path).dropLast with
  | error status => rfl
  | ok there =>
      have hnode := Disk.node_of_resolve hresolve
      dsimp only
      rw [htwin.inode _ _ _ hnode]
      by_cases hdir : (world.disk.inode there.2).isDir = true
      · rw [htwin.entries _ _ _ hnode hdir]
      · rw [if_pos hdir, if_pos hdir]

omit hglobals in
theorem Disk.Twin.planUnlink_eq {path : CString} (hne : parse path ≠ []) :
    world'.planUnlink path = world.planUnlink path := by
  rw [World.planUnlink, htwin.resolve_eq, World.planUnlink]
  cases hresolve : world.disk.resolve (parse path) with
  | error status => rfl
  | ok there =>
      dsimp only
      rw [htwin.inode _ _ _ (Disk.node_of_resolve hresolve)]
      exact htwin.planRemove_eq hne hresolve _

omit hglobals in
theorem Disk.Twin.planRmdir_eq {path : CString} (hne : parse path ≠ []) :
    world'.planRmdir path = world.planRmdir path := by
  rw [World.planRmdir, htwin.resolve_eq, World.planRmdir]
  cases hresolve : world.disk.resolve (parse path) with
  | error status => rfl
  | ok there =>
      have hnode := Disk.node_of_resolve hresolve
      dsimp only
      rw [htwin.inode _ _ _ hnode]
      by_cases hdir : (world.disk.inode there.2).isDir = true
      · rw [htwin.entries _ _ _ hnode hdir, htwin.planRemove_eq hne hresolve]
      · rw [if_pos hdir, if_pos hdir]

omit hglobals in
theorem Disk.Twin.planRename_eq (hmount : Mounted world)
    (srcPath dstPath : CString) :
    world'.planRename srcPath dstPath = world.planRename srcPath dstPath := by
  rw [World.planRename, htwin.resolve_eq, htwin.resolve_eq,
    htwin.resolve_eq, World.planRename]
  cases hresolve : world.disk.resolve (parse srcPath) with
  | error status => rfl
  | ok there =>
      obtain ⟨parent, hparent, hdir⟩ :
          ∃ parent, world.disk.resolve (parse srcPath).dropLast =
            .ok parent ∧ (world.disk.inode parent.2).isDir = true := by
        by_cases hne : parse srcPath = []
        · rw [hne]
          exact ⟨_, rfl, hmount.consistent.root_dir⟩
        · obtain ⟨site, inum, slot, hparent, hdir, -⟩ :=
            Disk.resolve_parent hne hresolve
          exact ⟨_, hparent, hdir⟩
      rw [hparent]
      dsimp only
      rw [htwin.entries _ _ _ (Disk.node_of_resolve hparent) hdir]

/-- Twins make the same plans. -/
theorem Disk.Twin.plan_eq (hmount : Mounted world) {request : Request}
    (hcontract : request.call.Contract) :
    request.plan world' = request.plan world := by
  obtain ⟨ctx, call⟩ := request
  have hinode : ∀ {names : List Name} {there : List Slot × Nat},
      world.disk.resolve names = .ok there →
      world'.disk.inode there.2 = world.disk.inode there.2 :=
    fun hresolve => htwin.inode _ _ _ (Disk.node_of_resolve hresolve)
  cases call with
  | create path mode => exact htwin.planCreate_eq hglobals ctx path mode false
  | mkdir path mode => exact htwin.planCreate_eq hglobals ctx path mode true
  | unlink path => exact htwin.planUnlink_eq (parse_ne_nil hcontract)
  | rmdir path => exact htwin.planRmdir_eq (parse_ne_nil hcontract)
  | rename srcPath dstPath =>
      exact htwin.planRename_eq hmount srcPath dstPath
  | chmod path mode =>
      change world'.planChmod path mode = world.planChmod path mode
      rw [World.planChmod, htwin.resolve_eq, World.planChmod]
      cases hresolve : world.disk.resolve (parse path) with
      | error status => rfl
      | ok there =>
          dsimp only
          rw [hinode hresolve]
  | utime path modtime =>
      change world'.planUtime path modtime = world.planUtime path modtime
      rw [World.planUtime, htwin.resolve_eq, World.planUtime]
      cases hresolve : world.disk.resolve (parse path) with
      | error status => rfl
      | ok there =>
          dsimp only
          rw [hinode hresolve]
  | truncate path len =>
      change world'.planTruncate path len = world.planTruncate path len
      rw [World.planTruncate, htwin.resolve_eq, World.planTruncate]
      cases hresolve : world.disk.resolve (parse path) with
      | error status => rfl
      | ok there =>
          dsimp only
          rw [hinode hresolve]
  | write path buf offset =>
      change world'.planWrite ctx path buf offset =
        world.planWrite ctx path buf offset
      rw [World.planWrite, htwin.resolve_eq, hglobals, htwin.diskSize,
        World.planWrite]
      cases hresolve : world.disk.resolve (parse path) with
      | error status => rfl
      | ok there =>
          dsimp only
          rw [hinode hresolve]
  | init | getattr | readdir | read | statfs => rfl

end

/-! Changes. -/

/-- No change turns a file into a directory or back. -/
theorem Change.kind_inodeAt {world : World} {names : List Name}
    {change : Change} (hvalid : change.Valid world names) (j : Nat) :
    (change.inodeAt world.disk j).isReg = (world.disk.inode j).isReg ∧
      (change.inodeAt world.disk j).isDir = (world.disk.inode j).isDir := by
  cases change with
  | relabel | insert | remove => exact ⟨rfl, rfl⟩
  | attributes path inum inode =>
      simp only [inodeAt, rewrittenInode]
      split
      next heq =>
        rw [heq]
        exact ⟨AttributesOk.isReg hvalid, AttributesOk.isDir hvalid⟩
      next => exact ⟨rfl, rfl⟩
  | shrink path inum len | write path inum offset buf mtime fresh =>
      simp only [inodeAt, rewrittenInode]
      split
      next heq =>
        rw [heq]
        exact ⟨rfl, rfl⟩
      next => exact ⟨rfl, rfl⟩

section

variable {world world' : World}
  (htwin : Disk.Twin world.disk world'.disk) {names : List Name}
  {change : Change} (hvalid : change.Valid world names)

include htwin hvalid

theorem Disk.Twin.inum_eq :
    world'.disk.inode change.inum = world.disk.inode change.inum :=
  htwin.inode _ _ _ hvalid.node

theorem Disk.Twin.rewrittenInode_eq :
    change.rewrittenInode world'.disk = change.rewrittenInode world.disk := by
  have hinum := htwin.inum_eq hvalid
  cases change with
  | shrink path inum len =>
      exact congrArg (fun inode => some (path, inum, FsInode.shrink inode len))
        hinum
  | write path inum offset buf mtime fresh =>
      exact congrArg (fun inode => some (path, inum,
        FsInode.extend inode fresh (offset + buf.length) mtime)) hinum
  | attributes | relabel | insert | remove => rfl

theorem Disk.Twin.rewrittenEntry_eq :
    change.rewrittenEntry world'.disk = change.rewrittenEntry world.disk ∧
      ∀ there, change.rewrittenEntry world.disk = some there →
        world'.disk.entries there.2.1 = world.disk.entries there.2.1 := by
  cases change with
  | relabel path inum slot name =>
      have hentries := htwin.entries _ _ _ hvalid.1.node hvalid.1.isDir
      refine ⟨?_, ?_⟩
      · simp only [Change.rewrittenEntry, hentries]
      · rintro there hthere
        cases hthere
        exact hentries
  | insert path inum slot name inode dirflag blocks =>
      have hentries := htwin.entries _ _ _ (InsertOk.node hvalid)
        (InsertOk.isDir hvalid)
      refine ⟨?_, ?_⟩
      · simp only [Change.rewrittenEntry, hentries]
      · rintro there hthere
        cases hthere
        exact hentries
  | remove path inum slot blocks =>
      have hentry := RemoveOk.entry hvalid
      have hentries := htwin.entries _ _ _ hentry.node hentry.isDir
      refine ⟨?_, ?_⟩
      · simp only [Change.rewrittenEntry, hentries]
      · rintro there hthere
        cases hthere
        exact hentries
  | attributes | shrink | write =>
      refine ⟨rfl, ?_⟩
      rintro there hthere
      cases hthere

theorem Disk.Twin.map_eq :
    change.map world'.disk = change.map world.disk := by
  have hinum := htwin.inum_eq hvalid
  have hreleased : change.released world'.disk =
      change.released world.disk := by
    cases change with
    | shrink path inum len =>
        exact congrArg (fun inode => FsInode.dropped inode len) hinum
    | attributes | relabel | insert | remove | write => rfl
  rw [Change.map, htwin.bitmap, hreleased, Change.map]

theorem Disk.Twin.settle_eq (hglobals : world'.globals = world.globals) :
    change.settle world' = change.settle world := by
  have hinum := htwin.inum_eq hvalid
  have hdelta : change.delta world'.disk = change.delta world.disk := by
    cases change with
    | shrink path inum len =>
        exact congrArg (fun inode =>
          some ((FsInode.dropped inode len).length : Int)) hinum
    | write path inum offset buf mtime fresh =>
        exact congrArg (fun inode =>
          some ((blockCount (FsInode.length inode) : Int) -
            blockCount (offset + buf.length))) hinum
    | attributes | relabel | insert | remove => rfl
  rw [Change.settle, htwin.map_eq hvalid, hdelta, hglobals, Change.settle]

section

variable {q : List Slot} {names' : List Name} {j : Nat}
  (hq : world.disk.node q = some (names', j))

include hq

theorem Disk.Twin.inodeAt_eq :
    change.inodeAt world'.disk j = change.inodeAt world.disk j := by
  rw [Change.inodeAt, htwin.rewrittenInode_eq hvalid, htwin.inode _ _ _ hq,
    Change.inodeAt]

theorem Disk.Twin.entriesAt_eq (hdir : (world.disk.inode j).isDir = true) :
    change.entriesAt world'.disk j = change.entriesAt world.disk j := by
  obtain ⟨hentry, hold⟩ := htwin.rewrittenEntry_eq hvalid
  rw [Change.entriesAt, hentry, htwin.entries _ _ _ hq hdir,
    Change.entriesAt]
  cases hthere : change.rewrittenEntry world.disk with
  | none => rfl
  | some there =>
      have hsame := hold there hthere
      obtain ⟨path, inum, slot, entry⟩ := there
      dsimp only at hsame ⊢
      rw [hsame]

omit hvalid in
theorem Disk.Twin.contentAt_eq (hreg : (world.disk.inode j).isReg = true) :
    change.contentAt world'.disk j = change.contentAt world.disk j := by
  simp only [Change.contentAt, htwin.inode _ _ _ hq,
    htwin.content _ _ _ hq hreg]

end

end

/-- What is newly entered has the same inode, the same entries and no bytes
in any image. -/
theorem Change.new_object {world : World} {names : List Name}
    {change : Change} (hvalid : change.Valid world names) {disk' : Disk}
    (hshows : change.Shows world.disk disk') {j : Nat} {inode : FsInode}
    (hnew : change.newInode = some (j, inode)) :
    disk'.inode j = inode ∧
      (inode.isDir = true → disk'.entries j = .decode zeroBlock) ∧
      (inode.isReg = true → inode.length = 0) := by
  cases change with
  | insert path inum slot name inode' dirflag blocks =>
      cases hnew
      have hok : NewInode inode dirflag blocks := InsertOk.inode hvalid
      have hinode := hshows.child.1
      refine ⟨hinode, fun hdir => ?_, fun hreg => ?_⟩
      · have hflag : dirflag = true := hok.isDir.symm.trans hdir
        rw [Disk.entries, hinode, hok.block hflag, hshows.child.2 hflag]
      · have hflag : dirflag = false := by
          have hkind := hok.isReg
          rw [hreg] at hkind
          cases dirflag with
          | false => rfl
          | true => cases hkind
        rw [FsInode.length, hok.size, hflag]
        rfl
  | attributes | relabel | remove | shrink | write => cases hnew

/-- Twins stay twins when both make the same change. -/
theorem Disk.Twin.apply {world world' : World}
    (htwin : Disk.Twin world.disk world'.disk) (hmount : Mounted world)
    (hmount' : Mounted world') {names names' : List Name} {change : Change}
    (hvalid : change.Valid world names)
    (hvalid' : change.Valid world' names')
    (hlen : ∀ path inum len, change = .shrink path inum len →
      len ≤ (world.disk.inode inum).length) :
    Disk.Twin (change.apply world).disk (change.apply world').disk := by
  have hshows := Change.apply_shows hmount hvalid
  have hshows' := Change.apply_shows hmount' hvalid'
  have hlen' : ∀ path inum len, change = .shrink path inum len →
      len ≤ (world'.disk.inode inum).length := by
    rintro path inum len rfl
    rw [htwin.inode _ _ _ (ShrinkOk.node hvalid)]
    exact hlen path inum len rfl
  have hold : ∀ {q : List Slot} {names'' : List Name} {j : Nat},
      world.disk.node q = some (names'', j) →
      (change.apply world).disk.inode j = change.inodeAt world.disk j ∧
        (change.apply world').disk.inode j =
          change.inodeAt world.disk j := by
    intro q names'' j hq
    refine ⟨Change.inode_eq hmount hvalid hshows hq, ?_⟩
    rw [Change.inode_eq hmount' hvalid' hshows' ((htwin.node_eq q).trans hq),
      htwin.inodeAt_eq hvalid hq]
  refine ⟨?_, ?_, ?_, ?_, ?_⟩
  · rw [hshows'.superblock hmount' hvalid', htwin.superblock,
      hshows.superblock hmount hvalid]
  · rw [Change.apply_bitmap hmount' hvalid', Change.apply_bitmap hmount hvalid,
      htwin.map_eq hvalid]
  · intro q names'' j hq
    rcases Change.node_cases hmount hvalid hshows hq with
      ⟨names₀, hq₀⟩ | ⟨inode, hnew⟩
    · rw [(hold hq₀).1, (hold hq₀).2]
    · rw [(Change.new_object hvalid hshows hnew).1,
        (Change.new_object hvalid' hshows' hnew).1]
  · intro q names'' j hq hdir
    rcases Change.node_cases hmount hvalid hshows hq with
      ⟨names₀, hq₀⟩ | ⟨inode, hnew⟩
    · have hq₀' := (htwin.node_eq q).trans hq₀
      rw [(hold hq₀).1, (Change.kind_inodeAt hvalid j).2] at hdir
      rw [Change.entries_eq hmount hvalid hshows hq₀ hdir,
        Change.entries_eq hmount' hvalid' hshows' hq₀'
          (by rw [htwin.inode _ _ _ hq₀]; exact hdir),
        htwin.entriesAt_eq hvalid hq₀ hdir]
    · obtain ⟨hinode, hentries, -⟩ := Change.new_object hvalid hshows hnew
      rw [hinode] at hdir
      rw [hentries hdir,
        (Change.new_object hvalid' hshows' hnew).2.1 hdir]
  · intro q names'' j hq hreg
    rcases Change.node_cases hmount hvalid hshows hq with
      ⟨names₀, hq₀⟩ | ⟨inode, hnew⟩
    · have hq₀' := (htwin.node_eq q).trans hq₀
      rw [(hold hq₀).1, (Change.kind_inodeAt hvalid j).1] at hreg
      have hcontent' := Change.content_eq hmount' hvalid' hq₀'
        (by rw [htwin.inode _ _ _ hq₀]; exact hreg) hlen'
      rw [htwin.inodeAt_eq hvalid hq₀, htwin.contentAt_eq hq₀ hreg]
        at hcontent'
      rw [(hold hq₀).1, hcontent',
        Change.content_eq hmount hvalid hq₀ hreg hlen]
    · obtain ⟨hinode, -, hempty⟩ := Change.new_object hvalid hshows hnew
      rw [hinode] at hreg ⊢
      rw [fileContent, fileContent, hempty hreg]
      rfl

/-! Calls. -/

theorem run_result {A B : Type} {code : Fs A} {world world' : World}
    {result : Except Int A} (hrun : run code world = some (result, world'))
    (f : A → B) :
    run (do pure (f (← code))) world = some (result.map f, world') := by
  cases result with
  | error status => exact run_bind_error hrun
  | ok value => exact run_bind_ok hrun

/-- Two worlds without device errors that no call is to tell apart. -/
structure Alike (world world' : World) : Prop where
  steady : Steady world
  steady' : Steady world'
  globals : world'.globals = world.globals
  disk : Disk.Twin world.disk world'.disk
  spare : world.disk.Spare

/-- Within the contract, writes end before the last pointer, and no file is
extended by cutting it. -/
def Discreet (world : World) (request : Request) : Prop :=
  request.call.Contract ∧
    match request.call with
    | .truncate path len => ∀ inum inode,
        run (pathToInode path 0) world = some (.ok (inum, inode), world) →
          sIsReg inode.mode = true → len ≤ inode.size.toInt
    | .write _ buf offset => offset + buf.length ≤ 4169728
    | _ => True

theorem World.planCreate_roomy {world : World} {names : List Name}
    {ctx : Context} {path : CString} {mode : UInt32} {dirflag : Bool}
    {change : Change} (hvalid : change.Valid world names)
    (hplan : world.planCreate ctx path mode dirflag = .ok change) :
    change.Roomy := by
  obtain ⟨site, inum, slot, blocks, -, -, -, -, -, rfl⟩ :=
    planCreate_eq_ok.mp hplan
  intro hreg
  have hnew := InsertOk.inode hvalid
  rw [hnew.isReg, Bool.not_eq_true'] at hreg
  subst hreg
  refine ⟨?_, fun k _ => Or.inl ?_⟩
  · rw [FsInode.length, hnew.size]
    decide
  · simp only [FsInode.setPtr, inodeFromMode, Bool.false_eq_true, ↓reduceIte]
    by_cases hk : k = 0
    · rw [hk, Function.update_self]
      rfl
    · exact Function.update_of_ne hk _ _

/-- What a discreet call decides on keeps spare slots, and cuts files. -/
theorem Discreet.plan {world : World} (hmount : Mounted world)
    {request : Request} (hdiscreet : Discreet world request)
    {names : List Name} {change : Change}
    (hvalid : change.Valid world names)
    (hplan : request.plan world = .ok change) :
    change.Roomy ∧ ∀ path inum len, change = .shrink path inum len →
      len ≤ (world.disk.inode inum).length := by
  have hmakes := Request.plan_makes hplan
  obtain ⟨ctx, call⟩ := request
  obtain ⟨hcontract, hlimit⟩ := hdiscreet
  cases call with
  | create path mode =>
      obtain ⟨_, _, _, _, _, _, rfl⟩ := World.planCreate_makes hplan
      exact ⟨World.planCreate_roomy hvalid hplan, by simp⟩
  | mkdir path mode =>
      obtain ⟨_, _, _, _, _, _, rfl⟩ := World.planCreate_makes hplan
      exact ⟨World.planCreate_roomy hvalid hplan, by simp⟩
  | truncate path len =>
      simp only [Request.plan, World.planTruncate] at hplan
      obtain ⟨hneg, hplan⟩ := reject_eq_ok.mp hplan
      split at hplan
      · cases hplan
      · next site inum hresolve =>
          obtain ⟨hreg, hplan⟩ := reject_eq_ok.mp hplan
          obtain ⟨-, hplan⟩ := reject_eq_ok.mp hplan
          cases hplan
          refine ⟨trivial, ?_⟩
          intro path' inum' len' hsame
          cases hsame
          have hle := hlimit _ _ (hmount.run_target hresolve)
            (not_not.mp hreg)
          have hsize := (hmount.consistent.object _ _ _
            (Disk.node_of_resolve hresolve)).size_eq
          omega
  | write path buf offset =>
      obtain ⟨_, _, _, _, _, _, _, rfl⟩ := World.planWrite_eq_ok.mp hplan
      have hpos := hcontract.2.1
      have hend : offset + buf.length ≤ 4169728 := hlimit
      refine ⟨?_, by simp⟩
      change offset.toNat + buf.length ≤ 4169728
      omega
  | unlink | rmdir | rename | chmod | utime =>
      cases change with
      | attributes | relabel | remove => exact ⟨trivial, by simp⟩
      | insert | shrink | write => cases hmakes
  | init | getattr | readdir | read | statfs => cases hplan

/-- Twin images are alike once they are mounted. -/
theorem Disk.Twin.boot {image image' : World}
    (htwin : Disk.Twin image.disk image'.disk)
    (hcons : Consistent image.disk image.device.size)
    (hcons' : Consistent image'.disk image'.device.size)
    (hhealthy : image.device.Healthy) (hhealthy' : image'.device.Healthy)
    (hspare : image.disk.Spare) : Alike image.boot image'.boot := by
  refine ⟨Steady.boot hcons hhealthy, Steady.boot hcons' hhealthy', ?_, htwin,
    hspare⟩
  change image'.disk.loaded = image.disk.loaded
  rw [Disk.loaded, htwin.superblock, htwin.bitmap, htwin.diskSize,
    htwin.inode _ _ _ Disk.node_nil, Disk.loaded]

section

variable {world world' : World} (htwin : Alike world world')

include htwin

theorem Alike.mutate {request : Request} (hmut : request.call.Mutates)
    (hdiscreet : Discreet world request) :
    ∃ reply next next', run request.perform world = some (reply, next) ∧
      run request.perform world' = some (reply, next') ∧ Alike next next' := by
  have hmount := htwin.steady.toMounted
  have hmount' := htwin.steady'.toMounted
  have hplan' := htwin.disk.plan_eq htwin.globals hmount hdiscreet.1
  have hrun := htwin.steady.run_perform hmut hdiscreet.1
  have hrun' := htwin.steady'.run_perform hmut hdiscreet.1
  rw [hplan'] at hrun'
  cases hplan : request.plan world with
  | error status =>
      rw [hplan] at hrun hrun'
      exact ⟨_, _, _, hrun, hrun', htwin⟩
  | ok change =>
      rw [hplan] at hrun hrun'
      refine ⟨_, _, _, hrun, hrun', ?_⟩
      obtain ⟨names, hvalid, -⟩ :=
        Request.plan_valid hmount hdiscreet.1 hplan
      obtain ⟨names', hvalid', -⟩ :=
        Request.plan_valid hmount' hdiscreet.1 (hplan'.trans hplan)
      obtain ⟨hroomy, hlen⟩ := hdiscreet.plan hmount hvalid hplan
      refine ⟨htwin.steady.apply hvalid, htwin.steady'.apply hvalid', ?_,
        htwin.disk.apply hmount hmount' hvalid hvalid' hlen,
        Change.spare hmount hvalid hroomy htwin.spare⟩
      rw [Change.apply_globals hmount, Change.apply_globals hmount',
        htwin.disk.settle_eq hvalid htwin.globals]

/-- Twins read the same bytes of every file. -/
theorem Alike.fsRead (path : CString) {len : Nat} (hlen : 1 ≤ len)
    {offset : Int} (hoffset : 0 ≤ offset)
    (hbound : offset + len < 9223372036854775808) :
    ∃ result, run (Fs5600.fsRead path len offset) world =
        some (result, world) ∧
      run (Fs5600.fsRead path len offset) world' = some (result, world') := by
  have hmount := htwin.steady.toMounted
  have hmount' := htwin.steady'.toMounted
  obtain ⟨o, rfl⟩ := Int.eq_ofNat_of_zero_le hoffset
  cases hresolve : world.disk.resolve (parse path) with
  | error status =>
      have hresolve' := (htwin.disk.resolve_eq (parse path)).trans hresolve
      exact ⟨.error status, run_bind_error (hmount.run_target_error hresolve),
        run_bind_error (hmount'.run_target_error hresolve')⟩
  | ok there =>
      obtain ⟨site, inum⟩ := there
      have hresolve' := (htwin.disk.resolve_eq (parse path)).trans hresolve
      have hnode := Disk.node_of_resolve hresolve
      have hinode := htwin.disk.inode _ _ _ hnode
      by_cases hreg : (world.disk.inode inum).isReg = true
      · have hreg' : (world'.disk.inode inum).isReg = true := by
          rw [hinode]
          exact hreg
        have hcontent := htwin.disk.content _ _ _ hnode hreg
        have hsize := (hmount.consistent.object _ _ _ hnode).size_eq
        by_cases hbeyond :
            (o : Int) ≥ (world.disk.inode inum).size.toInt
        · exact ⟨_, hmount.run_fsRead_beyond hresolve hreg hbeyond len,
            hmount'.run_fsRead_beyond hresolve' hreg'
              (by rw [hinode]; exact hbeyond) len⟩
        · by_cases hfit : o + len ≤ (world.disk.inode inum).length
          · have hread := hmount'.run_fsRead_inside hresolve' hreg' hlen
              (show o + len ≤ _ by rw [hinode]; exact hfit)
            rw [hinode, hcontent] at hread
            exact ⟨_, hmount.run_fsRead_inside hresolve hreg hlen hfit,
              hread⟩
          · have hlt : o < (world.disk.inode inum).length := by omega
            have hpast : (world.disk.inode inum).length < o + len := by
              omega
            have hsmall : o + len < 9223372036854775808 := by omega
            have hspare := htwin.spare _ _ _ hnode hreg
            have hread := hmount'.run_fsRead_spare hresolve' hreg'
              (by rw [hinode]; exact hspare) (by rw [hinode]; exact hlt)
              (by rw [hinode]; exact hpast) hsmall
            rw [hinode, hcontent] at hread
            exact ⟨_, hmount.run_fsRead_spare hresolve hreg hspare hlt hpast
              hsmall, hread⟩
      · exact ⟨_, hmount.run_fsRead_notReg hresolve hreg len o,
          hmount'.run_fsRead_notReg hresolve' (by rw [hinode]; exact hreg)
            len o⟩

/-- Twins answer every query alike. -/
theorem Alike.query {request : Request} (hmut : ¬ request.call.Mutates)
    (hinit : request.call ≠ .init) (hcontract : request.call.Contract) :
    ∃ reply, run request.perform world = some (reply, world) ∧
      run request.perform world' = some (reply, world') := by
  have hmount := htwin.steady.toMounted
  have hmount' := htwin.steady'.toMounted
  obtain ⟨ctx, call⟩ := request
  cases call with
  | getattr path =>
      cases hresolve : world.disk.resolve (parse path) with
      | error status =>
          have hresolve' := (htwin.disk.resolve_eq (parse path)).trans hresolve
          exact ⟨_, run_result (run_bind_error
              (hmount.run_target_error hresolve)) Reply.attr,
            run_result (run_bind_error
              (hmount'.run_target_error hresolve')) Reply.attr⟩
      | ok there =>
          have hresolve' := (htwin.disk.resolve_eq (parse path)).trans hresolve
          have hfound' := hmount'.run_target hresolve'
          rw [htwin.disk.inode _ _ _ (Disk.node_of_resolve hresolve)]
            at hfound'
          exact ⟨_, run_result (run_bind_ok (hmount.run_target hresolve))
              Reply.attr,
            run_result (run_bind_ok hfound') Reply.attr⟩
  | readdir path =>
      cases hresolve : world.disk.resolve (parse path) with
      | error status =>
          have hresolve' := (htwin.disk.resolve_eq (parse path)).trans hresolve
          have hfail : ∀ {world : World}, run (pathToInode path 0) world =
              some (.error status, world) →
              run (fsReaddir path) world = some (.error status, world) :=
            run_bind_error
          exact ⟨_, run_result (hfail (hmount.run_target_error hresolve))
                fun done => Reply.listing done.1 done.2,
            run_result (hfail (hmount'.run_target_error hresolve'))
                fun done => Reply.listing done.1 done.2⟩
      | ok there =>
          have hresolve' := (htwin.disk.resolve_eq (parse path)).trans hresolve
          have hnode := Disk.node_of_resolve hresolve
          have hinode := htwin.disk.inode _ _ _ hnode
          by_cases hdir : (world.disk.inode there.2).isDir = true
          · have hlist' := hmount'.run_fsReaddir hresolve'
              (by rw [hinode]; exact hdir)
            rw [htwin.disk.listing_eq hnode hdir] at hlist'
            exact ⟨_, run_result (hmount.run_fsReaddir hresolve hdir)
                fun done => Reply.listing done.1 done.2,
              run_result hlist' fun done => Reply.listing done.1 done.2⟩
          · exact ⟨_, run_result (hmount.run_fsReaddir_notDir hresolve hdir)
                fun done => Reply.listing done.1 done.2,
              run_result (hmount'.run_fsReaddir_notDir hresolve'
                (by rw [hinode]; exact hdir))
                fun done => Reply.listing done.1 done.2⟩
  | read path len offset =>
      obtain ⟨result, hread, hread'⟩ :=
        htwin.fsRead path hcontract.1 hcontract.2.1 hcontract.2.2
      exact ⟨_, run_result hread fun data => Reply.data data.1 data.2,
        run_result hread' fun data => Reply.data data.1 data.2⟩
  | statfs =>
      have hload : ∀ world, run fsStatfs world =
          some (.ok world.globals.statVfs, world) := fun _ => rfl
      have hload' := hload world'
      rw [htwin.globals] at hload'
      exact ⟨_, run_result (hload world) Reply.vfs,
        run_result hload' Reply.vfs⟩
  | init => exact absurd rfl hinit
  | create | mkdir | unlink | rmdir | rename | chmod | utime | truncate
  | write => exact absurd trivial hmut

/-- Twins answer every call alike, and stay twins. -/
theorem Alike.perform {request : Request}
    (hdiscreet : Discreet world request) :
    ∃ reply next next', run request.perform world = some (reply, next) ∧
      run request.perform world' = some (reply, next') ∧ Alike next next' := by
  by_cases hmut : request.call.Mutates
  · exact htwin.mutate hmut hdiscreet
  · by_cases hinit : request.call = .init
    · have hboot := htwin.disk.boot htwin.steady.consistent
        htwin.steady'.consistent ⟨htwin.steady.reads, htwin.steady.writes⟩
        ⟨htwin.steady'.reads, htwin.steady'.writes⟩ htwin.spare
      exact ⟨_, _, _,
        Request.run_init hinit htwin.steady.consistent htwin.steady.reads,
        Request.run_init hinit htwin.steady'.consistent htwin.steady'.reads,
        hboot⟩
    · obtain ⟨reply, hrun, hrun'⟩ := htwin.query hmut hinit hdiscreet.1
      exact ⟨reply, world, world', hrun, hrun', htwin⟩

end

/-- Every request of a run is allowed in the world in which it is served. -/
def Within (allowed : World → Request → Prop) : List Request → World → Prop
  | [], _ => True
  | request :: requests, world =>
      allowed world request ∧ ∀ reply world',
        run request.perform world = some (reply, world') →
          Within allowed requests world'

theorem Alike.serve {world world' : World} (htwin : Alike world world')
    {requests : List Request} (hall : Within Discreet requests world) :
    ∃ replies next next', Fs5600.serve requests world =
        some (replies, next) ∧
      Fs5600.serve requests world' = some (replies, next') := by
  induction requests generalizing world world' with
  | nil => exact ⟨[], world, world', rfl, rfl⟩
  | cons request requests ih =>
      obtain ⟨hfirst, hrest⟩ := hall
      obtain ⟨reply, next, next', hrun, hrun', hnext⟩ := htwin.perform hfirst
      obtain ⟨replies, last, last', hserve, hserve'⟩ :=
        ih hnext (hrest reply next hrun)
      refine ⟨reply :: replies, last, last', ?_, ?_⟩
      · rw [serve_cons requests hrun, hserve]
        rfl
      · rw [serve_cons requests hrun', hserve']
        rfl

/-- Two images that differ in free blocks and behind the ends of files give
the same replies to the same requests. -/
theorem serve_twin {image image' : World}
    (hcons : Consistent image.disk image.device.size)
    (hcons' : Consistent image'.disk image'.device.size)
    (hhealthy : image.device.Healthy) (hhealthy' : image'.device.Healthy)
    (htwin : Disk.Twin image.disk image'.disk) (hspare : image.disk.Spare)
    (ctx : Context) {requests : List Request}
    (hall : Within Discreet (⟨ctx, .init⟩ :: requests) image) :
    ∃ replies world world',
      serve (⟨ctx, .init⟩ :: requests) image = some (replies, world) ∧
      serve (⟨ctx, .init⟩ :: requests) image' = some (replies, world') := by
  have hinit : run (Request.perform ⟨ctx, .init⟩) image =
      some (.ok (.null 0), image.boot) :=
    Request.run_init rfl hcons hhealthy.1
  have hinit' : run (Request.perform ⟨ctx, .init⟩) image' =
      some (.ok (.null 0), image'.boot) :=
    Request.run_init rfl hcons' hhealthy'.1
  have hboot := htwin.boot hcons hcons' hhealthy hhealthy' hspare
  obtain ⟨replies, world, world', hserve, hserve'⟩ :=
    hboot.serve (hall.2 _ _ hinit)
  refine ⟨.ok (.null 0) :: replies, world, world', ?_, ?_⟩
  · rw [serve_cons requests hinit, hserve]
    rfl
  · rw [serve_cons requests hinit', hserve']
    rfl

/-! Two samples. -/

namespace Sample

variable (n : UInt32) (filler filler' : Block)

theorem spare : (disk n filler).Spare := by
  intro path names i hnode hreg
  rcases file_cases n filler hnode hreg with rfl | rfl
  · rw [inode_a]
    refine ⟨by decide, fun k hk => Or.inl ?_⟩
    have hcount : blockCount (fileInode 5000 5 6).length = 2 := by decide
    rw [hcount] at hk
    simp only [fileInode]
    rw [if_neg (by omega), if_neg (by omega)]
  · rw [inode_b]
    refine ⟨by decide, fun k _ => Or.inl ?_⟩
    simp only [fileInode]
    split_ifs <;> rfl

theorem content_a : fileContent (disk n filler') (fileInode 5000 5 6) =
    fileContent (disk n filler) (fileInode 5000 5 6) := by
  have hlength : (fileInode 5000 5 6).length = 5000 := by decide
  rw [fileContent, fileContent, hlength]
  refine List.map_congr_left fun p hp => ?_
  rw [List.mem_range] at hp
  rw [blockByte, blockByte]
  have hplace : p / 4096 = 0 ∨ p / 4096 = 1 ∧ p % 4096 < 904 := by omega
  rcases hplace with hblock | ⟨hblock, hbyte⟩
  · rw [hblock]
    rfl
  · rw [hblock]
    exact (if_pos hbyte).trans (if_pos hbyte).symm

/-- Samples with different fillers are twins. -/
theorem twin : Disk.Twin (disk n filler) (disk n filler') := by
  refine ⟨rfl, rfl, ?_, ?_, ?_⟩
  · intro path names i hnode
    rcases inum_cases n filler hnode with rfl | rfl | rfl | rfl
    · rw [inode_root, inode_root]
    · rw [inode_a, inode_a]
    · rw [inode_d, inode_d]
    · rw [inode_b, inode_b]
  · intro path names i hnode hdir
    rcases dir_cases n filler hnode hdir with rfl | rfl
    · rw [entries_root, entries_root]
    · rw [entries_d, entries_d]
  · intro path names i hnode hreg
    rcases file_cases n filler hnode hreg with rfl | rfl
    · rw [inode_a]
      exact content_a n filler filler'
    · rw [inode_b]
      rfl

end Sample

theorem serve_twin_sample :
    ∃ replies world world',
      serve [Sample.request .init, Sample.request (.truncate Sample.pathA 100),
          Sample.request (.write Sample.pathA [1] 100),
          Sample.request (.read Sample.pathA 200 0)]
        (Sample.world 400 zeroBlock) = some (replies, world) ∧
      serve [Sample.request .init, Sample.request (.truncate Sample.pathA 100),
          Sample.request (.write Sample.pathA [1] 100),
          Sample.request (.read Sample.pathA 200 0)]
        (Sample.world 400 fun _ => 255) = some (replies, world') := by
  refine serve_twin
    (Sample.consistent 400 zeroBlock (by decide) (by decide))
    (Sample.consistent 400 _ (by decide) (by decide))
    (Sample.healthy 400 zeroBlock) (Sample.healthy 400 _)
    (Sample.twin 400 zeroBlock _) (Sample.spare 400 zeroBlock)
    Sample.context ⟨⟨trivial, trivial⟩, fun reply world hinit => ?_⟩
  have hinit₀ : (Sample.request .init).call = .init := rfl
  have hboot := Request.run_init hinit₀
    (Sample.consistent 400 zeroBlock (by decide) (by decide))
    (Sample.healthy 400 zeroBlock).1
  rw [show run (Request.perform ⟨Sample.context, .init⟩)
    (Sample.world 400 zeroBlock) = _ from hboot] at hinit
  cases hinit
  refine ⟨⟨by decide, fun inum inode hfound _ => ?_⟩, fun _ _ _ =>
    ⟨⟨by decide, (by decide : (100 : Int) + [(1 : UInt8)].length ≤ 4169728)⟩,
      fun _ _ _ => ⟨⟨by decide, trivial⟩, fun _ _ _ => trivial⟩⟩⟩
  rw [Sample.run_pathA 400 zeroBlock (by decide) (by decide)] at hfound
  cases hfound
  decide

end Fs5600
