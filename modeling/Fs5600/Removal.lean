/-
When `fs_rmdir` tells empty directories from others: `check_dir_empty` looks
only at the position of the first free entry.  And `fs_unlink`, which does not
tell directories from files.
-/
import Fs5600.Accounting

namespace Fs5600

open MachineWord EffectProgram Program LabelledWalk

/-- `fs_rmdir` succeeds on empty directories only, refuses the others, and
its success cuts off no object but the directory `inum`. -/
structure RmdirExact (world : World) (path : CString) (inum : Int)
    (dir : Directory) : Prop where
  succeeds : (∃ world', run (fsRmdir path) world = some (.ok 0, world')) ↔
    ∀ slot, (dir slot).valid = false
  refuses : (∃ slot, (dir slot).valid = true) →
    run (fsRmdir path) world = some (.error (-eNotEmpty), world)
  keeps : ∀ world', run (fsRmdir path) world = some (.ok 0, world') →
    ∀ site names i, world.disk.node site = some (names, i) → i ≠ inum →
      ∃ site' names', world'.disk.node site' = some (names', i)

section

variable {world : World} {path : CString} (hne : parse path ≠ [])
  {site : List Slot} {inum : Nat}
  (hresolve : world.disk.resolve (parse path) = .ok (site, inum))
  (hdir : (world.disk.inode inum).isDir = true)

include hresolve hdir

theorem World.planRmdir_eq :
    world.planRmdir path =
      match firstInvalid (world.disk.entries inum) 0 with
      | none => .error (-eNoSpc)
      | some slot =>
          if slot ≠ 0 then .error (-eNotEmpty)
          else world.planRemove path
            [inum, (world.disk.inode inum).ptr 0] := by
  cases hfree : firstInvalid (world.disk.entries inum) 0 <;>
    simp only [planRmdir, hresolve, hdir, hfree, not_true_eq_false,
      ↓reduceIte]

/-- A free entry behind slot 0 lets `fs_rmdir` refuse. -/
theorem World.planRmdir_notEmpty
    (hfirst : (world.disk.entries inum 0).valid = true)
    (hsome : ∃ slot, (world.disk.entries inum slot).valid = false) :
    world.planRmdir path = .error (-eNotEmpty) := by
  rw [planRmdir_eq hresolve hdir]
  cases hfree : firstInvalid (world.disk.entries inum) 0 with
  | none =>
      obtain ⟨slot, hslot⟩ := hsome
      rw [firstInvalid_eq_none.mp hfree slot] at hslot
      cases hslot
  | some slot =>
      refine if_pos ?_
      rintro rfl
      rw [firstInvalid_eq_some hfree] at hfirst
      cases hfirst

/-- In a full directory there is no free entry to look at. -/
theorem World.planRmdir_full
    (hall : ∀ slot, (world.disk.entries inum slot).valid = true) :
    world.planRmdir path = .error (-eNoSpc) := by
  rw [planRmdir_eq hresolve hdir, firstInvalid_eq_none.mpr hall]

include hne

/-- With slot 0 free the directory is removed. -/
theorem World.planRmdir_zero
    (hfree : (world.disk.entries inum 0).valid = false) :
    ∃ parent pinum slot blocks,
      world.planRmdir path = .ok (.remove parent pinum slot blocks) ∧
      site = parent ++ [slot] ∧ inum = world.disk.child pinum slot := by
  obtain ⟨parent, pinum, slot, -, -, heq, hplan⟩ :=
    planRemove_eq hne hresolve
  rw [planRmdir_eq hresolve hdir, firstInvalid_zero hfree]
  cases heq
  exact ⟨parent, pinum, slot, _, hplan _, rfl, rfl⟩

end

/-- Removing an object without entries leaves every other object in the
graph. -/
theorem Change.remove_keeps {world : World} (hmount : Mounted world)
    {parent : List Slot} {pinum : Nat} {slot : Slot} {blocks : List Nat}
    {names : List Name}
    (hvalid : Change.Valid world names (.remove parent pinum slot blocks))
    (hleafy : ∀ slot',
      world.disk.edge (world.disk.child pinum slot) slot' = none)
    {site : List Slot} {names' : List Name} {i : Nat}
    (hnode : world.disk.node site = some (names', i))
    (hother : i ≠ world.disk.child pinum slot) :
    (Change.apply (.remove parent pinum slot blocks) world).disk.node site =
      some (names', i) := by
  obtain ⟨hrw, -⟩ := Change.entryRewrite hmount hvalid
    (Change.apply_shows hmount hvalid) rfl
  by_cases hsite : parent ++ [slot] <+: site
  · obtain ⟨tail, rfl⟩ := hsite
    have hedge := Disk.edge_eq_some.mpr
      ⟨hvalid.entry.isDir, hvalid.entry.valid, rfl⟩
    rw [Disk.node_behind hvalid.entry.node, hedge, Option.bind_some] at hnode
    cases tail with
    | nil =>
        cases hnode
        exact absurd rfl hother
    | cons slot' tail =>
        rw [walk_cons, show world.disk.edge
          (world.disk.entries pinum slot).inode.toNat slot' = none
            from hleafy slot'] at hnode
        cases hnode
  · rw [hrw.node_eq hsite]
    exact hnode

/-- `fs_rmdir` is exact on the directories that are empty, and on those whose
first entry is valid and another one is not. -/
theorem rmdir_exact_iff {world : World} (hreach : Reachable world)
    {path : CString} (hne : components path ≠ []) {inum : Int}
    {inode : FsInode}
    (hfound : run (pathToInode path 0) world =
      some (.ok (inum, inode), world))
    (hdir : sIsDir inode.mode = true) :
    RmdirExact world path inum (.decode (world.disk (inode.ptr 0))) ↔
      (∀ slot, (Directory.decode
        (world.disk (inode.ptr 0)) slot).valid = false) ∨
      ((Directory.decode (world.disk (inode.ptr 0)) 0).valid = true ∧
        ∃ slot, (Directory.decode
          (world.disk (inode.ptr 0)) slot).valid = false) := by
  have hsteady := hreach.steady
  have hmount := hsteady.toMounted
  have hparse := parse_ne_nil hne
  obtain ⟨site, i, hresolve, rfl, rfl, -⟩ := hmount.resolve_of_run hfound
  change RmdirExact world path i (world.disk.entries i) ↔
    (∀ slot, (world.disk.entries i slot).valid = false) ∨
      ((world.disk.entries i 0).valid = true ∧
        ∃ slot, (world.disk.entries i slot).valid = false)
  have hrun := hsteady.run_follows (hmount.follows_rmdir hparse)
  cases hzero : (world.disk.entries i 0).valid with
  | true =>
      by_cases hsome : ∃ slot, (world.disk.entries i slot).valid = false
      · rw [World.planRmdir_notEmpty hresolve hdir hzero hsome] at hrun
        refine iff_of_true ⟨?_, fun _ => hrun, ?_⟩ (Or.inr ⟨rfl, hsome⟩)
        · refine iff_of_false ?_ fun hempty => ?_
          · rintro ⟨world', hok⟩
            rw [hrun] at hok
            cases hok
          · rw [hempty 0] at hzero
            cases hzero
        · intro world' hok
          rw [hrun] at hok
          cases hok
      · have hall : ∀ slot, (world.disk.entries i slot).valid = true := by
          simpa using hsome
        rw [World.planRmdir_full hresolve hdir hall] at hrun
        refine iff_of_false ?_ ?_
        · rintro ⟨-, hrefuses, -⟩
          have hwrong := hrefuses ⟨0, hzero⟩
          rw [hrun] at hwrong
          cases hwrong
        · rintro (hempty | ⟨-, hfree⟩)
          · rw [hempty 0] at hzero
            cases hzero
          · exact hsome hfree
  | false =>
      obtain ⟨parent, pinum, slot, blocks, hplan, rfl, rfl⟩ :=
        World.planRmdir_zero hparse hresolve hdir hzero
      obtain ⟨names, hvalid, -⟩ := World.planRmdir_planned hmount hparse hplan
      rw [hplan] at hrun
      by_cases hempty : ∀ slot', (world.disk.entries
          (world.disk.child pinum slot) slot').valid = false
      · refine iff_of_true ⟨?_, ?_, ?_⟩ (Or.inl hempty)
        · exact iff_of_true ⟨_, hrun⟩ hempty
        · rintro ⟨slot', hused⟩
          rw [hempty slot'] at hused
          cases hused
        · intro world' hok site names' j hnode hother
          rw [hrun] at hok
          cases hok
          have hleafy : ∀ slot', world.disk.edge
              (world.disk.child pinum slot) slot' = none := by
            intro slot'
            rw [Disk.edge, hempty slot']
            exact if_neg fun hboth => Bool.false_ne_true hboth.2
          exact ⟨site, names', Change.remove_keeps hmount hvalid hleafy hnode
            fun heq => hother (congrArg Nat.cast heq)⟩
      · refine iff_of_false ?_ ?_
        · rintro ⟨hsucceeds, -, -⟩
          exact hempty (hsucceeds.mp ⟨_, hrun⟩)
        · rintro (hall | ⟨hused, -⟩)
          · exact hempty hall
          · cases hused

theorem rmdir_exact_iff_sample :
    RmdirExact (Sample.world 400 zeroBlock).boot Sample.pathD 7
        (.decode ((Sample.world 400 zeroBlock).boot.disk
          ((Sample.directoryInode 8).ptr 0))) ↔
      (∀ slot, (Directory.decode ((Sample.world 400 zeroBlock).boot.disk
        ((Sample.directoryInode 8).ptr 0)) slot).valid = false) ∨
      ((Directory.decode ((Sample.world 400 zeroBlock).boot.disk
          ((Sample.directoryInode 8).ptr 0)) 0).valid = true ∧
        ∃ slot, (Directory.decode ((Sample.world 400 zeroBlock).boot.disk
          ((Sample.directoryInode 8).ptr 0)) slot).valid = false) :=
  rmdir_exact_iff
    (Sample.reachable 400 zeroBlock (by decide) (by decide)) (by decide)
    (Sample.run_pathD 400 zeroBlock (by decide) (by decide))
    (Sample.directoryInode_isDir 8)

/-- The only entry of the sample's `d` lies in slot 1, and `fs_rmdir` removes
`d`. -/
theorem rmdir_removes_nonempty :
    ¬ ∀ world path inum inode, Reachable world → components path ≠ [] →
      (components path).length ≤ 10 →
      run (pathToInode path 0) world = some (.ok (inum, inode), world) →
      sIsDir inode.mode = true →
      RmdirExact world path inum (.decode (world.disk (inode.ptr 0))) := by
  intro hall
  have hsteady := Sample.steady 400 zeroBlock (by decide) (by decide)
  have hresolve := Sample.resolve_d 400 zeroBlock (by decide) (by decide)
  have hne : parse Sample.pathD ≠ [] := by decide
  have hentries := Sample.entries_d 400 zeroBlock
  have hdir : ((Sample.world 400 zeroBlock).boot.disk.inode 7).isDir =
      true := by
    rw [show (Sample.world 400 zeroBlock).boot.disk.inode 7 =
      Sample.directoryInode 8 from Sample.inode_d 400 zeroBlock]
    exact Sample.directoryInode_isDir 8
  have hfree : ((Sample.world 400 zeroBlock).boot.disk.entries 7 0).valid =
      false := by
    rw [show (Sample.world 400 zeroBlock).boot.disk.entries 7 =
      Sample.subDirectory from hentries]
    decide
  obtain ⟨_, _, _, _, hplan, -⟩ :=
    World.planRmdir_zero hne hresolve hdir hfree
  have hrun := hsteady.run_follows (hsteady.toMounted.follows_rmdir hne)
  rw [hplan] at hrun
  have hexact := hall _ _ _ _
    (Sample.reachable 400 zeroBlock (by decide) (by decide)) (by decide)
    (by decide) (Sample.run_pathD 400 zeroBlock (by decide) (by decide))
    (Sample.directoryInode_isDir 8)
  have hempty : (Sample.subDirectory 1).valid = false := by
    rw [← hentries]
    exact hexact.succeeds.mp ⟨_, hrun⟩ 1
  exact absurd hempty (by decide)

/-! Unlinking a directory. -/

/-- `fs_unlink` refuses the directory `inum` and changes nothing, and a
success leaves the directory in the graph. -/
structure UnlinkSpares (world : World) (path : CString) (inum : Int) :
    Prop where
  refuses : run (fsUnlink path) world = some (.error (-eIsDir), world)
  keeps : ∀ world', run (fsUnlink path) world = some (.ok 0, world') →
    ∃ site names i, world'.disk.node site = some (names, i) ∧ i = inum

/-- After a removal the removed inode is nowhere in the graph. -/
theorem Change.remove_unreachable {world : World} (hmount : Mounted world)
    {parent : List Slot} {pinum : Nat} {slot : Slot} {blocks : List Nat}
    {names : List Name}
    (hvalid : Change.Valid world names (.remove parent pinum slot blocks))
    (site : List Slot) (names' : List Name) :
    (Change.apply (.remove parent pinum slot blocks) world).disk.node site ≠
      some (names', world.disk.child pinum slot) := by
  intro hnode
  obtain ⟨hrw, hentries⟩ := Change.entryRewrite hmount hvalid
    (Change.apply_shows hmount hvalid) rfl
  have hself := congrFun hentries slot
  rw [Function.update_self] at hself
  by_cases hsite : parent ++ [slot] <+: site
  · rw [hrw.node_removed (by rw [hself]) hsite] at hnode
    cases hnode
  · rw [hrw.node_eq hsite] at hnode
    have hchild := Disk.node_child hvalid.entry.node
      (Disk.edge_eq_some.mpr ⟨hvalid.entry.isDir, hvalid.entry.valid, rfl⟩)
    have hkeys := hmount.consistent.exclusive _ _ _
      (Disk.holder_inode hnode) (Disk.holder_inode hchild)
    obtain rfl : site = parent ++ [slot] := congrArg Prod.fst hkeys
    exact hsite List.prefix_rfl

theorem World.planUnlink_removes {world : World} {path : CString}
    (hne : parse path ≠ []) {site : List Slot} {inum : Nat}
    (hresolve : world.disk.resolve (parse path) = .ok (site, inum)) :
    ∃ parent pinum slot blocks,
      world.planUnlink path = .ok (.remove parent pinum slot blocks) ∧
      site = parent ++ [slot] ∧ inum = world.disk.child pinum slot := by
  obtain ⟨parent, pinum, slot, -, -, hthere, hplan⟩ :=
    planRemove_eq hne hresolve
  cases hthere
  simp only [planUnlink, hresolve, hplan]
  exact ⟨parent, pinum, slot, _, rfl, rfl, rfl⟩

/-- `fs_unlink` never spares a directory: it returns 0 and cuts the directory
off, with whatever lies below it. -/
theorem unlink_never_spares {world : World} (hreach : Reachable world)
    {path : CString} (hne : components path ≠ []) {inum : Int}
    {inode : FsInode}
    (hfound : run (pathToInode path 0) world =
      some (.ok (inum, inode), world))
    (hdir : sIsDir inode.mode = true) :
    ¬ UnlinkSpares world path inum ∧
      ∃ world' i, run (fsUnlink path) world = some (.ok 0, world') ∧
        inum = (i : Nat) ∧ (world.disk.inode i).isDir = true ∧
        ∀ site names, world'.disk.node site ≠ some (names, i) := by
  have hsteady := hreach.steady
  have hmount := hsteady.toMounted
  have hparse := parse_ne_nil hne
  obtain ⟨target, i, hresolve, rfl, rfl, -⟩ := hmount.resolve_of_run hfound
  obtain ⟨parent, pinum, slot, blocks, hplan, rfl, rfl⟩ :=
    World.planUnlink_removes hparse hresolve
  obtain ⟨names, hvalid, -⟩ := World.planUnlink_planned hmount hparse hplan
  have hrun := hsteady.run_follows (hmount.follows_unlink hparse)
  rw [hplan] at hrun
  refine ⟨?_, _, _, hrun, rfl, hdir, fun site names' =>
    Change.remove_unreachable hmount hvalid site names'⟩
  rintro ⟨hrefuses, -⟩
  rw [hrun] at hrefuses
  cases hrefuses

theorem unlink_never_spares_sample :
    ¬ UnlinkSpares (Sample.world 400 zeroBlock).boot Sample.pathD 7 ∧
      ∃ world' i, run (fsUnlink Sample.pathD)
          (Sample.world 400 zeroBlock).boot = some (.ok 0, world') ∧
        (7 : Int) = (i : Nat) ∧
        ((Sample.world 400 zeroBlock).boot.disk.inode i).isDir = true ∧
        ∀ site names, world'.disk.node site ≠ some (names, i) :=
  unlink_never_spares
    (Sample.reachable 400 zeroBlock (by decide) (by decide)) (by decide)
    (Sample.run_pathD 400 zeroBlock (by decide) (by decide))
    (Sample.directoryInode_isDir 8)

/-- The sample's `d`, which holds a file, is unlinked. -/
theorem unlink_removes_directory :
    ¬ ∀ world path inum inode, Reachable world → components path ≠ [] →
      (components path).length ≤ 10 →
      run (pathToInode path 0) world = some (.ok (inum, inode), world) →
      sIsDir inode.mode = true → UnlinkSpares world path inum := by
  intro hall
  have hspares := hall _ _ _ _
    (Sample.reachable 400 zeroBlock (by decide) (by decide)) (by decide)
    (by decide) (Sample.run_pathD 400 zeroBlock (by decide) (by decide))
    (Sample.directoryInode_isDir 8)
  have hreply : (run (fsUnlink Sample.pathD)
      (Sample.world 400 zeroBlock).boot).map Prod.fst = some (.ok 0) := by
    decide +kernel
  rw [hspares.refuses] at hreply
  cases hreply

end Fs5600
