/-
What a call that names one path looks at before it decides, and that a change
in another directory, even a half finished one, does not show there.
-/
import Fs5600.Exchange

namespace Fs5600

open MachineWord EffectProgram Program LabelledWalk

namespace Disk

/-- A walk along names from inode `i` meets the same inodes on both disks. -/
def SameWalk (disk disk' : Disk) : Nat → List Name → Prop
  | i, [] => disk'.inode i = disk.inode i
  | i, token :: tokens => disk'.inode i = disk.inode i ∧
      ((disk.inode i).isDir = true →
        firstNamed (disk'.entries i) token =
          firstNamed (disk.entries i) token ∧
        ∀ slot, firstNamed (disk.entries i) token = some slot →
          (disk'.entries i slot).inode = (disk.entries i slot).inode ∧
          SameWalk disk disk' (disk.entries i slot).inode.toNat tokens)

variable {disk disk' : Disk} {names tokens : List Name} {i : Nat}

theorem SameWalk.refl (disk : Disk) (i : Nat) (names : List Name) :
    disk.SameWalk disk i names := by
  induction names generalizing i with
  | nil => rfl
  | cons token tokens ih =>
      exact ⟨rfl, fun _ => ⟨rfl, fun slot _ => ⟨rfl, ih _⟩⟩⟩

theorem SameWalk.start (hwalk : disk.SameWalk disk' i names) :
    disk'.inode i = disk.inode i := by
  cases names with
  | nil => exact hwalk
  | cons token tokens => exact hwalk.1

theorem SameWalk.front (hwalk : disk.SameWalk disk' i (names ++ tokens)) :
    disk.SameWalk disk' i names := by
  induction names generalizing i with
  | nil => exact hwalk.start
  | cons token names ih =>
      refine ⟨hwalk.1, fun hdir => ⟨(hwalk.2 hdir).1, fun slot hfound => ?_⟩⟩
      obtain ⟨hsame, hrest⟩ := (hwalk.2 hdir).2 slot hfound
      exact ⟨hsame, ih hrest⟩

theorem SameWalk.resolveFrom_eq (hwalk : disk.SameWalk disk' i names) :
    disk'.resolveFrom i names = disk.resolveFrom i names := by
  induction names generalizing i with
  | nil => rfl
  | cons token tokens ih =>
      rw [resolveFrom, resolveFrom, hwalk.1]
      by_cases hdir : (disk.inode i).isDir = true
      · rw [if_pos hdir, if_pos hdir, (hwalk.2 hdir).1]
        cases hfound : firstNamed (disk.entries i) token with
        | none => rfl
        | some slot =>
            obtain ⟨hsame, hrest⟩ := (hwalk.2 hdir).2 slot hfound
            simp only [hsame, ih hrest]
      · rw [if_neg hdir, if_neg hdir]

/-- The inode at the end of the walk. -/
theorem SameWalk.inode_eq (hwalk : disk.SameWalk disk' i names)
    {path : List Slot} {j : Nat}
    (hresolve : disk.resolveFrom i names = .ok (path, j)) :
    disk'.inode j = disk.inode j := by
  induction names generalizing i path with
  | nil =>
      cases hresolve
      exact hwalk
  | cons token tokens ih =>
      rw [resolveFrom] at hresolve
      split at hresolve
      next hdir =>
        cases hfound : firstNamed (disk.entries i) token with
        | none => rw [hfound] at hresolve; cases hresolve
        | some slot =>
            simp only [hfound] at hresolve
            cases hthere : disk.resolveFrom
                (disk.entries i slot).inode.toNat tokens with
            | error status => rw [hthere] at hresolve; cases hresolve
            | ok there =>
                rw [hthere] at hresolve
                cases hresolve
                exact ih ((hwalk.2 hdir).2 slot hfound).2 hthere
      next => cases hresolve

end Disk

/-- Both disks look the same to a call on the path of these names. -/
structure Sight (names : List Name) (disk disk' : Disk) : Prop where
  super : disk' 0 = disk 0
  walk : disk.SameWalk disk' 2 names
  parent : ∀ site i, disk.resolve names.dropLast = .ok (site, i) →
    disk'.entries i = disk.entries i

theorem Sight.refl (names : List Name) (disk : Disk) :
    Sight names disk disk :=
  ⟨rfl, .refl disk 2 names, fun _ _ _ => rfl⟩

section

variable {names : List Name} {disk disk' : Disk}
  (hsight : Sight names disk disk')

include hsight

theorem Sight.diskSize_eq : disk'.diskSize = disk.diskSize := by
  rw [Disk.diskSize, Disk.superblock, hsight.super, Disk.diskSize,
    Disk.superblock]

theorem Sight.resolve_eq : disk'.resolve names = disk.resolve names :=
  hsight.walk.resolveFrom_eq

theorem Sight.walk_parent : disk.SameWalk disk' 2 names.dropLast := by
  rcases List.eq_nil_or_concat names with hnil | ⟨front, name, hsnoc⟩
  · have hwalk := hsight.walk
    rw [hnil] at hwalk ⊢
    exact hwalk
  · have hwalk := hsight.walk
    rw [hsnoc, List.concat_eq_append] at hwalk ⊢
    rw [List.dropLast_concat]
    exact hwalk.front

theorem Sight.resolve_parent :
    disk'.resolve names.dropLast = disk.resolve names.dropLast :=
  hsight.walk_parent.resolveFrom_eq

theorem Sight.inode_eq {site : List Slot} {i : Nat}
    (hresolve : disk.resolve names = .ok (site, i)) :
    disk'.inode i = disk.inode i := hsight.walk.inode_eq hresolve

theorem Sight.parent_inode {site : List Slot} {i : Nat}
    (hresolve : disk.resolve names.dropLast = .ok (site, i)) :
    disk'.inode i = disk.inode i := hsight.walk_parent.inode_eq hresolve

end

/-- The calls that claim or give back blocks for one path. -/
def Call.Claims : Call → Prop
  | .create _ _ | .mkdir _ _ | .unlink _ | .write _ _ _ => True
  | _ => False

/-- Worlds that look the same to a call, with the same bitmap, make it decide
alike. -/
theorem Sight.plan_eq {world world' : World} {request : Request}
    (hclaims : request.call.Claims)
    (hsight : Sight request.call.subject world.disk world'.disk)
    (hmap : world'.globals.bitmap = world.globals.bitmap) :
    request.plan world' = request.plan world := by
  have hcreate : ∀ ctx (path : CString) mode dirflag,
      Sight (parse path) world.disk world'.disk →
      world'.planCreate ctx path mode dirflag =
        world.planCreate ctx path mode dirflag := by
    intro ctx path mode dirflag hsight
    rw [World.planCreate, World.planCreate, hsight.resolve_parent]
    cases hparent : world.disk.resolve (parse path).dropLast with
    | error status => rfl
    | ok there =>
        simp only [hsight.parent_inode hparent, hsight.parent _ _ hparent,
          hsight.diskSize_eq, hmap]
  obtain ⟨ctx, call⟩ := request
  cases call with
  | create path mode => exact hcreate ctx path mode false hsight
  | mkdir path mode => exact hcreate ctx path mode true hsight
  | unlink path =>
      have hsight : Sight (parse path) world.disk world'.disk := hsight
      simp only [Request.plan, World.planUnlink, hsight.resolve_eq]
      cases hresolve : world.disk.resolve (parse path) with
      | error status => rfl
      | ok there =>
          simp only [hsight.inode_eq hresolve, World.planRemove,
            hsight.resolve_parent]
          cases hparent : world.disk.resolve (parse path).dropLast with
          | error status => rfl
          | ok site => simp only [hsight.parent _ _ hparent]
  | write path buf offset =>
      have hsight : Sight (parse path) world.disk world'.disk := hsight
      simp only [Request.plan, World.planWrite, hsight.resolve_eq]
      cases hresolve : world.disk.resolve (parse path) with
      | error status => rfl
      | ok there =>
          simp only [hsight.inode_eq hresolve, hsight.diskSize_eq, hmap]
  | init | getattr | readdir | rmdir | rename | chmod | utime | truncate
  | read | statfs => cases hclaims

/-! Changes in another directory. -/

/-- The only entry of a name is the one that is found. -/
theorem firstNamed_of_only {dir : Directory} {name : Name} {slot : Slot}
    (hvalid : (dir slot).valid = true) (hname : (dir slot).nameString = name)
    (honly : ∀ slot', (dir slot').valid = true →
      (dir slot').nameString = name → slot' = slot) :
    firstNamed dir name = some slot := by
  cases hfound : firstNamed dir name with
  | none => exact absurd hname (firstNamed_eq_none.mp hfound slot hvalid)
  | some slot' =>
      obtain ⟨hvalid', hname'⟩ := firstNamed_eq_some hfound
      rw [honly slot' hvalid' hname']

/-- Another entry may change as long as it does not take the name. -/
theorem DirectoryOk.firstNamed_update {dir : Directory}
    (hdir : DirectoryOk dir) {name : Name} {slot slot' : Slot}
    (hfound : firstNamed dir name = some slot) (hne : slot ≠ slot')
    {entry : FsDirent}
    (hoff : entry.valid = true → entry.nameString ≠ name) :
    firstNamed (Function.update dir slot' entry) name = some slot := by
  obtain ⟨hvalid, hname⟩ := firstNamed_eq_some hfound
  have hself : Function.update dir slot' entry slot = dir slot :=
    Function.update_of_ne hne _ _
  refine firstNamed_of_only (by rw [hself, hvalid]) (by rw [hself, hname])
    fun other hother hsame => ?_
  by_cases hslot : other = slot'
  · rw [hslot, Function.update_self] at hother hsame
    exact absurd hsame (hoff hother)
  · rw [Function.update_of_ne hslot] at hother hsame
    exact hdir.distinct other slot hother hvalid (hsame.trans hname.symm)

/-- The directory in which a change creates, removes or writes. -/
def Change.home : Change → List Slot
  | .write path _ _ _ _ _ | .attributes path _ _ | .shrink path _ _ =>
      path.dropLast
  | .relabel path _ _ _ | .insert path _ _ _ _ _ _ | .remove path _ _ _ =>
      path

/-- The change does not remove a directory. -/
def Change.SparesDirs (disk : Disk) : Change → Prop
  | .remove _ inum slot _ =>
      (disk.inode (disk.child inum slot)).isDir = false
  | _ => True

/-- A disk on which a part of a change is done. -/
structure Change.Partly (change : Change) (disk disk' : Disk) : Prop where
  kept : ∀ b, Marked (disk 1) b → b ≠ 1 → ¬ change.Rewrites disk b →
    disk' b = disk b
  entry : ∀ path inum slot entry,
    change.rewrittenEntry disk = some (path, inum, slot, entry) →
      disk' ((disk.inode inum).ptr 0) = disk ((disk.inode inum).ptr 0) ∨
      disk' ((disk.inode inum).ptr 0) =
        Directory.encode (Function.update (disk.entries inum) slot entry)

section

variable {world : World} (hmount : Mounted world) {names : List Name}
  {change : Change} (hvalid : change.Valid world names) {disk' : Disk}
  (hpartly : change.Partly world.disk disk')

include hmount hvalid hpartly

theorem Change.Partly.held_eq {key : List Slot × Role} {b : Nat}
    (hheld : world.disk.holder key = some b) (hoff : ¬ change.Touches key) :
    disk' b = world.disk b := by
  obtain ⟨hlow, -, hmarked⟩ := hmount.consistent.range key b hheld
  refine hpartly.kept b hmarked (by omega) fun hrw => ?_
  obtain ⟨key', htouches, hheld'⟩ := rewrites_held hvalid hrw
  rw [hmount.consistent.exclusive _ _ _ hheld hheld'] at hoff
  exact hoff htouches

/-- No inode of a directory changes. -/
theorem Change.Partly.dir_inode {q : List Slot} {names' : List Name}
    {j : Nat} (hacting : change.Acting)
    (hnode : world.disk.node q = some (names', j))
    (hdir : (world.disk.inode j).isDir = true) :
    disk'.inode j = world.disk.inode j := by
  refine Disk.inode_congr (hpartly.held_eq hmount hvalid
    (Disk.holder_inode hnode) fun htouches => ?_)
  cases change with
  | insert | remove => cases htouches
  | write path inum offset buf mtime fresh =>
      have hpath : path = q := htouches.1.symm
      have hself := hvalid.node
      rw [hpath, hnode] at hself
      cases hself
      have hreg := hvalid.isReg
      rw [FsInode.isReg, sIsReg_of_sIsDir hdir] at hreg
      cases hreg
  | attributes | relabel | shrink => cases hacting

/-- Nor do the entries of a directory other than the home of the change. -/
theorem Change.Partly.dir_entries {q : List Slot} {names' : List Name}
    {j : Nat} (hacting : change.Acting)
    (hnode : world.disk.node q = some (names', j))
    (hdir : (world.disk.inode j).isDir = true) (hhome : change.home ≠ q) :
    disk'.entries j = world.disk.entries j := by
  have hinode := hpartly.dir_inode hmount hvalid hacting hnode hdir
  refine Disk.entries_congr (by rw [hinode]) (hpartly.held_eq hmount hvalid
    (Disk.holder_entries hnode hdir) fun htouches => ?_)
  cases change with
  | insert | remove =>
      cases htouches
      exact hhome rfl
  | write => exact htouches.2 rfl
  | attributes | relabel | shrink => cases hacting

/-- A directory is found under its name as before. -/
theorem Change.Partly.lookup {q : List Slot} {names' : List Name} {j : Nat}
    (hacting : change.Acting) (hspares : change.SparesDirs world.disk)
    (hnode : world.disk.node q = some (names', j))
    (hdir : (world.disk.inode j).isDir = true) {token : Name} {slot : Slot}
    (hfound : firstNamed (world.disk.entries j) token = some slot)
    (hchild : (world.disk.inode (world.disk.child j slot)).isDir = true) :
    firstNamed (disk'.entries j) token = some slot ∧
      disk'.entries j slot = world.disk.entries j slot := by
  by_cases hhome : change.home = q
  · have hinode := hpartly.dir_inode hmount hvalid hacting hnode hdir
    have hok := (hmount.consistent.object _ _ _ hnode).names hdir
    have hvalidSlot := (firstNamed_eq_some hfound).1
    have hupdate : ∀ inum slot' entry, inum = j → slot ≠ slot' →
        (entry.valid = true → entry.nameString ≠ token) →
        change.rewrittenEntry world.disk = some (q, inum, slot', entry) →
        firstNamed (disk'.entries j) token = some slot ∧
          disk'.entries j slot = world.disk.entries j slot := by
      rintro inum slot' entry rfl hne hoff hview
      rcases hpartly.entry q inum slot' entry hview with hold | hnew
      · have hentries : disk'.entries inum = world.disk.entries inum :=
          Disk.entries_congr (by rw [hinode]) hold
        rw [hentries]
        exact ⟨hfound, rfl⟩
      · have hentries : disk'.entries inum = Function.update
            (world.disk.entries inum) slot' entry := by
          rw [Disk.entries, hinode, hnew, Directory.decode_encode]
        rw [hentries, Function.update_of_ne hne]
        exact ⟨hok.firstNamed_update hfound hne hoff, rfl⟩
    cases change with
    | insert path inum slot' name inode dirflag blocks =>
        have hsame := hvalid.node
        rw [show path = q from hhome, hnode] at hsame
        cases hsame
        have hne : slot ≠ slot' := by
          rintro rfl
          rw [hvalid.free] at hvalidSlot
          cases hvalidSlot
        refine hupdate j slot' _ rfl hne (fun _ hname => ?_)
          (show _ = _ by rw [← show path = q from hhome]; rfl)
        have hnew := nameString_strncpy
          ((world.disk.entries j slot').occupied (blocks.getD 0 0) name)
          _ name hvalid.name.valid (hok.last_zero slot') rfl
        rw [hnew] at hname
        have hfresh := hvalid.name.fresh
        rw [hname, hfound] at hfresh
        cases hfresh
    | remove path inum slot' blocks =>
        have hsame := hvalid.entry.node
        rw [show path = q from hhome, hnode] at hsame
        cases hsame
        have hne : slot ≠ slot' := by
          rintro rfl
          rw [SparesDirs, hchild] at hspares
          cases hspares
        exact hupdate j slot' _ rfl hne Bool.noConfusion
          (show _ = _ by rw [← show path = q from hhome]; rfl)
    | write path inum offset buf mtime fresh =>
        have hentries : disk'.entries j = world.disk.entries j :=
          Disk.entries_congr (by rw [hinode]) (hpartly.held_eq hmount hvalid
            (Disk.holder_entries hnode hdir) fun htouches => htouches.2 rfl)
        rw [hentries]
        exact ⟨hfound, rfl⟩
    | attributes | relabel | shrink => cases hacting
  · rw [hpartly.dir_entries hmount hvalid hacting hnode hdir hhome]
    exact ⟨hfound, rfl⟩

/-- A walk that ends in another directory, or on an object there, does not
meet the change. -/
theorem Change.Partly.sameWalk (hacting : change.Acting)
    (hspares : change.SparesDirs world.disk) {tokens : List Name}
    {q rest : List Slot} {front : List Name} {i j : Nat}
    (hnode : world.disk.node q = some (front, i))
    (hresolve : world.disk.resolveFrom i tokens.dropLast = .ok (rest, j))
    (hdir : (world.disk.inode j).isDir = true)
    (hhome : change.home ≠ q ++ rest) :
    world.disk.SameWalk disk' i tokens := by
  induction tokens generalizing q front i rest with
  | nil =>
      cases hresolve
      exact hpartly.dir_inode hmount hvalid hacting hnode hdir
  | cons token tokens ih =>
      cases tokens with
      | nil =>
          cases hresolve
          rw [List.append_nil] at hhome
          have hinode := hpartly.dir_inode hmount hvalid hacting hnode hdir
          have hentries := hpartly.dir_entries hmount hvalid hacting hnode
            hdir hhome
          refine ⟨hinode, fun _ => ⟨by rw [hentries], fun slot hfound => ?_⟩⟩
          have hchild := Disk.node_child hnode
            (Disk.edge_of_firstNamed hdir hfound)
          refine ⟨by rw [hentries], Disk.inode_congr
            (hpartly.held_eq hmount hvalid (Disk.holder_inode hchild)
              fun htouches => ?_)⟩
          cases change with
          | insert | remove => cases htouches
          | write path inum offset buf mtime fresh =>
              have hpath : path = q ++ [slot] := htouches.1.symm
              rw [home, hpath, List.dropLast_concat] at hhome
              exact hhome rfl
          | attributes | relabel | shrink => cases hacting
      | cons token' tokens =>
          rw [List.dropLast_cons_cons, Disk.resolveFrom] at hresolve
          split at hresolve
          next hhere =>
            cases hfound : firstNamed (world.disk.entries i) token with
            | none => rw [hfound] at hresolve; cases hresolve
            | some slot =>
                simp only [hfound] at hresolve
                cases hthere : world.disk.resolveFrom
                    (world.disk.entries i slot).inode.toNat
                    (token' :: tokens).dropLast with
                | error status => rw [hthere] at hresolve; cases hresolve
                | ok there =>
                    rw [hthere] at hresolve
                    cases hresolve
                    have hchild := Disk.node_child hnode
                      (Disk.edge_of_firstNamed hhere hfound)
                    have hchildDir : (world.disk.inode
                        (world.disk.child i slot)).isDir = true := by
                      cases tokens with
                      | nil => cases hthere; exact hdir
                      | cons =>
                          rw [List.dropLast_cons_cons, Disk.resolveFrom]
                            at hthere
                          split at hthere
                          next hisDir => exact hisDir
                          next => cases hthere
                    obtain ⟨hlookup, hslot⟩ := hpartly.lookup hmount hvalid
                      hacting hspares hnode hhere hfound hchildDir
                    refine ⟨hpartly.dir_inode hmount hvalid hacting hnode
                      hhere, fun _ => ⟨by rw [hlookup, hfound],
                        fun slot' hfound' => ?_⟩⟩
                    rw [hfound] at hfound'
                    cases hfound'
                    refine ⟨by rw [hslot], ih hchild hthere ?_⟩
                    rw [List.append_assoc]
                    exact hhome
          next => cases hresolve

/-- A call in another directory sees nothing of a change. -/
theorem Change.Partly.sight (hacting : change.Acting)
    (hspares : change.SparesDirs world.disk) {names' : List Name}
    {site : List Slot} {i : Nat}
    (hresolve : world.disk.resolve names'.dropLast = .ok (site, i))
    (hdir : (world.disk.inode i).isDir = true)
    (hhome : change.home ≠ site) : Sight names' world.disk disk' := by
  refine ⟨?_, hpartly.sameWalk hmount hvalid hacting hspares
    Disk.node_nil hresolve hdir hhome, fun site' i' hsite => ?_⟩
  · refine hpartly.kept 0 (hmount.consistent.reserved 0 (by omega))
      (by omega) fun hrw => ?_
    have hle := two_le_of_rewrites hmount hvalid hrw
    omega
  · rw [hresolve] at hsite
    cases hsite
    exact hpartly.dir_entries hmount hvalid hacting
      (Disk.node_of_resolve hresolve) hdir hhome

end

/-- Whatever a change has done so far, the disk is one on which a part of it
is done. -/
theorem Change.partly {world state : World} (hmount : Mounted world)
    {names : List Name} {change : Change} (hvalid : change.Valid world names)
    {did todo : List Act} (hacts : did ++ todo = change.acts world.disk)
    (hstate : state.sansMap = (applyActs did world).sansMap) :
    change.Partly world.disk state.disk := by
  have hmem : ∀ act, act ∈ did → act ∈ change.acts world.disk := by
    intro act hdid
    rw [← hacts]
    exact List.mem_append_left todo hdid
  refine ⟨fun b hmarked hone hkept => ?_,
    fun path inum slot entry hview => ?_⟩
  · rw [World.disk_of_sansMap hstate hone]
    refine applyActs_disk_of_notMem hone (fun buf hdid => ?_) world
    rcases put_cases hmount hvalid (hmem _ hdid) with htaken | ⟨hrw, -⟩
    · exact (taken_free hmount hvalid htaken).2.2 hmarked
    · exact hkept hrw
  · have hheld : ∃ key, world.disk.holder key =
        some ((world.disk.inode inum).ptr 0) := by
      cases change with
      | relabel =>
          cases hview
          exact ⟨_, Disk.holder_entries hvalid.1.node hvalid.1.isDir⟩
      | insert =>
          cases hview
          exact ⟨_, Disk.holder_entries hvalid.node hvalid.isDir⟩
      | remove =>
          cases hview
          exact ⟨_, Disk.holder_entries hvalid.entry.node
            hvalid.entry.isDir⟩
      | attributes | shrink | write => cases hview
    obtain ⟨key, hkey⟩ := hheld
    obtain ⟨hlow, -, hmarked⟩ := hmount.consistent.range key _ hkey
    have hone : (world.disk.inode inum).ptr 0 ≠ 1 := by omega
    rw [World.disk_of_sansMap hstate hone]
    rcases applyActs_disk hone did world with hsame | ⟨buf, hdid, hbuf⟩
    · exact Or.inl hsame
    · rcases put_cases hmount hvalid (hmem _ hdid) with htaken | ⟨-, hentry⟩
      · exact absurd hmarked (taken_free hmount hvalid htaken).2.2
      · exact Or.inr (hbuf.trans (hentry path inum slot entry hview))

end Fs5600
