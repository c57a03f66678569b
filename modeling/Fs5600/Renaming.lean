/-
`fs_rename`: when it is refused, and where every path leads after it.
-/
import Fs5600.Listing

namespace Fs5600

open MachineWord EffectProgram Program

/-! Lookups in two graphs that differ in one entry. -/

namespace Disk

variable {disk disk' : Disk}

theorem resolveFrom_append {i : Nat} {names : List Name}
    {site : List Slot} {j : Nat}
    (hresolve : disk.resolveFrom i names = .ok (site, j))
    (more : List Name) :
    disk.resolveFrom i (names ++ more) =
      (disk.resolveFrom j more).map
        fun there => (site ++ there.1, there.2) := by
  induction names generalizing i site with
  | nil =>
      cases hresolve
      rw [List.nil_append]
      cases disk.resolveFrom j more <;> rfl
  | cons token tokens ih =>
      rw [resolveFrom] at hresolve
      rw [List.cons_append, resolveFrom]
      split at hresolve
      next hdir =>
        rw [if_pos hdir]
        cases hfound : firstNamed (disk.entries i) token with
        | none => rw [hfound] at hresolve; cases hresolve
        | some slot =>
            rw [hfound] at hresolve
            dsimp only at hresolve ⊢
            cases hrest : disk.resolveFrom (disk.entries i slot).inode.toNat
                tokens with
            | error status => rw [hrest] at hresolve; cases hresolve
            | ok there =>
                rw [hrest] at hresolve
                cases hresolve
                rw [ih hrest]
                cases disk.resolveFrom there.2 more <;> rfl
      next hdir => cases hresolve

section

variable {path : List Slot} {names : List Name} {i : Nat} {slot : Slot}
  (hrw : EntryRewrite disk disk' path names i slot) {hidden : Name → Prop}
  (hsame : ∀ token, ¬ hidden token →
    firstNamed (disk'.entries i) token = firstNamed (disk.entries i) token ∧
      firstNamed (disk.entries i) token ≠ some slot)

include hrw hsame

/-- A lookup that asks the rewritten directory for no hidden name finds what
it found before. -/
theorem EntryRewrite.resolveFrom_eq {q : List Slot} {names' : List Name}
    {j : Nat} (hq : disk.node q = some (names', j)) (tokens : List Name)
    (hoff : ∀ front token, names' ++ front = names →
      front ++ [token] <+: tokens → ¬ hidden token) :
    disk'.resolveFrom j tokens = disk.resolveFrom j tokens := by
  induction tokens generalizing q names' j with
  | nil => rfl
  | cons token tokens ih =>
      rw [resolveFrom, resolveFrom, hrw.inode_eq hq]
      by_cases hdir : (disk.inode j).isDir = true
      · rw [if_pos hdir, if_pos hdir]
        have hentries : firstNamed (disk'.entries j) token =
            firstNamed (disk.entries j) token ∧
              ∀ slot', firstNamed (disk.entries j) token = some slot' →
                disk'.entries j slot' = disk.entries j slot' := by
          by_cases hpath : q = path
          · rw [hpath, hrw.node] at hq
            cases hq
            obtain ⟨hfound, hne⟩ := hsame token
              (hoff [] token (List.append_nil names) (by simp))
            refine ⟨hfound, fun slot' hslot' => hrw.others slot' ?_⟩
            rintro rfl
            exact hne hslot'
          · rw [hrw.entries_eq hq hpath hdir]
            exact ⟨rfl, fun _ _ => rfl⟩
        rw [hentries.1]
        cases hfound : firstNamed (disk.entries j) token with
        | none => rfl
        | some slot' =>
            have hnext := node_child hq (edge_of_firstNamed hdir hfound)
            dsimp only
            rw [hentries.2 slot' hfound, ih hnext fun front last hfront hpre =>
              hoff (token :: front) last ?_ ?_]
            · rw [← hfront, List.append_assoc, List.singleton_append]
            · exact List.cons_prefix_cons.mpr ⟨rfl, hpre⟩
      · rw [if_neg hdir, if_neg hdir]

end

end Disk

/-- An entry that does not have a name, before or after, does not matter when
the name is searched. -/
theorem firstNamed_update {dir : Directory} {slot : Slot}
    {entry : FsDirent} {token : Name}
    (hold : (dir slot).nameString ≠ token)
    (hnew : entry.nameString ≠ token) :
    firstNamed (Function.update dir slot entry) token =
        firstNamed dir token ∧ firstNamed dir token ≠ some slot := by
  constructor
  · refine congrArg (List.find? · (List.finRange 128)) (funext fun slot' => ?_)
    by_cases hslot : slot' = slot
    · rw [hslot, Function.update_self, beq_false_of_ne hold,
        beq_false_of_ne hnew, Bool.and_false, Bool.and_false]
    · rw [Function.update_of_ne hslot]
  · exact fun hfound => hold (firstNamed_eq_some hfound).2

/-- A new name in an entry changes the bytes of its name field only. -/
theorem Directory.encode_rename (block : Block) (slot : Slot)
    (field : Fin 28 → UInt8) {k : Fin 4096}
    (hk : ¬ (32 * slot.val + 4 ≤ k.val ∧ k.val < 32 * slot.val + 32)) :
    Directory.encode (Function.update (Directory.decode block) slot
      { Directory.decode block slot with name := field }) k = block k := by
  conv_rhs => rw [← Directory.encode_decode block]
  rw [encode, encode]
  by_cases hslot : (⟨k.val / 32, by omega⟩ : Slot) = slot
  · have hval : k.val / 32 = slot.val := congrArg Fin.val hslot
    have hplace : k.val % 32 < 4 := by omega
    rw [dif_pos hplace, dif_pos hplace, hslot, Function.update_self]
    rfl
  · rw [Function.update_of_ne hslot]

section

variable {world : World} (hmount : Mounted world) {names : List Name}
  {site : List Slot} {inum : Nat} {slot : Slot} {name : Name}
  (hvalid : Change.Valid world names (.relabel site inum slot name))

include hmount hvalid

/-- The renamed entry has its new name. -/
theorem Change.relabel_entries :
    let disk' := (Change.apply (.relabel site inum slot name) world).disk
    disk'.entries inum = Function.update (world.disk.entries inum) slot
        { world.disk.entries inum slot with
          name := strncpy (fun _ => 0) name } ∧
      (disk'.entries inum slot).nameString = name := by
  intro disk'
  have hentries : disk'.entries inum = _ :=
    (Change.entryRewrite hmount hvalid
      (Change.apply_shows hmount hvalid) rfl).2
  refine ⟨hentries, ?_⟩
  rw [hentries, Function.update_self]
  exact nameString_strncpy _ _ _ hvalid.2.valid rfl rfl

/-- Where the paths of the renamed entry lead. -/
theorem Change.relabel_resolve :
    let disk' := (Change.apply (.relabel site inum slot name) world).disk
    let child := world.disk.child inum slot
    disk'.resolve (names ++ [name]) = .ok (site ++ [slot], child) ∧
      disk'.resolve (names ++ [(world.disk.entries inum slot).nameString]) =
        .error (-eNoEnt) := by
  intro disk' child
  have hrw := (Change.entryRewrite hmount hvalid
    (Change.apply_shows hmount hvalid) rfl).1
  obtain ⟨hentries, hname⟩ := Change.relabel_entries hmount hvalid
  have hmount' := Change.mounted hmount hvalid
  have hself := congrFun hentries slot
  rw [Function.update_self] at hself
  have hdir : (disk'.inode inum).isDir = true := hrw.isDir_eq
  have hused : (disk'.entries inum slot).valid = true := by
    rw [hself]
    exact hvalid.1.valid
  constructor
  · have hnode := Disk.node_child hrw.node_path
      (Disk.edge_eq_some.mpr ⟨hdir, hused, rfl⟩)
    have hresolve := Disk.resolve_of_node hmount'.consistent.object hnode
    rw [hname, hself] at hresolve
    exact hresolve
  · have hparent : disk'.resolve names = .ok (site, inum) :=
      Disk.resolve_of_node hmount'.consistent.object hrw.node_path
    have hnames := (hmount.consistent.object _ _ _ hvalid.1.node).names
      hvalid.1.isDir
    refine Disk.resolve_gone hparent hdir (firstNamed_gone hnames
      hvalid.1.valid hrw.others fun _ hsame => ?_)
    rw [hname] at hsame
    exact firstNamed_eq_none.mp hvalid.2.fresh slot hvalid.1.valid
      hsame.symm

/-- Lookups that do not pass the entry, under its old or its new name, find
what they found before. -/
theorem Change.relabel_lookup {q : List Slot} {names' : List Name} {j : Nat}
    (hq : world.disk.node q = some (names', j)) (tokens : List Name)
    (hoff : names' <+: names →
      ¬ names ++ [(world.disk.entries inum slot).nameString] <+:
        names' ++ tokens ∧ ¬ names ++ [name] <+: names' ++ tokens) :
    (Change.apply (.relabel site inum slot name) world).disk.resolveFrom j
      tokens = world.disk.resolveFrom j tokens := by
  have hrw := (Change.entryRewrite hmount hvalid
    (Change.apply_shows hmount hvalid) rfl).1
  obtain ⟨hentries, hname⟩ := Change.relabel_entries hmount hvalid
  rw [hentries, Function.update_self] at hname
  have hsame : ∀ token, ¬ (token =
      (world.disk.entries inum slot).nameString ∨ token = name) →
      firstNamed ((Change.apply (.relabel site inum slot name)
          world).disk.entries inum) token =
        firstNamed (world.disk.entries inum) token ∧
      firstNamed (world.disk.entries inum) token ≠ some slot := by
    intro token hshown
    rw [not_or] at hshown
    rw [hentries]
    exact firstNamed_update (Ne.symm hshown.1)
      (by rw [hname]; exact Ne.symm hshown.2)
  refine hrw.resolveFrom_eq hsame hq tokens ?_
  intro front token hfront hpre hhidden
  have hwhole : names ++ [token] <+: names' ++ tokens := by
    rw [← hfront, List.append_assoc]
    exact (List.prefix_append_right_inj names').mpr hpre
  obtain ⟨hold, hnew⟩ := hoff ⟨front, hfront⟩
  rcases hhidden with rfl | rfl
  · exact hold hwhole
  · exact hnew hwhole

/-- Below the new name lies what lay below the old one. -/
theorem Change.relabel_moved (tail : List Name) :
    (Change.apply (.relabel site inum slot name) world).disk.resolve
        (names ++ [name] ++ tail) =
      world.disk.resolve
        (names ++ [(world.disk.entries inum slot).nameString] ++ tail) := by
  have hentry := hvalid.1
  have hnode : world.disk.node (site ++ [slot]) =
      some (names ++ [(world.disk.entries inum slot).nameString],
        world.disk.child inum slot) :=
    Disk.node_child hentry.node
      (Disk.edge_eq_some.mpr ⟨hentry.isDir, hentry.valid, rfl⟩)
  have hold := Disk.resolve_of_node hmount.consistent.object hnode
  have hnew := (Change.relabel_resolve hmount hvalid).1
  have hbelow := Change.relabel_lookup hmount hvalid hnode tail
    fun hback => absurd hback.length_le (by simp)
  rw [Disk.resolve, Disk.resolve, Disk.resolveFrom_append hnew,
    Disk.resolveFrom_append hold, hbelow]

omit hmount hvalid in
theorem Change.relabel_bytes {b : Nat} {k : Fin 4096}
    (hchanged : (Change.apply (.relabel site inum slot name) world).disk b k ≠
      world.disk b k) :
    b = (world.disk.inode inum).ptr 0 ∧
      32 * slot.val + 4 ≤ k.val ∧ k.val < 32 * slot.val + 32 := by
  by_cases hb : b = (world.disk.inode inum).ptr 0
  · refine ⟨hb, ?_⟩
    by_contra hk
    apply hchanged
    rw [hb]
    exact (congrFun (Function.update_self _ _ _) k).trans
      (Directory.encode_rename _ slot _ hk)
  · exact absurd (congrFun (Function.update_of_ne hb _ _) k) hchanged

end

/-- The checks of a renaming, in their order. -/
def World.renameError (world : World) (srcPath dstPath : CString) :
    Option Int :=
  match world.disk.resolve (components srcPath) with
  | .error status => some status
  | .ok _ =>
      if (world.disk.resolve (components dstPath)).isOk then some (-eExist)
      else if (components srcPath).length = (components dstPath).length ∧
        (components srcPath).dropLast = (components dstPath).dropLast then
          none
      else some (-eInval)

/-- What a renaming leaves.  `moved` and `others` say where paths lead, and
`bytes` which bytes of the disk have changed. -/
structure Renamed (srcPath dstPath : CString) (world world' : World) :
    Prop where
  moved : ∀ (tail : List Name) (q q' : CString),
    components q = components srcPath ++ tail →
    components q' = components dstPath ++ tail →
    (components q').length ≤ 10 → ∃ result,
      run (pathToInode q 0) world = some (result, world) ∧
      run (pathToInode q' 0) world' = some (result, world')
  gone : run (pathToInode srcPath 0) world' =
    some (.error (-eNoEnt), world')
  others : ∀ q : CString, ¬ components srcPath <+: components q →
    ¬ components dstPath <+: components q → ∃ result,
      run (pathToInode q 0) world = some (result, world) ∧
      run (pathToInode q 0) world' = some (result, world')
  globals : world'.globals = world.globals
  bytes : ∃ inum inode, ∃ slot : Slot,
    run (pathToInode srcPath 1) world = some (.ok (inum, inode), world) ∧
    ∀ (b : Nat) (k : Fin 4096), world'.disk b k ≠ world.disk b k →
      b = (inode.ptrs 0).toNat ∧
      32 * slot.val + 4 ≤ k.val ∧ k.val < 32 * slot.val + 32

/-- The plan of a renaming, by its checks. -/
theorem World.planRename_cases (world : World) {srcPath dstPath : CString}
    (hsrc : (components srcPath).length ≤ 10)
    (hdst : (components dstPath).length ≤ 10) :
    match world.renameError srcPath dstPath with
    | some status => world.planRename srcPath dstPath = .error status
    | none => parse srcPath ≠ [] ∧ parse dstPath ≠ [] ∧
        (parse srcPath).dropLast = (parse dstPath).dropLast ∧
        ∃ site inum slot,
          world.disk.resolve (parse srcPath).dropLast = .ok (site, inum) ∧
          world.planRename srcPath dstPath =
            .ok (.relabel site inum slot (leaf dstPath)) := by
  rw [renameError, planRename, ← parse_eq_components hsrc,
    ← parse_eq_components hdst]
  cases hresolve : world.disk.resolve (parse srcPath) with
  | error status => rfl
  | ok there =>
      dsimp only
      by_cases hexists : (world.disk.resolve (parse dstPath)).isOk = true
      · rw [if_pos hexists, if_pos hexists]
      · rw [if_neg hexists, if_neg hexists]
        by_cases hsame : (parse srcPath).length = (parse dstPath).length ∧
            (parse srcPath).dropLast = (parse dstPath).dropLast
        · obtain ⟨hlength, hfront⟩ := hsame
          rw [if_pos ⟨hlength, hfront⟩, if_neg (not_not.mpr hlength.symm),
            if_neg (not_not.mpr hfront)]
          have hdne : parse dstPath ≠ [] := by
            intro hnil
            rw [hnil] at hexists
            exact hexists rfl
          have hsne : parse srcPath ≠ [] := by
            intro hnil
            rw [hnil] at hlength
            exact hdne (List.eq_nil_of_length_eq_zero hlength.symm)
          obtain ⟨site, inum, slot, hparent, -, hfound, -⟩ :=
            Disk.resolve_parent hsne hresolve
          refine ⟨hsne, hdne, hfront, site, inum, slot, hparent, ?_⟩
          rw [hparent]
          dsimp only
          rw [hfound]
        · rw [if_neg hsame]
          by_cases hlength : (parse srcPath).length = (parse dstPath).length
          · rw [if_neg (not_not.mpr hlength.symm),
              if_pos fun hfront => hsame ⟨hlength, hfront⟩]
          · rw [if_pos (Ne.symm hlength)]

/-- The same lookup in worlds that agree on the inodes of the graph. -/
theorem Mounted.run_pathToInode_congr {world world' : World}
    (hmount : Mounted world) (hmount' : Mounted world') {q q' : CString}
    (hresolve : world'.disk.resolve (parse q') =
      world.disk.resolve (parse q))
    (hinode : ∀ site names i, world.disk.node site = some (names, i) →
      world'.disk.inode i = world.disk.inode i) :
    ∃ result, run (pathToInode q 0) world = some (result, world) ∧
      run (pathToInode q' 0) world' = some (result, world') := by
  cases hfound : world.disk.resolve (parse q) with
  | error status =>
      rw [hfound] at hresolve
      exact ⟨_, hmount.run_target_error hfound,
        hmount'.run_target_error hresolve⟩
  | ok there =>
      obtain ⟨site, i⟩ := there
      rw [hfound] at hresolve
      refine ⟨_, hmount.run_target hfound, ?_⟩
      rw [hmount'.run_target hresolve,
        hinode _ _ _ (Disk.node_of_resolve hfound)]

theorem renamed_of_relabel {world : World} (hmount : Mounted world)
    {srcPath dstPath : CString}
    (hsrc : (components srcPath).length ≤ 10) {names : List Name}
    {site : List Slot} {inum : Nat} {slot : Slot}
    (hvalid : Change.Valid world names
      (.relabel site inum slot (leaf dstPath)))
    (hsname : components srcPath =
      names ++ [(world.disk.entries inum slot).nameString])
    (hdname : components dstPath = names ++ [leaf dstPath]) :
    Renamed srcPath dstPath world
      (Change.apply (.relabel site inum slot (leaf dstPath)) world) := by
  have hmount' := Change.mounted hmount hvalid
  have hrw := (Change.entryRewrite hmount hvalid
    (Change.apply_shows hmount hvalid) rfl).1
  have hgone := (Change.relabel_resolve hmount hvalid).2
  have hinode : ∀ site' names' i,
      world.disk.node site' = some (names', i) →
      (Change.apply (.relabel site inum slot (leaf dstPath))
        world).disk.inode i = world.disk.inode i :=
    fun _ _ _ hq => hrw.inode_eq hq
  refine ⟨?_, ?_, ?_, rfl, ?_⟩
  · intro tail q q' hq hq' hcount
    have hcount' : (components q).length ≤ 10 := by
      rw [hq', hdname] at hcount
      rw [hq, hsname]
      simpa using hcount
    refine hmount.run_pathToInode_congr hmount' ?_ hinode
    rw [parse_eq_components hcount, parse_eq_components hcount', hq, hq',
      hsname, hdname]
    exact Change.relabel_moved hmount hvalid tail
  · rw [← hsname, ← parse_eq_components hsrc] at hgone
    exact hmount'.run_target_error hgone
  · intro q hsoff hdoff
    refine hmount.run_pathToInode_congr hmount' ?_ hinode
    refine Change.relabel_lookup hmount hvalid Disk.node_nil _
      fun _ => ⟨fun hpre => hsoff ?_, fun hpre => hdoff ?_⟩
    · rw [hsname]
      exact hpre.trans (parse_eq_take q ▸ List.take_prefix 10 _)
    · rw [hdname]
      exact hpre.trans (parse_eq_take q ▸ List.take_prefix 10 _)
  · have hparent : world.disk.resolve (parse srcPath).dropLast =
        .ok (site, inum) := by
      rw [parse_eq_components hsrc, hsname, List.dropLast_concat]
      exact Disk.resolve_of_node hmount.consistent.object hvalid.1.node
    exact ⟨_, _, slot, hmount.run_parent hparent,
      fun b k hchanged => Change.relabel_bytes hchanged⟩

/-- `fs_rename` returns the first error of its checks, or moves all that lies
at and below the source to the destination. -/
theorem rename_moves {world : World} (hreach : Reachable world)
    {srcPath dstPath : CString} (hsrc : (components srcPath).length ≤ 10)
    (hdst : (components dstPath).length ≤ 10) :
    (∀ status, world.renameError srcPath dstPath = some status →
      run (fsRename srcPath dstPath) world =
        some (.error status, world)) ∧
    (world.renameError srcPath dstPath = none → ∃ world',
      run (fsRename srcPath dstPath) world = some (.ok 0, world') ∧
      Renamed srcPath dstPath world world') := by
  have hsteady := hreach.steady
  have hmount := hsteady.toMounted
  have hrun := hsteady.run_follows (hmount.follows_rename srcPath dstPath)
  have hplan := world.planRename_cases hsrc hdst
  refine ⟨fun status herror => ?_, fun herror => ?_⟩
  · rw [herror] at hplan
    rw [hrun, show World.planRename _ _ _ = _ from hplan]
    rfl
  · rw [herror] at hplan
    obtain ⟨hsne, hdne, hfront, site, inum, slot, hparent, hplan⟩ := hplan
    obtain ⟨names, hvalid, htarget⟩ := World.planRename_planned hplan
    have hnames : names = (parse srcPath).dropLast := by
      rw [← htarget, Change.target, List.dropLast_concat]
    refine ⟨_, hrun.trans ?_,
      renamed_of_relabel hmount hsrc hvalid ?_ ?_⟩
    · rw [hplan]
      rfl
    · rw [← parse_eq_components hsrc, ← htarget]
      rfl
    · rw [hnames, hfront, ← parse_eq_components hdst]
      exact parse_eq_snoc hdne

theorem rename_moves_sample :
    (∀ status, (Sample.world 400 zeroBlock).boot.renameError Sample.pathA
        Sample.pathC = some status →
      run (fsRename Sample.pathA Sample.pathC)
          (Sample.world 400 zeroBlock).boot =
        some (.error status, (Sample.world 400 zeroBlock).boot)) ∧
    ((Sample.world 400 zeroBlock).boot.renameError Sample.pathA
        Sample.pathC = none → ∃ world',
      run (fsRename Sample.pathA Sample.pathC)
          (Sample.world 400 zeroBlock).boot = some (.ok 0, world') ∧
      Renamed Sample.pathA Sample.pathC (Sample.world 400 zeroBlock).boot
        world') :=
  rename_moves (Sample.reachable 400 zeroBlock (by decide) (by decide))
    (by decide) (by decide)

end Fs5600
