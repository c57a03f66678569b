/-
Lookup of a list of names in the graph of an image, and the agreement of
`translate` and `path_to_inode` with it on a mounted file system.
-/
import Fs5600.Graph
import Fs5600.Resolution
import Mathlib.Data.List.FinRange

namespace Fs5600

open MachineWord EffectProgram Program LabelledWalk

/-! The searches of a directory block. -/

theorem firstNamed_eq_some {dir : Directory} {name : Name} {slot : Slot}
    (hfound : firstNamed dir name = some slot) :
    (dir slot).valid = true ∧ (dir slot).nameString = name := by
  have htest := List.find?_some hfound
  simpa using htest

theorem firstNamed_eq_none {dir : Directory} {name : Name} :
    firstNamed dir name = none ↔
      ∀ slot, (dir slot).valid = true → (dir slot).nameString ≠ name := by
  simp [firstNamed, List.find?_eq_none]

/-- Distinct names make the first entry of a name the only one. -/
theorem firstNamed_of_entry {dir : Directory} (hdir : DirectoryOk dir)
    {slot : Slot} (hvalid : (dir slot).valid = true) :
    firstNamed dir (dir slot).nameString = some slot := by
  cases hfound : firstNamed dir (dir slot).nameString with
  | none => exact absurd rfl (firstNamed_eq_none.mp hfound slot hvalid)
  | some slot' =>
      obtain ⟨hvalid', hname⟩ := firstNamed_eq_some hfound
      rw [hdir.distinct slot' slot hvalid' hvalid hname]

theorem firstInvalid_eq_none {dir : Directory} :
    firstInvalid dir 0 = none ↔ ∀ slot, (dir slot).valid = true := by
  simp [firstInvalid, List.find?_eq_none]

theorem firstInvalid_eq_some {dir : Directory} {slot : Slot}
    (hfree : firstInvalid dir 0 = some slot) : (dir slot).valid = false := by
  have htest := List.find?_some hfree
  simpa using htest

/-- The scan stops at slot 0 whenever that slot is free. -/
theorem firstInvalid_zero {dir : Directory}
    (hfree : (dir 0).valid = false) : firstInvalid dir 0 = some 0 := by
  rw [firstInvalid, List.drop_zero, List.finRange_succ, List.find?_cons,
    hfree]
  rfl

theorem translateScan_map (dir : Directory) (token : Name)
    (slots : List Slot) (start : Int) :
    translateScan token (slots.map dir) start =
      match slots.find? fun slot =>
        (dir slot).valid && (dir slot).nameString == token with
      | some slot => ((dir slot).inode.toNat : Int)
      | none => if slots = [] then start else -1 := by
  induction slots generalizing start with
  | nil => rfl
  | cons slot slots ih =>
      rw [List.map_cons, translateScan, List.find?_cons, Bool.beq_comm]
      split
      next htest => simp [htest]
      next htest =>
        rw [ih]
        simp only [Bool.not_eq_true] at htest
        simp [htest]

/-- The scan of `translate` finds what `find_index_in_dir` finds. -/
theorem translateScan_eq (dir : Directory) (token : Name) (start : Int) :
    translateScan token (List.ofFn dir) start =
      match firstNamed dir token with
      | some slot => ((dir slot).inode.toNat : Int)
      | none => -1 := by
  rw [List.ofFn_eq_map, translateScan_map]
  rfl

/-! The lookup itself. -/

namespace Disk

variable (disk : Disk)

/-- Look the names up from inode `i` on: the slots of their entries and the
inode at the end. -/
def resolveFrom : Nat → List Name → Except Int (List Slot × Nat)
  | i, [] => .ok ([], i)
  | i, token :: tokens =>
      if (disk.inode i).isDir then
        match firstNamed (disk.entries i) token with
        | none => .error (-eNoEnt)
        | some slot =>
            (resolveFrom (disk.entries i slot).inode.toNat tokens).map
              fun there => (slot :: there.1, there.2)
      else .error (-eNotDir)

def resolve (names : List Name) : Except Int (List Slot × Nat) :=
  disk.resolveFrom 2 names

variable {disk}

/-- One more name is one more directory search. -/
theorem resolveFrom_snoc (i : Nat) (names : List Name) (name : Name) :
    disk.resolveFrom i (names ++ [name]) =
      (disk.resolveFrom i names).bind fun here =>
        if (disk.inode here.2).isDir then
          match firstNamed (disk.entries here.2) name with
          | none => .error (-eNoEnt)
          | some slot =>
              .ok (here.1 ++ [slot], (disk.entries here.2 slot).inode.toNat)
        else .error (-eNotDir) := by
  induction names generalizing i with
  | nil =>
      simp only [List.nil_append, resolveFrom, Except.bind]
      split
      · cases firstNamed (disk.entries i) name <;> rfl
      · rfl
  | cons token tokens ih =>
      simp only [List.cons_append, resolveFrom]
      split
      · cases firstNamed (disk.entries i) token with
        | none => rfl
        | some slot =>
            simp only [ih]
            cases disk.resolveFrom (disk.entries i slot).inode.toNat tokens with
            | error status => rfl
            | ok here =>
                simp only [Except.bind, Except.map]
                by_cases hdir : (disk.inode here.2).isDir = true
                · simp only [hdir, ↓reduceIte]
                  cases firstNamed (disk.entries here.2) name <;> rfl
                · simp only [hdir, Bool.false_eq_true, ↓reduceIte]
      · rfl

theorem resolve_snoc (names : List Name) (name : Name) :
    disk.resolve (names ++ [name]) =
      (disk.resolve names).bind fun here =>
        if (disk.inode here.2).isDir then
          match firstNamed (disk.entries here.2) name with
          | none => .error (-eNoEnt)
          | some slot =>
              .ok (here.1 ++ [slot], (disk.entries here.2 slot).inode.toNat)
        else .error (-eNotDir) := resolveFrom_snoc 2 names name

theorem edge_of_firstNamed {i : Nat} {name : Name} {slot : Slot}
    (hdir : (disk.inode i).isDir = true)
    (hfound : firstNamed (disk.entries i) name = some slot) :
    disk.edge i slot = some (name, (disk.entries i slot).inode.toNat) := by
  obtain ⟨hvalid, hname⟩ := firstNamed_eq_some hfound
  exact edge_eq_some.mpr ⟨hdir, hvalid, by rw [hname]⟩

/-- What is found is in the graph, under the names looked up. -/
theorem node_of_resolve {names : List Name} {path : List Slot} {i : Nat}
    (hresolve : disk.resolve names = .ok (path, i)) :
    disk.node path = some (names, i) := by
  induction names using List.reverseRecOn generalizing path i with
  | nil => cases hresolve; rfl
  | append_singleton names name ih =>
      rw [resolve_snoc] at hresolve
      cases hhere : disk.resolve names with
      | error status => rw [hhere] at hresolve; cases hresolve
      | ok here =>
          rw [hhere] at hresolve
          simp only [Except.bind] at hresolve
          split at hresolve
          next hdir =>
            cases hfound : firstNamed (disk.entries here.2) name with
            | none => rw [hfound] at hresolve; cases hresolve
            | some slot =>
                rw [hfound] at hresolve
                cases hresolve
                exact node_child (ih hhere) (edge_of_firstNamed hdir hfound)
          next => cases hresolve

/-- In an image whose directories have distinct names, every object is found
under its names. -/
theorem resolve_of_node
    (hobject : ∀ path names i, disk.node path = some (names, i) →
      ObjectOk disk i)
    {names : List Name} {path : List Slot} {i : Nat}
    (hnode : disk.node path = some (names, i)) :
    disk.resolve names = .ok (path, i) := by
  induction path using List.reverseRecOn generalizing names i with
  | nil => cases hnode; rfl
  | append_singleton path slot ih =>
      obtain ⟨here, hop, hhere, hedge, heq⟩ := walk_snoc_eq_some _ hnode
      cases heq
      obtain ⟨hdir, hvalid, rfl⟩ := edge_eq_some.mp hedge
      have hnames := (hobject path here.1 here.2 hhere).names hdir
      rw [resolve_snoc, ih hhere]
      simp only [Except.bind, hdir, ↓reduceIte,
        firstNamed_of_entry hnames hvalid]

end Disk

/-! Mounted file systems. -/

/-- A consistent image on a device that can be read, and globals that agree
with it.  Writes may fail. -/
structure Mounted (world : World) : Prop where
  consistent : Consistent world.disk world.device.size
  reads : world.device.readFails = never
  bitmap : world.globals.bitmap = world.disk 1
  superblock : world.globals.superblock = world.disk.superblock

section

variable {disk : Disk} {size : Nat} {world : World} {path : List Slot}
  {names : List Name} {i : Nat}

theorem Consistent.inode_range (hcons : Consistent disk size)
    (hnode : disk.node path = some (names, i)) :
    2 ≤ i ∧ i < disk.diskSize ∧ Marked (disk 1) i :=
  hcons.range (path, .inode) i (Disk.holder_inode hnode)

theorem Consistent.entries_range (hcons : Consistent disk size)
    (hnode : disk.node path = some (names, i))
    (hdir : (disk.inode i).isDir = true) :
    2 ≤ (disk.inode i).ptr 0 ∧ (disk.inode i).ptr 0 < disk.diskSize ∧
      Marked (disk 1) ((disk.inode i).ptr 0) :=
  hcons.range (path, .entries) _ (Disk.holder_entries hnode hdir)

theorem wordToInt_ptrs (inode : FsInode) (k : Fin 1019)
    (hlt : inode.ptr k.val < 32768) :
    wordToInt (inode.ptrs k) = inode.ptr k.val := by
  simp only [FsInode.ptr, k.isLt, ↓reduceDIte, Fin.eta] at hlt ⊢
  exact wordToInt_of_lt (by omega)

theorem wordToInt_ptrs_zero (inode : FsInode) (hlt : inode.ptr 0 < 32768) :
    wordToInt (inode.ptrs 0) = inode.ptr 0 := wordToInt_ptrs inode 0 hlt

theorem Mounted.run_blockRead (hmount : Mounted world) {b : Nat}
    (hlt : b < world.disk.diskSize) :
    run (blockRead b) world = some (.ok (world.disk b), world) :=
  Fs5600.run_blockRead hmount.reads
    (hlt.trans_le hmount.consistent.size_fits)
    (hlt.trans_le hmount.consistent.size_le)

theorem Mounted.run_readInode (hmount : Mounted world)
    (hlt : i < world.disk.diskSize) :
    run (readInode i) world = some (.ok (world.disk.inode i), world) := by
  rw [readInode, run_bind_ok (hmount.run_blockRead hlt)]
  rfl

/-- Reading the block of a directory that is in the graph. -/
theorem Mounted.run_readDirectory (hmount : Mounted world)
    (hnode : world.disk.node path = some (names, i))
    (hdir : (world.disk.inode i).isDir = true) :
    run (readDirectory (wordToInt ((world.disk.inode i).ptrs 0))) world =
      some (.ok (world.disk.entries i), world) := by
  have hlt := (hmount.consistent.entries_range hnode hdir).2.1
  rw [wordToInt_ptrs_zero _ (hlt.trans_le hmount.consistent.size_le),
    readDirectory, run_bind_ok (hmount.run_blockRead hlt)]
  rfl

theorem Mounted.run_translateLoop (hmount : Mounted world)
    (tokens : List Name) (hnode : world.disk.node path = some (names, i)) :
    run (translateLoop i tokens) world =
      some ((world.disk.resolveFrom i tokens).map
        fun there => (there.2 : Int), world) := by
  induction tokens generalizing path names i with
  | nil => rfl
  | cons token tokens ih =>
      have hlt := (hmount.consistent.inode_range hnode).2.1
      rw [translateLoop, run_bind_ok (hmount.run_readInode hlt),
        run_rejectIf_bind, Disk.resolveFrom]
      by_cases hdir : (world.disk.inode i).isDir = true
      · rw [if_neg (not_not.mpr hdir), if_pos hdir,
          run_bind_ok (hmount.run_readDirectory hnode hdir)]
        simp only [translateScan_eq]
        cases hfound : firstNamed (world.disk.entries i) token with
        | none => simp [run_rejectIf_bind, Except.map]
        | some slot =>
            have hchild := Disk.node_child hnode
              (Disk.edge_of_firstNamed hdir hfound)
            rw [run_rejectIf_bind, if_neg (by simp), ih hchild]
            dsimp only
            cases world.disk.resolveFrom
              (world.disk.entries i slot).inode.toNat tokens <;> rfl
      · rw [if_pos hdir, if_neg hdir]
        rfl

/-- `path_to_inode` on a mounted file system is the lookup of the parsed
path less its last `depth` names. -/
theorem Mounted.run_pathToInode (hmount : Mounted world) (path : CString)
    (depth : Nat) :
    run (pathToInode path depth) world =
      some ((world.disk.resolve
          ((parse path).take ((parse path).length - depth))).map
        fun there => ((there.2 : Int), world.disk.inode there.2), world) := by
  have hcut : ((parse path).length -
      if depth ≤ (parse path).length then depth else (parse path).length) =
        (parse path).length - depth := by
    split <;> omega
  have htranslate : run (translate (parse path) depth) world =
      some ((world.disk.resolve
        ((parse path).take ((parse path).length - depth))).map
          fun there => (there.2 : Int), world) := by
    rw [← hcut]
    exact hmount.run_translateLoop _ Disk.node_nil
  cases hresolve : world.disk.resolve
      ((parse path).take ((parse path).length - depth)) with
  | error status =>
      rw [hresolve] at htranslate
      exact run_bind_error htranslate
  | ok there =>
      rw [hresolve] at htranslate
      have hlt := (hmount.consistent.inode_range
        (Disk.node_of_resolve hresolve)).2.1
      rw [pathToInode, run_bind_ok htranslate,
        run_bind_ok (hmount.run_readInode hlt)]
      rfl

/-- `path_to_inode` with depth 0 looks up the whole path. -/
theorem Mounted.run_target (hmount : Mounted world) {path : CString}
    {site : List Slot} {inum : Nat}
    (hresolve : world.disk.resolve (parse path) = .ok (site, inum)) :
    run (pathToInode path 0) world =
      some (.ok ((inum : Int), world.disk.inode inum), world) := by
  rw [hmount.run_pathToInode, Nat.sub_zero, List.take_length, hresolve]
  rfl

theorem Mounted.run_target_error (hmount : Mounted world) {path : CString}
    {status : Int}
    (hresolve : world.disk.resolve (parse path) = .error status) :
    run (pathToInode path 0) world = some (.error status, world) := by
  rw [hmount.run_pathToInode, Nat.sub_zero, List.take_length, hresolve]
  rfl

/-- What `path_to_inode` with depth 0 returns is what the lookup finds. -/
theorem Mounted.resolve_of_run (hmount : Mounted world) {path : CString}
    {inum : Int} {inode : FsInode} {world' : World}
    (hrun : run (pathToInode path 0) world =
      some (.ok (inum, inode), world')) :
    ∃ site i, world.disk.resolve (parse path) = .ok (site, i) ∧
      inum = i ∧ inode = world.disk.inode i ∧ world' = world := by
  cases hresolve : world.disk.resolve (parse path) with
  | error status =>
      rw [hmount.run_target_error hresolve] at hrun
      cases hrun
  | ok there =>
      rw [hmount.run_target hresolve] at hrun
      cases hrun
      exact ⟨there.1, there.2, rfl, rfl, rfl, rfl⟩

/-- `path_to_inode` with depth 1 looks up the parent. -/
theorem Mounted.run_parent (hmount : Mounted world) {path : CString}
    {site : List Slot} {inum : Nat}
    (hresolve : world.disk.resolve (parse path).dropLast =
      .ok (site, inum)) :
    run (pathToInode path 1) world =
      some (.ok ((inum : Int), world.disk.inode inum), world) := by
  rw [hmount.run_pathToInode, ← List.dropLast_eq_take, hresolve]
  rfl

theorem Mounted.run_parent_error (hmount : Mounted world) {path : CString}
    {status : Int}
    (hresolve : world.disk.resolve (parse path).dropLast = .error status) :
    run (pathToInode path 1) world = some (.error status, world) := by
  rw [hmount.run_pathToInode, ← List.dropLast_eq_take, hresolve]
  rfl

end

end Fs5600
