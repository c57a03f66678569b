/-
What a planned change may rely on, and that every plan of a call within its
contract is a change of this kind.
-/
import Fs5600.FileDecision

namespace Fs5600

open MachineWord EffectProgram Program

/-- An inode keeps its kind, its size and its pointers. -/
structure AttributesOk (disk : Disk) (names : List Name) (path : List Slot)
    (inum : Nat) (inode : FsInode) : Prop where
  node : disk.node path = some (names, inum)
  isDir : inode.isDir = (disk.inode inum).isDir
  isReg : inode.isReg = (disk.inode inum).isReg
  size : inode.size = (disk.inode inum).size
  ptrs : inode.ptrs = (disk.inode inum).ptrs

/-- A valid entry of a directory. -/
structure EntryOk (disk : Disk) (names : List Name) (path : List Slot)
    (inum : Nat) (slot : Slot) : Prop where
  node : disk.node path = some (names, inum)
  isDir : (disk.inode inum).isDir = true
  valid : (disk.entries inum slot).valid = true

/-- A name that a directory can take in. -/
structure NewName (disk : Disk) (inum : Nat) (name : Name) : Prop where
  valid : ValidName name
  fresh : firstNamed (disk.entries inum) name = none

/-- The inode of a new object, which holds the listed blocks. -/
structure NewInode (inode : FsInode) (dirflag : Bool) (blocks : List Nat) :
    Prop where
  length : blocks.length = if dirflag then 2 else 1
  isDir : inode.isDir = dirflag
  isReg : inode.isReg = !dirflag
  size : inode.size.toInt = if dirflag then 4096 else 0
  block : dirflag = true → inode.ptr 0 = blocks.getD 1 0

structure InsertOk (world : World) (names : List Name) (path : List Slot)
    (inum : Nat) (slot : Slot) (name : Name) (inode : FsInode)
    (dirflag : Bool) (blocks : List Nat) : Prop where
  node : world.disk.node path = some (names, inum)
  isDir : (world.disk.inode inum).isDir = true
  free : (world.disk.entries inum slot).valid = false
  name : NewName world.disk inum name
  inode : NewInode inode dirflag blocks
  blocks : lowestFree world.globals.bitmap world.disk.diskSize
    (if dirflag then 2 else 1) = some blocks

/-- The inode behind an entry. -/
def Disk.child (disk : Disk) (inum : Nat) (slot : Slot) : Nat :=
  (disk.entries inum slot).inode.toNat

/-- What is released is what the object behind the entry holds. -/
structure RemoveOk (disk : Disk) (names : List Name) (path : List Slot)
    (inum : Nat) (slot : Slot) (blocks : List Nat) : Prop where
  entry : EntryOk disk names path inum slot
  nodup : blocks.Nodup
  held : ∀ b, b ∈ blocks ↔
    ∃ role, disk.owned (disk.child inum slot) role = some b

structure ShrinkOk (disk : Disk) (names : List Name) (path : List Slot)
    (inum : Nat) (len : Nat) : Prop where
  node : disk.node path = some (names, inum)
  isReg : (disk.inode inum).isReg = true
  le : blockCount len ≤ blockCount (disk.inode inum).length

structure WriteOk (world : World) (names : List Name) (path : List Slot)
    (inum offset : Nat) (buf : List UInt8) (fresh : List Nat) : Prop where
  node : world.disk.node path = some (names, inum)
  isReg : (world.disk.inode inum).isReg = true
  inside : offset ≤ (world.disk.inode inum).length
  nonempty : 1 ≤ buf.length
  limit : offset + buf.length ≤ 4173824
  fresh : lowestFree world.globals.bitmap world.disk.diskSize
    (blockCount (offset + buf.length) -
      blockCount (world.disk.inode inum).length) = some fresh

/-- `names` are the components that lead to the inode, or to the directory,
of a change. -/
def Change.Valid (world : World) (names : List Name) : Change → Prop
  | .attributes path inum inode =>
      AttributesOk world.disk names path inum inode
  | .relabel path inum slot name =>
      EntryOk world.disk names path inum slot ∧
        NewName world.disk inum name
  | .insert path inum slot name inode dirflag blocks =>
      InsertOk world names path inum slot name inode dirflag blocks
  | .remove path inum slot blocks =>
      RemoveOk world.disk names path inum slot blocks
  | .shrink path inum len => ShrinkOk world.disk names path inum len
  | .write path inum offset buf _ fresh =>
      WriteOk world names path inum offset buf fresh

/-- The components that lead to the object a change is about. -/
def Change.target (disk : Disk) (names : List Name) : Change → List Name
  | .relabel _ inum slot _ | .remove _ inum slot _ =>
      names ++ [(disk.entries inum slot).nameString]
  | .insert _ _ _ name _ _ _ => names ++ [name]
  | _ => names

theorem chmod_fmt (mode perm : UInt32) :
    ((mode &&& ~~~permissionsMask) ||| (perm &&& permissionsMask)) &&& sIfmt =
      mode &&& sIfmt := by
  have hold : ~~~permissionsMask &&& sIfmt = sIfmt := by decide
  have hnew : permissionsMask &&& sIfmt = 0 := by decide
  rw [and_or_distrib_right, UInt32.and_assoc, UInt32.and_assoc, hold, hnew,
    UInt32.and_zero, UInt32.or_zero]

theorem sIsDir_mkdir {mode : UInt32} (hmode : mode &&& sIfmt = 0) :
    sIsDir (mode ||| sIfdir) = true := by
  rw [sIsDir, and_or_distrib_right, hmode, UInt32.zero_or]
  decide

theorem FsInode.setPtr_zero_ptr (inode : FsInode) {block : Nat}
    (hlt : block < 4294967296) : (inode.setPtr 0 block).ptr 0 = block := by
  rw [FsInode.ptr_of_lt _ (by omega)]
  simp only [FsInode.setPtr]
  exact wordOfInt_natCast hlt

theorem newInode_file (ctx : Context) {mode : UInt32}
    (hmode : mode &&& sIfmt = sIfreg) {blocks : List Nat}
    (hlength : blocks.length = 1) (block : Int) :
    NewInode ((inodeFromMode ctx mode).setPtr 0 block) false blocks := by
  have hreg : sIsReg mode = true := by
    rw [sIsReg, hmode]
    decide
  have hdir := sIsDir_of_sIsReg hreg
  refine ⟨hlength, hdir, hreg, ?_, fun hfalse => by cases hfalse⟩
  simp [FsInode.setPtr, inodeFromMode, hdir]

theorem newInode_dir (ctx : Context) {mode : UInt32}
    (hmode : mode &&& sIfmt = 0) {blocks : List Nat}
    (hlength : blocks.length = 2)
    (hlt : blocks.getD 1 0 < 4294967296) :
    NewInode ((inodeFromMode ctx (mode ||| sIfdir)).setPtr 0
      ((blocks.getD 1 0 : Nat) : Int)) true blocks := by
  have hdir := sIsDir_mkdir hmode
  refine ⟨hlength, hdir, sIsReg_of_sIsDir hdir, ?_, fun _ =>
    FsInode.setPtr_zero_ptr _ hlt⟩
  simp [FsInode.setPtr, inodeFromMode, hdir]

theorem validName_leaf {path : CString} (hne : parse path ≠ []) :
    ValidName (leaf path) := by
  have hmem : leaf path ∈ parse path := by
    rw [leaf, List.getLastD_eq_getLast?, List.getLast?_eq_some_getLast hne]
    exact List.getLast_mem hne
  exact validName_of_mem_parse hmem

theorem reject_eq_ok {A : Type} {test : Prop} [Decidable test]
    {status : Int} {plan : Except Int A} {value : A} :
    (if test then .error status else plan) = .ok value ↔
      ¬ test ∧ plan = .ok value := by
  by_cases htest : test <;> simp [htest]

/-- What a plan promises about its change. -/
def Planned (world : World) (path : CString) (change : Change) : Prop :=
  ∃ names, change.Valid world names ∧
    change.target world.disk names = parse path

section

variable {world : World} {path : CString} {change : Change}

theorem World.planChmod_planned {mode : UInt32}
    (hplan : world.planChmod path mode = .ok change) :
    Planned world path change := by
  rw [planChmod] at hplan
  cases hresolve : world.disk.resolve (parse path) with
  | error status => rw [hresolve] at hplan; cases hplan
  | ok there =>
      rw [hresolve] at hplan
      cases hplan
      refine ⟨parse path, ⟨Disk.node_of_resolve hresolve, ?_, ?_, rfl, rfl⟩,
        rfl⟩
      · simp only [FsInode.isDir, sIsDir, chmod_fmt]
      · simp only [FsInode.isReg, sIsReg, chmod_fmt]

theorem World.planUtime_planned {modtime : Int}
    (hplan : world.planUtime path modtime = .ok change) :
    Planned world path change := by
  rw [planUtime] at hplan
  cases hresolve : world.disk.resolve (parse path) with
  | error status => rw [hresolve] at hplan; cases hplan
  | ok there =>
      rw [hresolve] at hplan
      obtain ⟨_, hplan⟩ := reject_eq_ok.mp hplan
      cases hplan
      exact ⟨parse path,
        ⟨Disk.node_of_resolve hresolve, rfl, rfl, rfl, rfl⟩, rfl⟩

theorem World.planTruncate_planned {len : Int}
    (hplan : world.planTruncate path len = .ok change) :
    Planned world path change := by
  rw [planTruncate] at hplan
  obtain ⟨_, hplan⟩ := reject_eq_ok.mp hplan
  cases hresolve : world.disk.resolve (parse path) with
  | error status => rw [hresolve] at hplan; cases hplan
  | ok there =>
      rw [hresolve] at hplan
      obtain ⟨hreg, hplan⟩ := reject_eq_ok.mp hplan
      obtain ⟨hle, hplan⟩ := reject_eq_ok.mp hplan
      cases hplan
      exact ⟨parse path, ⟨Disk.node_of_resolve hresolve, not_not.mp hreg,
        Nat.not_lt.mp hle⟩, rfl⟩

/-- What a write that goes ahead has found. -/
theorem World.planWrite_eq_ok {ctx : Context} {buf : List UInt8}
    {offset : Int} :
    world.planWrite ctx path buf offset = .ok change ↔
      ∃ site inum fresh,
        world.disk.resolve (parse path) = .ok (site, inum) ∧
        (world.disk.inode inum).isReg = true ∧
        offset ≤ (world.disk.inode inum).length ∧
        lowestFree world.globals.bitmap world.disk.diskSize
          (blockCount (offset.toNat + buf.length) -
            blockCount (world.disk.inode inum).length) = some fresh ∧
        change = .write site inum offset.toNat buf
          (wordOfInt (ctx.time 0)) fresh := by
  rw [planWrite]
  constructor
  · intro hplan
    cases hresolve : world.disk.resolve (parse path) with
    | error status => rw [hresolve] at hplan; cases hplan
    | ok there =>
        rw [hresolve] at hplan
        obtain ⟨hreg, hplan⟩ := reject_eq_ok.mp hplan
        obtain ⟨hinside, hplan⟩ := reject_eq_ok.mp hplan
        split at hplan
        · cases hplan
        · next fresh hfree =>
            cases hplan
            exact ⟨there.1, there.2, fresh, rfl, not_not.mp hreg,
              not_lt.mp hinside, hfree, rfl⟩
  · rintro ⟨site, inum, fresh, hresolve, hreg, hinside, hfree, rfl⟩
    rw [hresolve]
    refine reject_eq_ok.mpr ⟨not_not.mpr hreg, reject_eq_ok.mpr
      ⟨not_lt.mpr hinside, ?_⟩⟩
    rw [hfree]

theorem World.planWrite_planned {ctx : Context} {buf : List UInt8}
    (hbuf : 1 ≤ buf.length) {offset : Int} (hpos : 0 ≤ offset)
    (hend : offset + buf.length ≤ 4173824)
    (hplan : world.planWrite ctx path buf offset = .ok change) :
    Planned world path change := by
  obtain ⟨site, inum, fresh, hresolve, hreg, hinside, hfree, rfl⟩ :=
    planWrite_eq_ok.mp hplan
  exact ⟨parse path, ⟨Disk.node_of_resolve hresolve, hreg, by omega, hbuf,
    by omega, hfree⟩, rfl⟩

/-- The entry of the leaf, as a valid entry of the graph. -/
theorem entryOk_of_parent {disk : Disk} {names : List Name} {name : Name}
    {site : List Slot} {inum : Nat} {slot : Slot}
    (hparent : disk.resolve names = .ok (site, inum))
    (hdir : (disk.inode inum).isDir = true)
    (hfound : firstNamed (disk.entries inum) name = some slot) :
    EntryOk disk names site inum slot ∧
      (disk.entries inum slot).nameString = name :=
  ⟨⟨Disk.node_of_resolve hparent, hdir, (firstNamed_eq_some hfound).1⟩,
    (firstNamed_eq_some hfound).2⟩

theorem World.planRename_planned {dstPath : CString}
    (hplan : world.planRename path dstPath = .ok change) :
    Planned world path change := by
  rw [planRename] at hplan
  cases hresolve : world.disk.resolve (parse path) with
  | error status => rw [hresolve] at hplan; cases hplan
  | ok there =>
      rw [hresolve] at hplan
      obtain ⟨hnew, hplan⟩ := reject_eq_ok.mp hplan
      obtain ⟨hlength, hplan⟩ := reject_eq_ok.mp hplan
      obtain ⟨hsame, hplan⟩ := reject_eq_ok.mp hplan
      have hdne : parse dstPath ≠ [] := by
        intro hnil
        rw [hnil] at hnew
        exact hnew rfl
      have hsne : parse path ≠ [] := by
        intro hnil
        rw [hnil, List.length_nil, not_not, List.length_eq_zero_iff]
          at hlength
        exact hdne hlength
      obtain ⟨site, inum, slot, hparent, hdir, hfound, -⟩ :=
        Disk.resolve_parent hsne hresolve
      simp only [hparent, hfound, Except.ok.injEq] at hplan
      subst hplan
      obtain ⟨hentry, hname⟩ := entryOk_of_parent hparent hdir hfound
      refine ⟨(parse path).dropLast, ⟨hentry, validName_leaf hdne, ?_⟩, ?_⟩
      · rw [parse_eq_snoc hdne, ← not_not.mp hsame, Disk.resolve_snoc,
          hparent] at hnew
        cases hfree : firstNamed (world.disk.entries inum)
            (leaf dstPath) with
        | none => rfl
        | some slot' =>
            simp only [Except.bind, hdir, ↓reduceIte, hfree] at hnew
            exact absurd rfl hnew
      · rw [Change.target, hname, ← parse_eq_snoc hsne]

/-- Removing what is found removes its entry. -/
theorem World.planRemove_eq (hne : parse path ≠ [])
    {there : List Slot × Nat}
    (hresolve : world.disk.resolve (parse path) = .ok there) :
    ∃ site inum slot,
      EntryOk world.disk (parse path).dropLast site inum slot ∧
      (world.disk.entries inum slot).nameString = leaf path ∧
      there = (site ++ [slot], world.disk.child inum slot) ∧
      ∀ blocks, world.planRemove path blocks =
        .ok (.remove site inum slot blocks) := by
  obtain ⟨site, inum, slot, hparent, hdir, hfound, rfl⟩ :=
    Disk.resolve_parent hne hresolve
  obtain ⟨hentry, hname⟩ := entryOk_of_parent hparent hdir hfound
  refine ⟨site, inum, slot, hentry, hname, rfl, fun blocks => ?_⟩
  rw [planRemove, hparent]
  simp only [hfound]

theorem World.planRemove_planned {blocks : List Nat}
    (hne : parse path ≠ []) {there : List Slot × Nat}
    (hresolve : world.disk.resolve (parse path) = .ok there)
    (hnodup : blocks.Nodup)
    (hheld : ∀ b, b ∈ blocks ↔
      ∃ role, world.disk.owned there.2 role = some b)
    (hplan : world.planRemove path blocks = .ok change) :
    Planned world path change := by
  obtain ⟨site, inum, slot, hentry, hname, rfl, heq⟩ :=
    planRemove_eq hne hresolve
  rw [heq] at hplan
  cases hplan
  refine ⟨(parse path).dropLast, ⟨hentry, hnodup, hheld⟩, ?_⟩
  rw [Change.target, hname, ← parse_eq_snoc hne]

/-- The roles of one object hold different blocks. -/
theorem Consistent.owned_inj {disk : Disk} {size : Nat}
    (hcons : Consistent disk size) {names : List Name} {site : List Slot}
    {i : Nat} (hnode : disk.node site = some (names, i)) {role role' : Role}
    {b : Nat} (hrole : disk.owned i role = some b)
    (hrole' : disk.owned i role' = some b) : role = role' := by
  rw [← Disk.holder_of_node hnode] at hrole hrole'
  exact congrArg Prod.snd (hcons.exclusive _ _ _ hrole hrole')

theorem ObjectOk.blockCount_dir {disk : Disk} {i : Nat}
    (hobject : ObjectOk disk i) (hdir : (disk.inode i).isDir = true) :
    blockCount (disk.inode i).length = 1 := by
  have hsize := hobject.size_eq
  rcases hobject.kind with hreg | ⟨-, hblock⟩
  · rw [FsInode.isReg, sIsReg_of_sIsDir hdir] at hreg
    cases hreg
  · have hlength : (disk.inode i).length = 4096 := by omega
    rw [hlength]
    rfl

theorem ObjectOk.isReg_of_not_isDir {disk : Disk} {i : Nat}
    (hobject : ObjectOk disk i) (hdir : ¬ (disk.inode i).isDir = true) :
    (disk.inode i).isReg = true := by
  rcases hobject.kind with hreg | ⟨hisDir, -⟩
  · exact hreg
  · exact absurd hisDir hdir

/-- The role of block `k` of an object. -/
def FsInode.roleOf (inode : FsInode) (k : Nat) : Role :=
  if inode.isDir then .entries else .data k

theorem ObjectOk.owned_roleOf {disk : Disk} {i : Nat}
    (hobject : ObjectOk disk i) {k : Nat}
    (hk : k < blockCount (disk.inode i).length) :
    disk.owned i ((disk.inode i).roleOf k) = some ((disk.inode i).ptr k) := by
  rw [Disk.owned, FsInode.roleOf]
  by_cases hdir : (disk.inode i).isDir = true
  · rw [hobject.blockCount_dir hdir, Nat.lt_one_iff] at hk
    rw [if_pos hdir, FsInode.owned, if_pos hdir, hk]
  · rw [if_neg hdir, FsInode.owned,
      if_pos ⟨hobject.isReg_of_not_isDir hdir, hk⟩]

/-- The blocks up to the size, and the inode, are all that an object
holds. -/
theorem ObjectOk.mem_unlinked {disk : Disk} {i : Nat}
    (hobject : ObjectOk disk i) (b : Nat) :
    b ∈ (List.range (blockCount (disk.inode i).length)).map
        (disk.inode i).ptr ++ [i] ↔
      ∃ role, disk.owned i role = some b := by
  rw [List.mem_append, List.mem_singleton, List.mem_map]
  constructor
  · rintro (⟨k, hk, rfl⟩ | rfl)
    · exact ⟨_, hobject.owned_roleOf (List.mem_range.mp hk)⟩
    · exact ⟨.inode, rfl⟩
  · rintro ⟨role, hrole⟩
    cases role with
    | inode =>
        cases hrole
        exact Or.inr rfl
    | entries =>
        rw [Disk.owned, FsInode.owned] at hrole
        split at hrole
        next hdir =>
          cases hrole
          refine Or.inl ⟨0, ?_, rfl⟩
          rw [hobject.blockCount_dir hdir]
          exact List.mem_range.mpr Nat.one_pos
        next => cases hrole
    | data k =>
        rw [Disk.owned, FsInode.owned] at hrole
        split at hrole
        next hdata =>
          cases hrole
          exact Or.inl ⟨k, List.mem_range.mpr hdata.2, rfl⟩
        next => cases hrole

theorem Consistent.nodup_unlinked {disk : Disk} {size : Nat}
    (hcons : Consistent disk size) {names : List Name} {site : List Slot}
    {i : Nat} (hnode : disk.node site = some (names, i)) :
    ((List.range (blockCount (disk.inode i).length)).map
      (disk.inode i).ptr ++ [i]).Nodup := by
  have hobject := hcons.object _ _ _ hnode
  refine List.Nodup.append (List.Nodup.map_on ?_ List.nodup_range)
    (List.nodup_singleton i) ?_
  · intro k hk k' hk' hsame
    rw [List.mem_range] at hk hk'
    have hrole := hobject.owned_roleOf hk
    rw [hsame] at hrole
    have heq := hcons.owned_inj hnode hrole (hobject.owned_roleOf hk')
    simp only [FsInode.roleOf] at heq
    by_cases hdir : (disk.inode i).isDir = true
    · rw [hobject.blockCount_dir hdir] at hk hk'
      omega
    · rw [if_neg hdir, if_neg hdir, Role.data.injEq] at heq
      exact heq
  · intro b hptr hinode
    obtain ⟨k, hk, rfl⟩ := List.mem_map.mp hptr
    have hrole := hobject.owned_roleOf (List.mem_range.mp hk)
    rw [List.mem_singleton.mp hinode] at hrole
    have heq := hcons.owned_inj hnode hrole
      (show disk.owned i .inode = some i from rfl)
    rw [FsInode.roleOf] at heq
    split at heq <;> cases heq

theorem World.planUnlink_planned (hmount : Mounted world)
    (hne : parse path ≠ []) (hplan : world.planUnlink path = .ok change) :
    Planned world path change := by
  rw [planUnlink] at hplan
  cases hresolve : world.disk.resolve (parse path) with
  | error status => rw [hresolve] at hplan; cases hplan
  | ok there =>
      rw [hresolve] at hplan
      have hnode := Disk.node_of_resolve hresolve
      exact planRemove_planned hne hresolve
        (hmount.consistent.nodup_unlinked hnode)
        (hmount.consistent.object _ _ _ hnode).mem_unlinked hplan

theorem World.planRmdir_planned (hmount : Mounted world)
    (hne : parse path ≠ []) (hplan : world.planRmdir path = .ok change) :
    Planned world path change := by
  rw [planRmdir] at hplan
  cases hresolve : world.disk.resolve (parse path) with
  | error status => rw [hresolve] at hplan; cases hplan
  | ok there =>
      obtain ⟨site, inum⟩ := there
      rw [hresolve] at hplan
      obtain ⟨hdir, hplan⟩ := reject_eq_ok.mp hplan
      split at hplan
      · cases hplan
      · obtain ⟨_, hplan⟩ := reject_eq_ok.mp hplan
        have hnode := Disk.node_of_resolve hresolve
        have hnodup := hmount.consistent.nodup_unlinked hnode
        have hobject := hmount.consistent.object _ _ _ hnode
        have hmem := hobject.mem_unlinked
        rw [hobject.blockCount_dir (not_not.mp hdir)] at hnodup hmem
        have hswap : List.Perm
            ((List.range 1).map (world.disk.inode inum).ptr ++ [inum])
            [inum, (world.disk.inode inum).ptr 0] := List.Perm.swap _ _ _
        refine planRemove_planned hne hresolve
          (hswap.nodup_iff.mp hnodup) (fun b => ?_) hplan
        rw [← hmem b, hswap.mem_iff]

/-- What a creation that goes ahead has found. -/
theorem World.planCreate_eq_ok {ctx : Context} {mode : UInt32}
    {dirflag : Bool} :
    world.planCreate ctx path mode dirflag = .ok change ↔
      ∃ site inum slot blocks,
        world.disk.resolve (parse path).dropLast = .ok (site, inum) ∧
        (world.disk.inode inum).isDir = true ∧
        firstNamed (world.disk.entries inum) (leaf path) = none ∧
        firstInvalid (world.disk.entries inum) 0 = some slot ∧
        lowestFree world.globals.bitmap world.disk.diskSize
          (if dirflag then 2 else 1) = some blocks ∧
        change = .insert site inum slot (leaf path)
          ((inodeFromMode ctx
            (if dirflag then mode ||| sIfdir else mode)).setPtr 0
              (if dirflag then ((blocks.getD 1 0 : Nat) : Int) else 0))
          dirflag blocks := by
  rw [planCreate]
  constructor
  · intro hplan
    cases hresolve : world.disk.resolve (parse path).dropLast with
    | error status => rw [hresolve] at hplan; cases hplan
    | ok there =>
        rw [hresolve] at hplan
        obtain ⟨hdir, hplan⟩ := reject_eq_ok.mp hplan
        obtain ⟨hnew, hplan⟩ := reject_eq_ok.mp hplan
        split at hplan
        · cases hplan
        · next slot hslot =>
            split at hplan
            · cases hplan
            · next blocks hblocks =>
                cases hplan
                exact ⟨there.1, there.2, slot, blocks, rfl, not_not.mp hdir,
                  Option.not_isSome_iff_eq_none.mp hnew, hslot, hblocks, rfl⟩
  · rintro ⟨site, inum, slot, blocks, hresolve, hdir, hnew, hslot, hblocks,
      rfl⟩
    rw [hresolve]
    refine reject_eq_ok.mpr ⟨not_not.mpr hdir, reject_eq_ok.mpr ⟨?_, ?_⟩⟩
    · rw [hnew]
      exact Bool.false_ne_true
    · rw [hslot]
      dsimp only
      rw [hblocks]

theorem World.planCreate_planned (hmount : Mounted world) {ctx : Context}
    {mode : UInt32} {dirflag : Bool} (hne : parse path ≠ [])
    (hmode : mode &&& sIfmt = if dirflag then 0 else sIfreg)
    (hplan : world.planCreate ctx path mode dirflag = .ok change) :
    Planned world path change := by
  obtain ⟨site, inum, slot, blocks, hresolve, hdir, hnew, hslot, hblocks,
    rfl⟩ := planCreate_eq_ok.mp hplan
  have hlength := (lowestFree_eq_some hblocks).1
  refine ⟨(parse path).dropLast,
    ⟨Disk.node_of_resolve hresolve, hdir, firstInvalid_eq_some hslot,
      ⟨validName_leaf hne, hnew⟩, ?_, hblocks⟩, ?_⟩
  · cases dirflag with
    | false => exact newInode_file ctx hmode hlength 0
    | true =>
        refine newInode_dir ctx hmode hlength ?_
        obtain ⟨child, block, rfl⟩ := List.length_eq_two.mp hlength
        have husable := hmount.usable_of_lowestFree hblocks block (by simp)
        have hle := hmount.consistent.size_le
        exact (show block < 4294967296 by omega)
  · rw [Change.target, ← parse_eq_snoc hne]

end

end Fs5600
