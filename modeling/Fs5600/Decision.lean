/-
Every mutating entry point on a mounted file system does what its plan says:
it returns the plan's error and leaves the world alone, or it performs the
effects of the planned change.
-/
import Fs5600.Plan

namespace Fs5600

open MachineWord EffectProgram Program

/-- `code` carries out `plan`. -/
def Follows (code : Fs Int) (world : World) : Except Int Change → Prop
  | .error status => run code world = some (.error status, world)
  | .ok change =>
      Performs code world (change.effects world) change.result

section

variable {A : Type} {code : Fs A} {next : A → Fs Int} {world : World}
  {plan : Except Int Change}

theorem Follows.read {value : A}
    (hrun : run code world = some (.ok value, world))
    (hnext : Follows (next value) world plan) :
    Follows (code >>= next) world plan := by
  cases plan with
  | error status => exact (run_bind_ok hrun).trans hnext
  | ok change => exact Performs.bind_read hrun hnext

theorem Follows.fail {status : Int}
    (hrun : run code world = some (.error status, world)) :
    Follows (code >>= next) world (.error status) :=
  run_bind_error hrun

theorem Follows.rejectIf {test : Prop} [Decidable test] {status : Int}
    {next : Unit → Fs Int} (hnext : ¬ test → Follows (next ()) world plan) :
    Follows (Program.rejectIf test status >>= next) world
      (if test then .error status else plan) := by
  by_cases htest : test
  · rw [if_pos htest]
    refine Follows.fail ?_
    rw [Program.rejectIf, if_pos htest]
    rfl
  · rw [if_neg htest]
    exact Follows.read (Performs.rejectIf htest status world) (hnext htest)

/-- A check that is made by a function of its own. -/
theorem Follows.check {test : Prop} [Decidable test] {status : Int} {value : A}
    (hrun : run code world =
      some (if test then .error status else .ok value, world))
    (hnext : ¬ test → Follows (next value) world plan) :
    Follows (code >>= next) world
      (if test then .error status else plan) := by
  by_cases htest : test
  · rw [if_pos htest] at hrun ⊢
    exact Follows.fail hrun
  · rw [if_neg htest] at hrun ⊢
    exact Follows.read hrun (hnext htest)

end

theorem run_leafName {path : CString} (hne : parse path ≠ [])
    (world : World) :
    run (leafName (parse path)) world = some (.ok (leaf path), world) := by
  rw [leafName, leaf, List.getLastD_eq_getLast?]
  cases hlast : (parse path).getLast? with
  | none => exact absurd (List.getLast?_eq_none_iff.mp hlast) hne
  | some name => rfl

theorem any_eq_isSome_firstNamed (dir : Directory) (name : Name) :
    ((List.ofFn dir).any fun entry =>
      entry.valid && entry.nameString == name) =
        (firstNamed dir name).isSome := by
  rw [List.ofFn_eq_map, List.any_map, firstNamed, Bool.eq_iff_iff,
    List.find?_isSome, List.any_eq_true]
  rfl

theorem parse_eq_snoc {path : CString} (hne : parse path ≠ []) :
    parse path = (parse path).dropLast ++ [leaf path] := by
  rw [leaf, List.getLastD_eq_getLast?, List.getLast?_eq_some_getLast hne]
  exact (List.dropLast_append_getLast hne).symm

/-- Where a path below the root ends: the entry of its leaf. -/
theorem Disk.resolve_parent {disk : Disk} {path : CString}
    (hne : parse path ≠ []) {there : List Slot × Nat}
    (hresolve : disk.resolve (parse path) = .ok there) :
    ∃ site inum slot,
      disk.resolve (parse path).dropLast = .ok (site, inum) ∧
      (disk.inode inum).isDir = true ∧
      firstNamed (disk.entries inum) (leaf path) = some slot ∧
      there = (site ++ [slot], (disk.entries inum slot).inode.toNat) := by
  rw [parse_eq_snoc hne, Disk.resolve_snoc] at hresolve
  cases hparent : disk.resolve (parse path).dropLast with
  | error status => rw [hparent] at hresolve; cases hresolve
  | ok here =>
      obtain ⟨site, inum⟩ := here
      rw [hparent] at hresolve
      simp only [Except.bind] at hresolve
      split at hresolve
      next hdir =>
        cases hfound : firstNamed (disk.entries inum) (leaf path) with
        | none => rw [hfound] at hresolve; cases hresolve
        | some slot =>
            rw [hfound] at hresolve
            cases hresolve
            exact ⟨site, inum, slot, rfl, hdir, hfound, rfl⟩
      next => cases hresolve

theorem ObjectOk.size_eq {disk : Disk} {i : Nat} (hobject : ObjectOk disk i) :
    (disk.inode i).size.toInt = (disk.inode i).length := by
  have hnonneg : 0 ≤ (disk.inode i).size.toInt := by
    rcases hobject.kind with hreg | ⟨-, hsize⟩
    · exact (hobject.size_range hreg).1
    · omega
  rw [FsInode.length]
  omega

theorem ObjectOk.sizeInBlocks_eq {disk : Disk} {i : Nat}
    (hobject : ObjectOk disk i) :
    sizeInBlocks (disk.inode i).size.toInt =
      blockCount (disk.inode i).length := by
  rw [hobject.size_eq, sizeInBlocks_natCast]

theorem ObjectOk.length_le {disk : Disk} {i : Nat}
    (hobject : ObjectOk disk i) : (disk.inode i).length ≤ 4173824 := by
  have hsize := hobject.size_eq
  rcases hobject.kind with hreg | ⟨-, hdir⟩
  · have hmax := (hobject.size_range hreg).2
    omega
  · omega

theorem ObjectOk.blockCount_le {disk : Disk} {i : Nat}
    (hobject : ObjectOk disk i) :
    blockCount (disk.inode i).length ≤ 1019 := by
  have hle := hobject.length_le
  rw [blockCount]
  omega

theorem run_ptrAt (inode : FsInode) {k : Nat} (hk : k < 1019)
    (world : World) :
    run (ptrAt inode k) world = some (.ok (inode.ptrs ⟨k, hk⟩), world) := by
  rw [ptrAt, dif_pos ⟨Int.natCast_nonneg k, by omega⟩]
  rfl

theorem run_copyPtrs (inode : FsInode) (count start : Nat)
    (hbound : start + count ≤ 1019)
    (hptr : ∀ k, start ≤ k → k < start + count → inode.ptr k < 32768)
    (world : World) :
    run (copyPtrs inode count start) world =
      some (.ok (((List.range' start count).map inode.ptr).map Int.ofNat),
        world) := by
  induction count generalizing start with
  | zero => rfl
  | succ count ih =>
      have hlt : start < 1019 := by omega
      have hrest := ih (start + 1) (by omega) fun k hlow hhigh =>
        hptr k (by omega) (by omega)
      have hword := wordToInt_ptrs inode ⟨start, hlt⟩
        (hptr start le_rfl (by omega))
      rw [copyPtrs, run_bind_ok (run_ptrAt inode hlt world),
        run_bind_ok (show run (copyPtrs inode count (start + 1)) world = _
          from hrest), hword]
      rfl

section

variable {world : World} (hmount : Mounted world)

include hmount

theorem Mounted.two_lt : 2 < world.disk.diskSize :=
  (hmount.consistent.inode_range Disk.node_nil).2.1

theorem Mounted.performs_write {b : Nat} (buf : Block) (hpos : 0 < b)
    (hlt : b < world.disk.diskSize) {world' : World}
    (hsize : world'.device.size = world.device.size) :
    Performs (blockWrite buf b) world' [.write b buf] () := by
  refine Performs.write buf hpos ?_ (hlt.trans_le hmount.consistent.size_le)
  rw [hsize]
  exact hlt.trans_le hmount.consistent.size_fits

theorem Mounted.run_findFirstNfreeBlocks (n : Nat) :
    run (findFirstNfreeBlocks 0 n) world =
      some (match lowestFree world.globals.bitmap world.disk.diskSize n with
        | none => .error (-eNoSpc)
        | some blocks => .ok blocks, world) := by
  have hsize := hmount.consistent.size_le
  rw [Fs5600.run_findFirstNfreeBlocks n (by rw [hmount.superblock]; exact hsize),
    hmount.superblock]
  rfl

/-- Free blocks lie behind the reserved ones. -/
theorem Mounted.usable_of_lowestFree {n : Nat} {blocks : List Nat}
    (hfree : lowestFree world.globals.bitmap world.disk.diskSize n =
      some blocks) :
    ∀ b ∈ blocks, 2 < b ∧ b < world.disk.diskSize ∧
      ¬ Marked (world.disk 1) b := by
  intro b hb
  obtain ⟨hlt, hclear⟩ := (lowestFree_eq_some hfree).2.2 b hb
  rw [hmount.bitmap] at hclear
  refine ⟨?_, hlt, hclear⟩
  by_contra hle
  exact hclear (hmount.consistent.reserved b (by omega))

/-- The bitmap update, for blocks of the file system. -/
theorem Mounted.performs_modifyBitmap {blocks : List Nat}
    (hblocks : ∀ b ∈ blocks, b < world.disk.diskSize) (setFlag : Bool)
    {world' : World} (hsize : world'.device.size = world.device.size)
    (hmap : world'.globals.bitmap = world.globals.bitmap) :
    Performs
      (modifyBitmapAndWritebackToDisk (blocks.map Int.ofNat) setFlag) world'
      (markEffects (if setFlag then bitSetAll world.globals.bitmap blocks
        else bitClearAll world.globals.bitmap blocks)) () := by
  have hin : ∀ i ∈ blocks.map Int.ofNat, 0 ≤ i ∧ i < 32768 := by
    intro i hi
    obtain ⟨b, hb, rfl⟩ := List.mem_map.mp hi
    have hlt := (hblocks b hb).trans_le hmount.consistent.size_le
    exact ⟨Int.natCast_nonneg b, Int.ofNat_lt.mpr hlt⟩
  have hcast : (blocks.map Int.ofNat).map Int.toNat = blocks := by
    rw [List.map_map]
    exact List.map_id _
  refine Performs.bind_read (Performs.require hin world') ?_
  refine Performs.bind (Performs.modify (Globals.setBitmap
    (if setFlag then bitSetAll world.globals.bitmap blocks
      else bitClearAll world.globals.bitmap blocks)) ?_) ?_
  · rw [hcast, hmap]
    cases setFlag <;> rfl
  · refine Performs.bind_read (run_loadGlobals _) ?_
    exact hmount.performs_write (b := 1) _ Nat.one_pos
      (Nat.lt_trans Nat.one_lt_two hmount.two_lt) hsize

/-! Creation. -/

theorem Mounted.run_validateDirectoryAndEntry {path : CString}
    (hne : parse path ≠ []) {site : List Slot} {names : List Name}
    {inum : Nat} (hnode : world.disk.node site = some (names, inum)) :
    run (validateDirectoryAndEntry path (world.disk.inode inum)) world =
      some (if ¬ (world.disk.inode inum).isDir then .error (-eNotDir)
        else if (firstNamed (world.disk.entries inum) (leaf path)).isSome
        then .error (-eExist) else .ok (world.disk.entries inum),
        world) := by
  rw [validateDirectoryAndEntry, run_rejectIf_bind]
  by_cases hdir : (world.disk.inode inum).isDir = true
  · have hread := hmount.run_readDirectory hnode hdir
    rw [if_neg (not_not.mpr hdir), if_neg (not_not.mpr hdir),
      run_bind_ok hread, run_bind_ok (run_leafName hne world),
      run_rejectIf_bind, any_eq_isSome_firstNamed]
    split <;> rfl
  · rw [if_pos hdir, if_pos hdir]

theorem Mounted.performs_writeNewEntry (ctx : Context) {path : CString}
    (hne : parse path ≠ []) (mode : UInt32) (dirflag : Bool)
    {site : List Slot} {names : List Name} {inum : Nat}
    (hnode : world.disk.node site = some (names, inum))
    (hdir : (world.disk.inode inum).isDir = true) (slot : Slot)
    {blocks : List Nat}
    (hfree : lowestFree world.globals.bitmap world.disk.diskSize
      (if dirflag then 2 else 1) = some blocks) :
    Performs
      (writeNewEntry ctx path mode dirflag (world.disk.entries inum)
        (wordToInt ((world.disk.inode inum).ptrs 0)) slot blocks) world
      (Change.effects world (.insert site inum slot (leaf path)
        ((inodeFromMode ctx
          (if dirflag then mode ||| sIfdir else mode)).setPtr 0
            (if dirflag then ((blocks.getD 1 0 : Nat) : Int) else 0))
        dirflag blocks)) () := by
  have hlt := (hmount.consistent.entries_range hnode hdir).2.1
  rw [wordToInt_ptrs_zero _ (hlt.trans_le hmount.consistent.size_le)]
  have hmark := fun (world' : World)
      (hsize : world'.device.size = world.device.size) hmap =>
    hmount.performs_modifyBitmap
      (fun b hb => (hmount.usable_of_lowestFree hfree b hb).2.1) true
      hsize hmap
  have husable := hmount.usable_of_lowestFree hfree
  have hpos := (hmount.consistent.entries_range hnode hdir).1
  have hlength := (lowestFree_eq_some hfree).1
  simp only [Change.effects, Disk.setEntry, List.cons_append,
    List.nil_append]
  cases dirflag with
  | false =>
      obtain ⟨child, rfl⟩ := List.length_eq_one_iff.mp hlength
      obtain ⟨hchild, hchildlt, -⟩ := husable child (by simp)
      refine Performs.bind_cons
        (hmount.performs_write _ (by omega) hchildlt rfl) ?_
      refine Performs.bind_read (run_leafName hne _) ?_
      refine Performs.bind_cons
        (hmount.performs_write _ (by omega) hlt rfl) ?_
      exact Performs.bind_cons (Performs.modify _ rfl) (hmark _ rfl rfl)
  | true =>
      obtain ⟨child, dirblock, rfl⟩ := List.length_eq_two.mp hlength
      obtain ⟨hchild, hchildlt, -⟩ := husable child (by simp)
      obtain ⟨hblock, hblocklt, -⟩ := husable dirblock (by simp)
      refine Performs.bind_cons
        (hmount.performs_write _ (by omega) hchildlt rfl) ?_
      refine Performs.bind_read (run_leafName hne _) ?_
      refine Performs.bind_cons
        (hmount.performs_write _ (by omega) hlt rfl) ?_
      refine Performs.bind_cons
        (hmount.performs_write _ (by omega) hblocklt rfl) ?_
      exact Performs.bind_cons (Performs.modify _ rfl) (hmark _ rfl rfl)

theorem Mounted.follows_create (ctx : Context) {path : CString}
    (hne : parse path ≠ []) (mode : UInt32) (dirflag : Bool) :
    Follows (createDirectoryEntry ctx path mode dirflag) world
      (world.planCreate ctx path mode dirflag) := by
  rw [World.planCreate]
  cases hresolve : world.disk.resolve (parse path).dropLast with
  | error status => exact Follows.fail (hmount.run_parent_error hresolve)
  | ok there =>
      obtain ⟨site, inum⟩ := there
      have hnode := Disk.node_of_resolve hresolve
      refine Follows.read (hmount.run_parent hresolve) ?_
      have hvalid := hmount.run_validateDirectoryAndEntry hne hnode
      dsimp only
      by_cases hdir : (world.disk.inode inum).isDir = true
      · rw [if_neg (not_not.mpr hdir)] at hvalid ⊢
        refine Follows.check hvalid fun hnew => ?_
        have hfree := hmount.run_findFirstNfreeBlocks
          (if dirflag then 2 else 1)
        rw [findFreeDirEntry]
        cases firstInvalid (world.disk.entries inum) 0 with
        | none => exact Follows.fail rfl
        | some slot =>
            refine Follows.read (Performs.pure slot world) ?_
            dsimp only
            cases hblocks : lowestFree world.globals.bitmap
                world.disk.diskSize (if dirflag then 2 else 1) with
            | none =>
                rw [hblocks] at hfree
                exact Follows.fail hfree
            | some blocks =>
                rw [hblocks] at hfree
                refine Follows.read hfree ?_
                have hwrite := hmount.performs_writeNewEntry ctx hne mode
                  dirflag hnode hdir slot hblocks
                rw [Follows, ← List.append_nil (Change.effects _ _)]
                exact Performs.bind hwrite (Performs.pure 0 _)
      · rw [if_pos hdir] at hvalid ⊢
        exact Follows.fail hvalid

/-! Removal. -/

/-- The blocks that the size of an object covers are held by it. -/
theorem Mounted.ptr_range {path : List Slot} {names : List Name}
    {i : Nat} (hnode : world.disk.node path = some (names, i)) {k : Nat}
    (hk : k < blockCount (world.disk.inode i).length) :
    2 ≤ (world.disk.inode i).ptr k ∧
      (world.disk.inode i).ptr k < world.disk.diskSize := by
  have hobject := hmount.consistent.object path names i hnode
  rcases hobject.kind with hreg | ⟨hdir, hsize⟩
  · have hrange := hmount.consistent.range _ _
      (Disk.holder_data hnode hreg hk)
    exact ⟨hrange.1, hrange.2.1⟩
  · have hone : k = 0 := by
      have hlength := hobject.size_eq
      rw [hsize] at hlength
      rw [blockCount] at hk
      omega
    have hrange := hmount.consistent.entries_range hnode hdir
    rw [hone]
    exact ⟨hrange.1, hrange.2.1⟩

theorem Mounted.performs_unlinkDirectoryEntry {path : CString}
    (hne : parse path ≠ []) {site : List Slot} {inum : Nat} {slot : Slot}
    (hparent : world.disk.resolve (parse path).dropLast = .ok (site, inum))
    (hdir : (world.disk.inode inum).isDir = true)
    (hfound : firstNamed (world.disk.entries inum) (leaf path) =
      some slot) :
    Performs (unlinkDirectoryEntry path) world
      [world.disk.setEntry inum slot
        { world.disk.entries inum slot with valid := false }] () := by
  have hlookup := hmount.run_parent hparent
  have hnode := Disk.node_of_resolve hparent
  have hrange := hmount.consistent.entries_range hnode hdir
  have hindex : run (findIndexInDir (leaf path) (world.disk.entries inum))
      world = some (.ok slot, world) := by
    rw [findIndexInDir, hfound]
    rfl
  refine Performs.bind_read hlookup
    (Performs.bind_read (hmount.run_readDirectory hnode hdir)
      (Performs.bind_read (run_leafName hne world)
        (Performs.bind_read hindex ?_)))
  dsimp only
  rw [wordToInt_ptrs_zero _
    (hrange.2.1.trans_le hmount.consistent.size_le)]
  exact hmount.performs_write _ (by omega) hrange.2.1 rfl

/-- The blocks that `fs_unlink` gives back. -/
theorem Mounted.unlinked_lt {path : List Slot} {names : List Name}
    {i : Nat} (hnode : world.disk.node path = some (names, i)) :
    ∀ b ∈ (List.range (blockCount (world.disk.inode i).length)).map
      (world.disk.inode i).ptr ++ [i], b < world.disk.diskSize := by
  intro b hb
  rcases List.mem_append.mp hb with hb | hb
  · obtain ⟨k, hk, rfl⟩ := List.mem_map.mp hb
    exact (hmount.ptr_range hnode (List.mem_range.mp hk)).2
  · rw [List.mem_singleton.mp hb]
    exact (hmount.consistent.inode_range hnode).2.1

omit hmount in
theorem FsInode.unlinked_cast (inode : FsInode) (count i : Nat) :
    ((List.range' 0 count).map inode.ptr).map Int.ofNat ++ [(i : Int)] =
      ((List.range count).map inode.ptr ++ [i]).map Int.ofNat := by
  rw [List.map_append, List.range_eq_range']
  rfl

theorem Mounted.follows_unlink {path : CString} (hne : parse path ≠ []) :
    Follows (fsUnlink path) world (world.planUnlink path) := by
  rw [World.planUnlink]
  cases hresolve : world.disk.resolve (parse path) with
  | error status => exact Follows.fail (hmount.run_target_error hresolve)
  | ok there =>
      obtain ⟨target, fileInum⟩ := there
      obtain ⟨site, inum, slot, hparent, hdir, hfound, -⟩ :=
        Disk.resolve_parent hne hresolve
      have hnode := Disk.node_of_resolve hresolve
      have hobject := hmount.consistent.object _ _ _ hnode
      have hcopy := run_copyPtrs (world.disk.inode fileInum)
        (blockCount (world.disk.inode fileInum).length) 0
        (by have := hobject.blockCount_le; omega)
        (fun k _ hk => (hmount.ptr_range hnode (by omega)).2.trans_le
          hmount.consistent.size_le) world
      simp only [World.planRemove, hparent, hfound]
      refine Performs.bind_read (hmount.run_target hresolve) ?_
      dsimp only
      rw [hobject.sizeInBlocks_eq]
      refine Performs.bind_read (Performs.require (by omega) world) ?_
      refine Performs.bind_read hcopy ?_
      refine Performs.bind_cons
        (hmount.performs_unlinkDirectoryEntry hne hparent hdir hfound) ?_
      dsimp only
      rw [FsInode.unlinked_cast]
      refine Performs.bind (hmount.performs_modifyBitmap
        (hmount.unlinked_lt hnode) false rfl rfl) ?_
      refine Performs.bind_cons (Performs.modify _ ?_) (Performs.pure 0 _)
      simp

theorem Mounted.run_checkDirEmpty {path : CString} {target : List Slot}
    {inum : Nat}
    (hresolve : world.disk.resolve (parse path) = .ok (target, inum)) :
    run (checkDirEmpty path) world =
      some (if ¬ (world.disk.inode inum).isDir then .error (-eNotDir)
        else match firstInvalid (world.disk.entries inum) 0 with
          | none => .error (-eNoSpc)
          | some slot =>
              if slot ≠ 0 then .error (-eNotEmpty)
              else .ok ((inum : Int), ((world.disk.inode inum).ptr 0 : Int)),
        world) := by
  have hnode := Disk.node_of_resolve hresolve
  rw [checkDirEmpty, run_bind_ok (hmount.run_target hresolve)]
  dsimp only
  rw [run_rejectIf_bind]
  by_cases hdir : (world.disk.inode inum).isDir = true
  · have hlt := (hmount.consistent.entries_range hnode hdir).2.1
    rw [if_neg (not_not.mpr hdir), if_neg (not_not.mpr hdir),
      run_bind_ok (hmount.run_readDirectory hnode hdir), findFreeDirEntry]
    cases firstInvalid (world.disk.entries inum) 0 with
    | none => rfl
    | some slot =>
        dsimp only
        rw [run_bind_ok rfl, run_rejectIf_bind,
          wordToInt_ptrs_zero _ (hlt.trans_le hmount.consistent.size_le)]
        split <;> rfl
  · rw [if_pos hdir, if_pos hdir]

theorem Mounted.follows_rmdir {path : CString} (hne : parse path ≠ []) :
    Follows (fsRmdir path) world (world.planRmdir path) := by
  rw [World.planRmdir]
  cases hresolve : world.disk.resolve (parse path) with
  | error status =>
      exact Follows.fail (run_bind_error (hmount.run_target_error hresolve))
  | ok there =>
      obtain ⟨target, dirInum⟩ := there
      have hcheck := hmount.run_checkDirEmpty hresolve
      dsimp only
      by_cases hdir : (world.disk.inode dirInum).isDir = true
      · rw [if_neg (not_not.mpr hdir)] at hcheck ⊢
        cases hslot : firstInvalid (world.disk.entries dirInum) 0 with
        | none =>
            rw [hslot] at hcheck
            exact Follows.fail hcheck
        | some free =>
            rw [hslot] at hcheck
            refine Follows.check hcheck fun _ => ?_
            obtain ⟨site, inum, slot, hparent, hpdir, hfound, -⟩ :=
              Disk.resolve_parent hne hresolve
            have hnode := Disk.node_of_resolve hresolve
            have hrange : ∀ b ∈ [dirInum, (world.disk.inode dirInum).ptr 0],
                b < world.disk.diskSize := by
              intro b hb
              rcases List.mem_pair.mp hb with rfl | rfl
              · exact (hmount.consistent.inode_range hnode).2.1
              · exact (hmount.consistent.entries_range hnode hdir).2.1
            simp only [World.planRemove, hparent, hfound]
            refine Performs.bind_cons
              (hmount.performs_unlinkDirectoryEntry hne hparent hpdir
                hfound) ?_
            refine Performs.bind
              (hmount.performs_modifyBitmap hrange false rfl rfl) ?_
            exact Performs.bind_cons (Performs.modify _ rfl)
              (Performs.pure 0 _)
      · rw [if_pos hdir] at hcheck ⊢
        exact Follows.fail hcheck

/-! Attributes. -/

theorem Mounted.run_fileDir {path : CString} (hne : parse path ≠ [])
    {site : List Slot} {inum : Nat}
    (hparent : world.disk.resolve (parse path).dropLast = .ok (site, inum))
    (hdir : (world.disk.inode inum).isDir = true) :
    run (fileDir path) world =
      some (.ok (((world.disk.inode inum).ptr 0 : Int),
        world.disk.entries inum,
        firstNamed (world.disk.entries inum) (leaf path)), world) := by
  have hnode := Disk.node_of_resolve hparent
  have hlt := (hmount.consistent.entries_range hnode hdir).2.1
  rw [fileDir, run_bind_ok (hmount.run_parent hparent)]
  dsimp only
  rw [run_rejectIf_bind, if_neg (not_not.mpr hdir),
    run_bind_ok (hmount.run_readDirectory hnode hdir),
    run_bind_ok (run_leafName hne world),
    wordToInt_ptrs_zero _ (hlt.trans_le hmount.consistent.size_le)]
  rfl

theorem Mounted.follows_rename (srcPath dstPath : CString) :
    Follows (fsRename srcPath dstPath) world
      (world.planRename srcPath dstPath) := by
  rw [World.planRename]
  cases hresolve : world.disk.resolve (parse srcPath) with
  | error status => exact Follows.fail (hmount.run_target_error hresolve)
  | ok there =>
      obtain ⟨target, fileInum⟩ := there
      refine Follows.read (hmount.run_target hresolve) ?_
      have hdst := run_attempt (hmount.run_pathToInode dstPath 0)
      rw [Nat.sub_zero, List.take_length] at hdst
      refine Follows.read hdst ?_
      have hisOk : ((world.disk.resolve (parse dstPath)).map fun there =>
          ((there.2 : Int), world.disk.inode there.2)).isOk =
            (world.disk.resolve (parse dstPath)).isOk := by
        cases world.disk.resolve (parse dstPath) <;> rfl
      rw [hisOk]
      refine Follows.rejectIf fun hnew => ?_
      refine Follows.rejectIf fun hlength => ?_
      refine Follows.rejectIf fun hsame => ?_
      have hdne : parse dstPath ≠ [] := by
        intro hnil
        rw [hnil] at hnew
        exact hnew rfl
      have hsne : parse srcPath ≠ [] := by
        intro hnil
        rw [hnil, List.length_nil, not_not, List.length_eq_zero_iff]
          at hlength
        exact hdne hlength
      obtain ⟨site, inum, slot, hparent, hdir, hfound, -⟩ :=
        Disk.resolve_parent hsne hresolve
      have hrange := hmount.consistent.entries_range
        (Disk.node_of_resolve hparent) hdir
      have hfile := hmount.run_fileDir hsne hparent hdir
      rw [hfound] at hfile
      simp only [hparent, hfound]
      refine Follows.read hfile ?_
      refine Follows.read (Performs.rejectIf (by dsimp only; omega) _ world) ?_
      refine Follows.read (run_leafName hdne world) ?_
      exact Performs.bind_cons
        (hmount.performs_write _ (by omega) hrange.2.1 rfl)
        (Performs.pure 0 _)

theorem Mounted.follows_chmod (path : CString) (mode : UInt32) :
    Follows (fsChmod path mode) world (world.planChmod path mode) := by
  rw [World.planChmod]
  cases hresolve : world.disk.resolve (parse path) with
  | error status => exact Follows.fail (hmount.run_target_error hresolve)
  | ok there =>
      obtain ⟨site, inum⟩ := there
      have hrange := hmount.consistent.inode_range
        (Disk.node_of_resolve hresolve)
      refine Follows.read (hmount.run_target hresolve) ?_
      exact Performs.bind_cons
        (hmount.performs_write _ (by omega) hrange.2.1 rfl)
        (Performs.pure 0 _)

theorem Mounted.follows_utime (path : CString) (modtime : Int) :
    Follows (fsUtime path modtime) world (world.planUtime path modtime) := by
  rw [World.planUtime]
  cases hresolve : world.disk.resolve (parse path) with
  | error status => exact Follows.fail (hmount.run_target_error hresolve)
  | ok there =>
      obtain ⟨site, inum⟩ := there
      have hrange := hmount.consistent.inode_range
        (Disk.node_of_resolve hresolve)
      refine Follows.read (hmount.run_target hresolve) ?_
      refine Follows.rejectIf fun _ => ?_
      exact Performs.bind_cons
        (hmount.performs_write _ (by omega) hrange.2.1 rfl)
        (Performs.pure 0 _)

end

end Fs5600
