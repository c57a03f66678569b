/-
`fs_create`, `fs_mkdir`, `fs_unlink` and `fs_write` obey their protocol.
-/
import Fs5600.Protocol

namespace Fs5600

open MachineWord EffectProgram Program

theorem leafName_eq {path : CString} (hne : parse path ≠ []) :
    leafName (parse path) = pure (leaf path) := by
  rw [leafName, leaf, List.getLastD_eq_getLast?]
  cases hlast : (parse path).getLast? with
  | none => exact absurd (List.getLast?_eq_none_iff.mp hlast) hne
  | some name => rfl

section

variable {world : World} (hsteady : Steady world) {path : CString}
  (hne : parse path ≠ []) {site : List Slot} {inum : Nat}
  (hparent : world.disk.resolve (parse path).dropLast = .ok (site, inum))
  (hdir : (world.disk.inode inum).isDir = true)

include hsteady

/-- The target of a call that is looking. -/
theorem Steady.reads_target :
    Reads (Undisturbed (parse path) world)
      (pathToInode path 0) fun there => ∃ site i,
        world.disk.resolve (parse path) = .ok (site, i) ∧
          there = ((i : Int), world.disk.inode i) := by
  have hreads := hsteady.reads_pathToInode (fun _ => Undisturbed.beside)
    path 0 fun _ => Undisturbed.sight
  rw [Nat.sub_zero, List.take_length] at hreads
  exact hreads

include hparent

theorem Steady.reads_parent :
    Reads (Undisturbed (parse path) world)
      (pathToInode path 1) fun there =>
        there = ((inum : Int), world.disk.inode inum) := by
  refine (hsteady.reads_pathToInode (fun _ => Undisturbed.beside) path 1
    fun _ => Undisturbed.sight).mono fun there hthere => ?_
  rw [← List.dropLast_eq_take] at hthere
  obtain ⟨site', i, hresolve, rfl⟩ := hthere
  rw [hparent] at hresolve
  cases hresolve
  rfl

include hdir

theorem Steady.reads_parentBlock :
    Reads (Undisturbed (parse path) world)
      (readDirectory (wordToInt ((world.disk.inode inum).ptrs 0))) fun dir =>
        dir = world.disk.entries inum := by
  refine (hsteady.reads_directory (fun _ => Undisturbed.beside)
    (Disk.node_of_resolve hparent) hdir fun state hsees =>
      hsees.sight.parent_inode hparent).mono fun dir hdir => ?_
  obtain ⟨state, hsees, rfl⟩ := hdir
  exact hsees.sight.parent _ _ hparent

include hne

theorem Steady.reads_validate :
    Reads (Undisturbed (parse path) world)
      (validateDirectoryAndEntry path (world.disk.inode inum)) fun dir =>
        dir = world.disk.entries inum ∧
          ¬ (firstNamed (world.disk.entries inum) (leaf path)).isSome := by
  rw [validateDirectoryAndEntry]
  refine Sees.rejectIf_bind _ fun _ => ?_
  refine Sees.bind (hsteady.reads_parentBlock hparent hdir)
    fun dir heq => ?_
  subst heq
  rw [leafName_eq hne]
  refine Sees.rejectIf_bind _ fun hfresh => Sees.pure ⟨rfl, ?_⟩
  rw [any_eq_isSome_firstNamed] at hfresh
  exact hfresh

end

/-- Blocks that a search finds lie behind the reserved ones. -/
theorem Undisturbed.usable {names : List Name} {world state : World}
    (hstate : Undisturbed names world state) {n : Nat} {blocks : List Nat}
    (hfree : lowestFree state.globals.bitmap world.disk.diskSize n =
      some blocks) : ∀ b ∈ blocks, 2 < b ∧ b < world.disk.diskSize := by
  intro b hb
  obtain ⟨hlt, hclear⟩ := (lowestFree_eq_some hfree).2.2 b hb
  refine ⟨?_, hlt⟩
  by_contra hle
  exact hclear (hstate.reserved b (by omega))

section

variable {world : World} {request : Request} {phase : Phase}
  {change : Change} {todo : List Act} {path : CString}

/-- Reading while the call is looking. -/
theorem Request.Abides.of_looking
    (hsubject : request.call.subject = parse path) {A : Type} {code : Fs A}
    {next : A → Fs Reply} {post : A → Prop}
    (hcode : Reads (Undisturbed (parse path) world) code post)
    (hnext : ∀ value, post value →
      request.Abides world (next value) .looking) :
    request.Abides world (code >>= next) .looking := by
  rw [← hsubject] at hcode
  exact .of_reads hcode hnext

theorem Request.Abides.rejectIf {test : Prop} [Decidable test] {status : Int}
    {next : Unit → Fs Reply}
    (hnext : ¬ test → request.Abides world (next ()) phase) :
    request.Abides world (Program.rejectIf test status >>= next) phase := by
  by_cases htest : test
  · rw [Program.rejectIf, if_pos htest]
    exact .exit _ _
  · rw [Program.rejectIf, if_neg htest]
    exact hnext htest

theorem Steady.abides_modifyBitmap (hsteady : Steady world)
    {blocks : List Nat} (hblocks : ∀ b ∈ blocks, b < 32768) (setFlag : Bool)
    {next : Unit → Fs Reply}
    (hnext : request.Abides world (next ()) (.acting change todo)) :
    request.Abides world
      (modifyBitmapAndWritebackToDisk (blocks.map Int.ofNat) setFlag >>= next)
      (.acting change
        ((if setFlag then .mark blocks else .clear blocks) ::
          .sync :: todo)) := by
  have hin : ∀ i ∈ blocks.map Int.ofNat, 0 ≤ i ∧ i < 32768 := by
    intro i hi
    obtain ⟨b, hb, rfl⟩ := List.mem_map.mp hi
    exact ⟨Int.natCast_nonneg b, Int.ofNat_lt.mpr (hblocks b hb)⟩
  have hcall : ∃ query rest, modifyBitmapAndWritebackToDisk
      (blocks.map Int.ofNat) setFlag >>= next = .call query rest ∧
        query.inMemory = true := by
    rw [modifyBitmapAndWritebackToDisk, Program.require, if_pos hin]
    exact ⟨_, _, rfl, rfl⟩
  exact .of_memory [_] hcall _
    (fun state => settle_modifyBitmap hblocks setFlag next)
    fun _ => hsteady.abides_sync hnext

/-- The end of a creation, in memory up to the store of the bitmap. -/
theorem Steady.abides_account (hsteady : Steady world) {blocks : List Nat}
    (hblocks : ∀ b ∈ blocks, b < 32768) (delta : Int) :
    request.Abides world
      (modifyGlobals (Globals.addFree delta) >>= fun _ =>
        modifyBitmapAndWritebackToDisk (blocks.map Int.ofNat) true >>=
          fun _ => pure (.code change.result))
      (.acting change [.count delta, .mark blocks, .sync]) :=
  .of_memory [_, _] ⟨_, _, rfl, rfl⟩ _
    (fun _ => (settle_modify _ _).trans
      (settle_modifyBitmap hblocks true _))
    fun _ => hsteady.abides_sync .done

end

theorem writeNewEntry_bind {path : CString} (hne : parse path ≠ [])
    (ctx : Context) (mode : UInt32) {dirflag : Bool} (dirBlock : Directory)
    (dirBlockInum : Int) (slot : Slot) {blocks : List Nat}
    (hlength : blocks.length = if dirflag then 2 else 1)
    (next : Unit → Fs Reply) :
    writeNewEntry ctx path mode dirflag dirBlock dirBlockInum slot blocks >>=
        next =
      blockWrite ((inodeFromMode ctx
        (if dirflag then mode ||| sIfdir else mode)).setPtr 0
          (if dirflag then ((blocks.getD 1 0 : Nat) : Int) else 0)).encode
        (blocks.getD 0 0 : Nat) >>= fun _ =>
      blockWrite (Directory.encode (Function.update dirBlock slot
        ((dirBlock slot).occupied (blocks.getD 0 0) (leaf path))))
          dirBlockInum >>= fun _ =>
      (if dirflag then blockWrite zeroBlock (blocks.getD 1 0 : Nat)
        else pure ()) >>= fun _ =>
      modifyGlobals (Globals.addFree (-blocks.length)) >>= fun _ =>
        modifyBitmapAndWritebackToDisk (blocks.map Int.ofNat) true >>=
          next := by
  have hdelta : (if dirflag then -2 else -1 : Int) = -blocks.length := by
    rw [hlength]
    cases dirflag <;> rfl
  rw [writeNewEntry, Program.bind_assoc, getEntryNameFromPath,
    leafName_eq hne, hdelta]
  congr 1
  funext _
  change (blockWrite _ _ >>= _) >>= _ = _
  rw [Program.bind_assoc]
  congr 1
  funext _
  cases dirflag with
  | false => rw [if_neg Bool.false_ne_true, Program.bind_assoc]; rfl
  | true => rw [if_pos rfl, Program.bind_assoc]; rfl

section

variable {world : World} (hsteady : Steady world) {request : Request}
  {path : CString} (hsubject : request.call.subject = parse path)
  (hne : parse path ≠ []) {site : List Slot} {inum : Nat}
  (hparent : world.disk.resolve (parse path).dropLast = .ok (site, inum))
  (hdir : (world.disk.inode inum).isDir = true)

include hsteady hne hparent hdir

/-- The four writebacks of a creation. -/
theorem Steady.abides_writeNewEntry (ctx : Context) (mode : UInt32)
    (dirflag : Bool) (slot : Slot) {blocks : List Nat}
    (hlength : blocks.length = if dirflag then 2 else 1)
    (husable : ∀ b ∈ blocks, 2 < b ∧ b < world.disk.diskSize)
    {change : Change}
    (hchange : change = .insert site inum slot (leaf path)
      ((inodeFromMode ctx
        (if dirflag then mode ||| sIfdir else mode)).setPtr 0
          (if dirflag then ((blocks.getD 1 0 : Nat) : Int) else 0))
      dirflag blocks) :
    request.Abides world
      (writeNewEntry ctx path mode dirflag (world.disk.entries inum)
        ((world.disk.inode inum).ptr 0 : Nat) slot blocks >>= fun _ =>
          pure (.code change.result))
      (.acting change (change.acts world.disk)) := by
  have hrange := hsteady.consistent.entries_range
    (Disk.node_of_resolve hparent) hdir
  have hblocks : ∀ b ∈ blocks, b < 32768 := fun b hb =>
    (husable b hb).2.trans_le hsteady.consistent.size_le
  have hchild : blocks.getD 0 0 ∈ blocks := by
    have hpos : 0 < blocks.length := by rw [hlength]; split <;> omega
    rw [List.getD_eq_getElem _ _ hpos]
    exact List.getElem_mem hpos
  have hacts : change.acts world.disk = _ :=
    (congrArg _ hchange).trans (List.append_assoc _ _ _)
  rw [hacts, writeNewEntry_bind hne _ _ _ _ _ hlength]
  refine hsteady.abides_put (husable _ hchild).2
    (Nat.lt_of_succ_lt (husable _ hchild).1) ?_
  refine hsteady.abides_put hrange.2.1 hrange.1 ?_
  cases dirflag with
  | false => exact hsteady.abides_account hblocks _
  | true =>
      have hblock : blocks.getD 1 0 ∈ blocks := by
        have hpos : 1 < blocks.length := by rw [hlength]; exact Nat.one_lt_two
        rw [List.getD_eq_getElem _ _ hpos]
        exact List.getElem_mem hpos
      exact hsteady.abides_put (husable _ hblock).2
        (Nat.lt_of_succ_lt (husable _ hblock).1)
        (hsteady.abides_account hblocks _)

include hsubject

theorem Steady.abides_create (ctx : Context) (mode : UInt32) (dirflag : Bool)
    (hplan : ∀ state : World,
      request.plan state = state.planCreate ctx path mode dirflag) :
    request.Abides world (createDirectoryEntry ctx path mode dirflag >>=
      fun result => pure (.code result)) .looking := by
  have hrange := hsteady.consistent.entries_range
    (Disk.node_of_resolve hparent) hdir
  rw [createDirectoryEntry, bind_assoc]
  refine .of_looking hsubject (hsteady.reads_parent hparent)
    fun there heq => ?_
  subst heq
  rw [bind_assoc]
  refine .of_looking hsubject (hsteady.reads_validate hne hparent hdir)
    fun dir hseen => ?_
  obtain ⟨rfl, hfresh⟩ := hseen
  dsimp only
  rw [wordToInt_ptrs_zero _ (hrange.2.1.trans_le hsteady.consistent.size_le),
    findFreeDirEntry]
  cases hslot : firstInvalid (world.disk.entries inum) 0 with
  | none => exact .exit _ _
  | some slot =>
      change request.Abides world ((findFirstNfreeBlocks 0
        (if dirflag then 2 else 1) >>= _) >>= _) _
      rw [bind_assoc]
      refine hsteady.abides_search (by split <;> omega)
        fun state blocks hsees hfree => ?_
      rw [hsubject] at hsees
      have hlength := (lowestFree_eq_some hfree).1
      refine ⟨.insert site inum slot (leaf path) ((inodeFromMode ctx
        (if dirflag then mode ||| sIfdir else mode)).setPtr 0
          (if dirflag then ((blocks.getD 1 0 : Nat) : Int) else 0))
        dirflag blocks, [], _, _, ?_, rfl, ?_,
        hsteady.abides_writeNewEntry hne hparent hdir ctx mode dirflag slot
          hlength (hsees.usable hfree) rfl⟩
      · rw [hplan, World.planCreate, hsees.sight.resolve_parent, hparent]
        simp only [hsees.sight.parent_inode hparent,
          hsees.sight.parent _ _ hparent, hsees.sight.diskSize_eq]
        rw [if_neg (not_not.mpr hdir), if_neg hfresh, hslot]
        simp only [hfree]
      · rw [Program.bind_assoc, writeNewEntry_bind hne _ _ _ _ _ hlength,
          writeNewEntry_bind hne _ _ _ _ _ hlength]
        exact settle_write _ _ _

end

/-! Code between the steps that asks nothing. -/

theorem ptrAt_eq (inode : FsInode) {k : Nat} (hk : k < 1019) :
    ptrAt inode k = pure (inode.ptrs ⟨k, hk⟩) := by
  rw [ptrAt, dif_pos ⟨Int.natCast_nonneg k, by omega⟩]
  rfl

theorem copyPtrs_quiet (inode : FsInode) (count : Nat) (blkIdx : Int) :
    (copyPtrs inode count blkIdx).Only fun _ => False := by
  induction count generalizing blkIdx with
  | zero => exact only_pure _
  | succ count ih =>
      rw [copyPtrs, ptrAt]
      split
      · exact (ih (blkIdx + 1)).bind fun _ => only_pure _
      · trivial

theorem copyPtrs_eq (inode : FsInode) (count start : Nat)
    (hbound : start + count ≤ 1019)
    (hptr : ∀ k, start ≤ k → k < start + count → inode.ptr k < 32768)
    (world : World) :
    copyPtrs inode count start =
      pure (((List.range' start count).map inode.ptr).map Int.ofNat) :=
  eq_pure_of_exec (copyPtrs_quiet inode count start)
    (run_copyPtrs inode count start hbound hptr world)

section

variable {world : World} (hsteady : Steady world) {request : Request}
  {path : CString} (hsubject : request.call.subject = parse path)
  (hne : parse path ≠ []) {site : List Slot} {inum : Nat}
  (hparent : world.disk.resolve (parse path).dropLast = .ok (site, inum))
  (hdir : (world.disk.inode inum).isDir = true)

include hsteady hsubject hne hparent hdir

theorem Steady.abides_unlink
    (hplan : ∀ state : World, request.plan state = state.planUnlink path) :
    request.Abides world
      (fsUnlink path >>= fun result => pure (.code result)) .looking := by
  have hrange := hsteady.consistent.entries_range
    (Disk.node_of_resolve hparent) hdir
  have hsize := hsteady.consistent.size_le
  rw [fsUnlink, Program.bind_assoc]
  refine .of_looking hsubject hsteady.reads_target fun there hthere => ?_
  obtain ⟨target, fileInum, hresolve, rfl⟩ := hthere
  obtain ⟨site', inum', slot, hparent', -, hfound, -⟩ :=
    Disk.resolve_parent hne hresolve
  rw [hparent] at hparent'
  cases hparent'
  have hnode := Disk.node_of_resolve hresolve
  have hobject := hsteady.consistent.object _ _ _ hnode
  have hcopy := copyPtrs_eq (world.disk.inode fileInum)
    (blockCount (world.disk.inode fileInum).length) 0
    (by have := hobject.blockCount_le; omega)
    (fun k _ hk => (hsteady.ptr_range hnode (by omega)).2.trans_le hsize)
    world
  have hchoice : ∀ state, Undisturbed request.call.subject world state →
      request.plan state = .ok (.remove site inum slot
        ((List.range (blockCount (world.disk.inode fileInum).length)).map
          (world.disk.inode fileInum).ptr ++ [fileInum])) := by
    intro state hsees
    rw [hsubject] at hsees
    rw [hplan, World.planUnlink, hsees.sight.resolve_eq, hresolve]
    simp only [World.planRemove, hsees.sight.inode_eq hresolve,
      hsees.sight.resolve_parent, hparent, hsees.sight.parent _ _ hparent,
      hfound]
  have hcount : ((blockCount (world.disk.inode fileInum).length : Nat) :
      Int) + 1 = (((List.range
        (blockCount (world.disk.inode fileInum).length)).map
          (world.disk.inode fileInum).ptr ++ [fileInum]).length : Nat) := by
    simp
  dsimp only
  rw [hobject.sizeInBlocks_eq, Program.require,
    if_pos (Int.natCast_nonneg _), Int.toNat_natCast]
  change request.Abides world ((copyPtrs _ _ ((0 : Nat) : Int) >>= _) >>= _) _
  rw [hcopy]
  change request.Abides world ((unlinkDirectoryEntry path >>= _) >>= _) _
  rw [Program.bind_assoc, unlinkDirectoryEntry, Program.bind_assoc]
  refine .of_looking hsubject (hsteady.reads_parent hparent)
    fun there heq => ?_
  subst heq
  rw [Program.bind_assoc]
  refine .of_looking hsubject (hsteady.reads_parentBlock hparent hdir)
    fun dir heq => ?_
  subst heq
  rw [getEntryNameFromPath, leafName_eq hne]
  change request.Abides world ((findIndexInDir _ _ >>= _) >>= _) _
  rw [findIndexInDir, hfound, FsInode.unlinked_cast, hcount,
    wordToInt_ptrs_zero _ (hrange.2.1.trans_le hsize)]
  refine hsteady.abides_choose_put hrange.2.1 hrange.1 hchoice rfl rfl ?_
  rw [Program.bind_assoc]
  refine hsteady.abides_modifyBitmap (fun b hb =>
    (hsteady.unlinked_lt hnode b hb).trans_le hsize) false ?_
  rw [Program.bind_assoc]
  exact .count _ rfl

end

end Fs5600
