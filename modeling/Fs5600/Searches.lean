/-
The four searches of a directory block, loop by loop as the source has them,
and what their agreement means for `fs_rename`, `fs_unlink` and `fs_rmdir` on
any image and any device.
-/
import Fs5600.Issued
import Fs5600.Reservation

namespace Fs5600

open MachineWord EffectProgram Program

/-! The loops.  The one of `translate` is `translateScan`. -/

/-- The loop of `validate_directory_and_entry`. -/
def validateLoop (dirBlock : Directory) (filename : Name) :
    List (Fin 128) → Int
  | [] => 0
  | entryIdx :: rest =>
      if (dirBlock entryIdx).valid then
        if (dirBlock entryIdx).nameString = filename then -eExist
        else validateLoop dirBlock filename rest
      else validateLoop dirBlock filename rest

/-- The loop of `find_index_in_dir`: its status, and `*dirIdx` if it has been
assigned. -/
def findIndexLoop (filename : Name) (dirBlock : Directory) :
    List (Fin 128) → Int × Option (Fin 128)
  | [] => (-eNoEnt, none)
  | entryIdx :: rest =>
      if (dirBlock entryIdx).valid then
        if (dirBlock entryIdx).nameString = filename then (0, some entryIdx)
        else findIndexLoop filename dirBlock rest
      else findIndexLoop filename dirBlock rest

/-- The loop of `file_dir` over `*resolvedEntry`. -/
def fileDirLoop (dir : Directory) (filename : Name) :
    List (Fin 128) → Option (Fin 128) → Option (Fin 128)
  | [], resolvedEntry => resolvedEntry
  | dirEntry :: rest, resolvedEntry =>
      if (dir dirEntry).valid then
        if (dir dirEntry).nameString = filename then some dirEntry
        else fileDirLoop dir filename rest resolvedEntry
      else fileDirLoop dir filename rest resolvedEntry

/-- The valid entry of lowest index with the name. -/
def LowestNamed (dir : Directory) (name : Name) (slot : Slot) : Prop :=
  ((dir slot).valid = true ∧ (dir slot).nameString = name) ∧
    ∀ earlier, earlier < slot → (dir earlier).valid = true →
      (dir earlier).nameString ≠ name

section

variable (dir : Directory) (name : Name) (slots : List Slot)

/-- The test that every search makes of an entry. -/
abbrev namedTest (slot : Slot) : Bool :=
  (dir slot).valid && (dir slot).nameString == name

theorem find?_namedTest_cons (slot : Slot) :
    (slot :: slots).find? (namedTest dir name) =
      if (dir slot).valid = true ∧ (dir slot).nameString = name then some slot
      else slots.find? (namedTest dir name) := by
  split
  next htest =>
    rw [List.find?_cons_of_pos]
    simpa [namedTest] using htest
  next htest =>
    rw [List.find?_cons_of_neg]
    simpa [namedTest] using htest

theorem validateLoop_eq : validateLoop dir name slots =
    if (slots.find? (namedTest dir name)).isSome then -eExist else 0 := by
  induction slots with
  | nil => rfl
  | cons slot rest ih =>
      rw [validateLoop, ← ite_and, find?_namedTest_cons, ih]
      split <;> rfl

theorem findIndexLoop_eq : findIndexLoop name dir slots =
    match slots.find? (namedTest dir name) with
    | some slot => (0, some slot)
    | none => (-eNoEnt, none) := by
  induction slots with
  | nil => rfl
  | cons slot rest ih =>
      rw [findIndexLoop, ← ite_and, find?_namedTest_cons, ih]
      split <;> rfl

theorem fileDirLoop_eq (resolvedEntry : Option Slot) :
    fileDirLoop dir name slots resolvedEntry =
      (slots.find? (namedTest dir name)).or resolvedEntry := by
  induction slots with
  | nil => rfl
  | cons slot rest ih =>
      rw [fileDirLoop, ← ite_and, find?_namedTest_cons, ih]
      split <;> rfl

end

section

variable {dir : Directory} {name : Name}

/-- The first entry found has the lowest index. -/
theorem firstNamed_lowest {slot : Slot}
    (hfound : firstNamed dir name = some slot) :
    LowestNamed dir name slot := by
  refine ⟨firstNamed_eq_some hfound, fun earlier hlt hvalid hname => ?_⟩
  rw [firstNamed, List.find?_eq_some_iff_getElem] at hfound
  obtain ⟨-, i, hi, hslot, hbefore⟩ := hfound
  rw [List.getElem_finRange] at hslot
  have hlt' : earlier.val < i := by
    rw [← hslot] at hlt
    exact hlt
  have htest := hbefore earlier.val hlt'
  rw [List.getElem_finRange] at htest
  simp [hvalid, hname] at htest

/-- `find_index_in_dir` with its loop written out. -/
theorem findIndexInDir_eq (dir : Directory) (name : Name) :
    findIndexInDir name dir =
      match findIndexLoop name dir (List.finRange 128) with
      | (_, some dirIdx) => pure dirIdx
      | (status, none) => .exit status := by
  rw [findIndexInDir, findIndexLoop_eq, firstNamed]
  cases (List.finRange 128).find? (namedTest dir name) <;> rfl

/-- `file_dir` searches with its loop. -/
theorem fileDirLoop_eq_firstNamed (dir : Directory) (name : Name) :
    fileDirLoop dir name (List.finRange 128) none = firstNamed dir name := by
  rw [fileDirLoop_eq, Option.or_none]
  rfl

/-- The test of `validate_directory_and_entry` with its loop written out. -/
theorem validateLoop_eq_any (dir : Directory) (name : Name) :
    validateLoop dir name (List.finRange 128) =
      if (List.ofFn dir).any fun entry =>
          entry.valid && entry.nameString == name then -eExist
      else 0 := by
  rw [validateLoop_eq, List.ofFn_eq_map, List.any_map, List.isSome_find?]
  rfl

end

/-- The four searches report the name absent, or refer to the valid entry of
lowest index with that name. -/
def SearchesAgree (dir : Directory) (name : Name) : Prop :=
  (∃ slot, LowestNamed dir name slot ∧
    (∀ inodeIndex, translateScan name (List.ofFn dir) inodeIndex =
      (dir slot).inode.toNat) ∧
    validateLoop dir name (List.finRange 128) = -eExist ∧
    findIndexLoop name dir (List.finRange 128) = (0, some slot) ∧
    fileDirLoop dir name (List.finRange 128) none = some slot) ∨
  ((∀ slot, (dir slot).valid = true → (dir slot).nameString ≠ name) ∧
    (∀ inodeIndex, translateScan name (List.ofFn dir) inodeIndex = -1) ∧
    validateLoop dir name (List.finRange 128) = 0 ∧
    findIndexLoop name dir (List.finRange 128) = (-eNoEnt, none) ∧
    fileDirLoop dir name (List.finRange 128) none = none)

theorem searchesAgree (dir : Directory) (name : Name) :
    SearchesAgree dir name := by
  have htranslate := translateScan_eq dir name
  have hvalidate := validateLoop_eq dir name (List.finRange 128)
  have hindex := findIndexLoop_eq dir name (List.finRange 128)
  have hfile := fileDirLoop_eq_firstNamed dir name
  have hfind : (List.finRange 128).find? (namedTest dir name) =
      firstNamed dir name := rfl
  rw [hfind] at hvalidate hindex
  cases hfound : firstNamed dir name with
  | none =>
      rw [hfound] at htranslate hvalidate hindex hfile
      exact Or.inr ⟨firstNamed_eq_none.mp hfound, htranslate, hvalidate,
        hindex, hfile⟩
  | some slot =>
      rw [hfound] at htranslate hvalidate hindex hfile
      exact Or.inl ⟨slot, firstNamed_lowest hfound, htranslate, hvalidate,
        hindex, hfile⟩

/-! Lookups on a device that may fail. -/

/-- The same world with a device whose reads do not fail. -/
def World.readable (world : World) : World :=
  { world with device := { world.device with readFails := never } }

/-- Code that succeeds only by what is on the image: the same happens when no
read fails, and nothing but the future of the reads is used up. -/
def Repeatable {A : Type} (code : Fs A) : Prop :=
  ∀ world value world', run code world = some (.ok value, world') →
    world'.readable = world.readable ∧
      run code world.readable = some (.ok value, world.readable)

section

variable {A B : Type}

theorem Repeatable.pure (value : A) : Repeatable (Pure.pure value) := by
  intro world value' world' hrun
  cases hrun
  exact ⟨rfl, rfl⟩

theorem Repeatable.exit (status : Int) : Repeatable (A := A) (.exit status) :=
  fun _ _ _ hrun => by cases hrun

theorem Repeatable.undefined : Repeatable (A := A) .undefined :=
  fun _ _ _ hrun => by cases hrun

theorem Repeatable.bind {code : Fs A} {next : A → Fs B}
    (hcode : Repeatable code) (hnext : ∀ value, Repeatable (next value)) :
    Repeatable (code >>= next) := by
  intro world result world' hrun
  obtain ⟨value, middle, hfirst, hsecond⟩ := exec_bind_eq_ok.mp hrun
  obtain ⟨hmiddle, hquiet⟩ := hcode world value middle hfirst
  obtain ⟨hlast, hquiet'⟩ := hnext value middle result world' hsecond
  rw [hmiddle] at hlast hquiet'
  exact ⟨hlast, by rw [run_bind_ok hquiet, hquiet']⟩

theorem Repeatable.rejectIf (test : Prop) [Decidable test] (status : Int) :
    Repeatable (Program.rejectIf test status) := by
  unfold Program.rejectIf
  split
  · exact .exit status
  · exact .pure ()

theorem blockRead_repeatable (lba : Int) : Repeatable (blockRead lba) := by
  intro world block world' hrun
  simp only [run, blockRead, exec, handle, Device.blockRead] at hrun
  by_cases hfails : world.device.readFails 0 = true
  · simp [hfails] at hrun
  cases hseek : seekBlock lba with
  | none => simp [hfails, hseek] at hrun
  | some b =>
      by_cases hsize : b < world.device.size
      · simp only [hfails, hseek, hsize] at hrun
        cases hrun
        exact ⟨rfl, run_blockRead_at rfl hseek hsize⟩
      · simp [hfails, hseek, hsize] at hrun

theorem readInode_repeatable (lba : Int) : Repeatable (readInode lba) :=
  (blockRead_repeatable lba).bind fun _ => .pure _

theorem readDirectory_repeatable (lba : Int) :
    Repeatable (readDirectory lba) :=
  (blockRead_repeatable lba).bind fun _ => .pure _

theorem translateLoop_repeatable (tokens : List Name) (inodeIndex : Int) :
    Repeatable (translateLoop inodeIndex tokens) := by
  induction tokens generalizing inodeIndex with
  | nil => exact .pure _
  | cons token tokens ih =>
      refine (readInode_repeatable _).bind fun curInode => ?_
      refine (Repeatable.rejectIf _ _).bind fun _ => ?_
      refine (readDirectory_repeatable _).bind fun curDir => ?_
      exact (Repeatable.rejectIf _ _).bind fun _ => ih _

theorem pathToInode_repeatable (path : CString) (depth : Nat) :
    Repeatable (pathToInode path depth) := by
  refine (translateLoop_repeatable _ _).bind fun inum => ?_
  exact (readInode_repeatable _).bind fun _ => .pure _

theorem leafName_repeatable (argv : List Name) :
    Repeatable (leafName argv) := by
  rw [leafName]
  split
  · exact .pure _
  · exact .undefined

theorem findIndexInDir_repeatable (filename : Name) (dirBlock : Directory) :
    Repeatable (findIndexInDir filename dirBlock) := by
  rw [findIndexInDir]
  split
  · exact .pure _
  · exact .exit _

theorem findFreeDirEntry_repeatable (dirBlock : Directory)
    (startIdx : Nat) : Repeatable (findFreeDirEntry dirBlock startIdx) := by
  rw [findFreeDirEntry]
  split
  · exact .pure _
  · exact .exit _

theorem fileDir_repeatable (filePath : CString) :
    Repeatable (fileDir filePath) := by
  refine (pathToInode_repeatable _ _).bind fun there => ?_
  refine (Repeatable.rejectIf _ _).bind fun _ => ?_
  refine (readDirectory_repeatable _).bind fun dir => ?_
  exact (leafName_repeatable _).bind fun _ => .pure _

theorem checkDirEmpty_repeatable (path : CString) :
    Repeatable (checkDirEmpty path) := by
  refine (pathToInode_repeatable _ _).bind fun there => ?_
  refine (Repeatable.rejectIf _ _).bind fun _ => ?_
  refine (readDirectory_repeatable _).bind fun dirBlock => ?_
  refine (findFreeDirEntry_repeatable _ _).bind fun _ => ?_
  exact (Repeatable.rejectIf _ _).bind fun _ => .pure _

end

/-! From the lookup of a path to the entry of its leaf. -/

theorem translateLoop_append (inodeIndex : Int) (front back : List Name) :
    translateLoop inodeIndex (front ++ back) =
      translateLoop inodeIndex front >>= fun middle =>
        translateLoop middle back := by
  induction front generalizing inodeIndex with
  | nil => rfl
  | cons token tokens ih =>
      simp only [List.cons_append, translateLoop, Program.bind_assoc, ih]

theorem translate_zero (pathv : List Name) :
    translate pathv 0 = translateLoop 2 pathv := by
  rw [translate]
  simp

theorem translate_one {pathv : List Name} (hne : pathv ≠ []) :
    translate pathv 1 = translateLoop 2 pathv.dropLast := by
  have hpos := List.length_pos_iff.mpr hne
  rw [translate, if_pos (show 1 ≤ pathv.length from hpos),
    List.dropLast_eq_take]

section

variable {world world' : World}

theorem seekBlock_of_readDirectory {lba : Int} {dir : Directory}
    (hreads : world.device.readFails = never)
    (hrun : run (readDirectory lba) world = some (.ok dir, world')) :
    ∃ b, seekBlock lba = some b ∧ b < world.device.size := by
  obtain ⟨block, middle, hblock, -⟩ := exec_bind_eq_ok.mp hrun
  cases hseek : seekBlock lba with
  | none =>
      have hfail : run (blockRead lba) world =
          some (.error (-eIo), world) :=
        run_blockRead_fail hreads (by simp [hseek])
      rw [show run (blockRead lba) world = _ from hblock] at hfail
      cases hfail
  | some b =>
      by_cases hsize : b < world.device.size
      · exact ⟨b, rfl, hsize⟩
      · have hfail : run (blockRead lba) world =
            some (.error (-eIo), world) := by
          refine run_blockRead_fail hreads fun b' hb' => ?_
          rw [hseek] at hb'
          cases hb'
          exact Nat.le_of_not_lt hsize
        rw [show run (blockRead lba) world = _ from hblock] at hfail
        cases hfail

/-- A path that resolves ends at an entry of its parent, and `file_dir` finds
that entry. -/
theorem run_fileDir_of_target {path : CString} (hne : parse path ≠ [])
    (hreads : world.device.readFails = never) {inum : Int} {inode : FsInode}
    (hrun : run (pathToInode path 0) world =
      some (.ok (inum, inode), world')) :
    ∃ parent dirInode dir slot,
      run (pathToInode path 1) world =
        some (.ok (parent, dirInode), world) ∧
      run (readDirectory (wordToInt (dirInode.ptrs 0))) world =
        some (.ok dir, world) ∧
      run (fileDir path) world =
        some (.ok (wordToInt (dirInode.ptrs 0), dir, some slot), world) ∧
      firstNamed dir (leaf path) = some slot ∧
      inum = (dir slot).inode.toNat := by
  obtain ⟨i, w, htranslate, hrest⟩ := exec_bind_eq_ok.mp hrun
  obtain ⟨inode', w', -, hpure⟩ := exec_bind_eq_ok.mp hrest
  cases hpure
  rw [translate_zero, parse_eq_snoc hne, translateLoop_append] at htranslate
  obtain ⟨parent, w₁, hparent, hlast⟩ := exec_bind_eq_ok.mp htranslate
  obtain rfl := run_reads (translateLoop_reads _ _) hreads hparent
  obtain ⟨dirInode, w₂, hinode, hmode⟩ := exec_bind_eq_ok.mp hlast
  obtain rfl := run_reads (readInode_reads _) hreads hinode
  rw [exec_rejectIf_bind] at hmode
  split at hmode
  next => cases hmode
  next hdir =>
    obtain ⟨dir, w₃, hentries, hscan⟩ := exec_bind_eq_ok.mp hmode
    obtain rfl := run_reads (readDirectory_reads _) hreads hentries
    simp only [exec_rejectIf_bind, translateScan_eq] at hscan
    cases hfound : firstNamed dir (leaf path) with
    | none =>
        rw [hfound] at hscan
        cases hscan
    | some slot =>
        have hindex : ¬ ((dir slot).inode.toNat : Int) = -1 := by omega
        simp only [hfound, if_neg hindex] at hscan
        cases hscan
        have hfirst : run (pathToInode path 1) w =
            some (.ok (parent, dirInode), w) := by
          rw [pathToInode, translate_one hne, run_bind_ok hparent,
            run_bind_ok hinode]
          rfl
        refine ⟨parent, dirInode, dir, slot, hfirst, hentries, ?_, hfound,
          rfl⟩
        rw [fileDir, run_bind_ok hfirst, run_rejectIf_bind, if_neg hdir,
          run_bind_ok hentries, run_bind_ok (run_leafName hne w), hfound]
        rfl

/-- Where the source resolves, `file_dir` does not come back without an entry,
whatever happens on the device in between. -/
theorem fileDir_finds {world world' state state' : World} {path : CString}
    {there : Int × FsInode}
    (htarget : run (pathToInode path 0) world = some (.ok there, world'))
    (hsame : state.readable = world.readable) {lba : Int} {dir : Directory}
    {entry : Option Slot}
    (hfile : run (fileDir path) state =
      some (.ok (lba, dir, entry), state')) :
    ∃ slot, entry = some slot := by
  have hne : parse path ≠ [] := by
    intro hnil
    obtain ⟨_, _, -, hmode⟩ := exec_bind_eq_ok.mp hfile
    obtain ⟨_, _, -, hread⟩ := exec_bind_eq_ok.mp hmode
    obtain ⟨_, _, -, hleaf⟩ := exec_bind_eq_ok.mp hread
    obtain ⟨_, _, hname, -⟩ := exec_bind_eq_ok.mp hleaf
    rw [hnil] at hname
    cases hname
  obtain ⟨-, htarget'⟩ := pathToInode_repeatable path 0 _ _ _ htarget
  obtain ⟨-, hfile'⟩ := fileDir_repeatable path _ _ _ hfile
  obtain ⟨parent, dirInode, dir', slot, -, -, hfound, -, -⟩ :=
    run_fileDir_of_target hne rfl htarget'
  rw [hsame, hfound] at hfile'
  have hvalue := Except.ok.inj (Prod.mk.inj (Option.some.inj hfile')).1
  exact ⟨slot, (Prod.mk.inj (Prod.mk.inj hvalue).2).2.symm⟩

end

/-! `fs_rename`. -/

/-- `fs_rename` with a branch of its own where it would dereference the entry
that `file_dir` has not found. -/
def fsRenameOr (missing : Fs Int) (srcPath dstPath : CString) : Fs Int := do
  let _ ← pathToInode srcPath 0
  let dinum ← (pathToInode dstPath 0).attempt
  rejectIf (dinum.isOk) (-eExist)
  let sargv := parse srcPath
  let dargv := parse dstPath
  rejectIf (dargv.length ≠ sargv.length) (-eInval)
  rejectIf (sargv.dropLast ≠ dargv.dropLast) (-eInval)
  let (sfileDirLBA, sfileDirBlock, sfileDirEntry) ← fileDir srcPath
  rejectIf (sfileDirLBA < 0) sfileDirLBA
  match sfileDirEntry with
  | none => missing
  | some entryIdx => do
      let name ← leafName dargv
      let sfileDirBlock := Function.update sfileDirBlock entryIdx
        { sfileDirBlock entryIdx with name := strncpy (fun _ => 0) name }
      blockWrite (Directory.encode sfileDirBlock) sfileDirLBA
      pure 0

theorem fsRename_eq_fsRenameOr (srcPath dstPath : CString) :
    fsRename srcPath dstPath = fsRenameOr .undefined srcPath dstPath := rfl

/-- Code that agrees in every outcome of its first part. -/
theorem run_bind_congr {A B : Type} {code : Fs A} {next next' : A → Fs B}
    {world : World}
    (hnext : ∀ value world', run code world = some (.ok value, world') →
      run (next value) world' = run (next' value) world') :
    run (code >>= next) world = run (code >>= next') world := by
  rw [run, run, exec_bind, exec_bind]
  split
  · rfl
  · rfl
  next value world' hrun => exact hnext value world' hrun

theorem World.afterRead_readable (world : World) (lba : Int) :
    (world.afterRead lba).readable = world.readable := by
  simp only [World.readable, World.afterRead, Device.blockRead]
  split
  · rfl
  · split <;> rfl

theorem readable_of_reads {A : Type} {code : Fs A}
    (honly : code.Only Access.Reads) {world world' : World}
    {result : Except Int A}
    (hrun : run code world = some (result, world')) :
    world'.readable = world.readable := by
  refine honly.exec_keeps
    (fun first second => second.readable = first.readable)
    (fun _ => rfl) ?_ ?_ hrun
  · intro first second third hfirst hsecond
    exact hsecond.trans hfirst
  intro query world reply world' hallowed hreply
  cases query with
  | read lba =>
      have hworld : world' = world.afterRead lba :=
        (congrArg Prod.snd (Option.some.inj hreply)).symm
      rw [hworld, World.afterRead_readable]
  | load => cases hreply; rfl
  | write buf lba => cases hallowed
  | store globals => cases hallowed

theorem eq_of_run_rejectIf {test : Prop} [Decidable test] {status : Int}
    {world world' : World}
    (hrun : run (Program.rejectIf test status) world =
      some (.ok (), world')) : world' = world := by
  unfold Program.rejectIf at hrun
  split at hrun
  · cases hrun
  · cases hrun
    rfl

/-- The branch of the missing entry is never taken. -/
theorem run_fsRenameOr (missing : Fs Int) (srcPath dstPath : CString)
    (world : World) :
    run (fsRenameOr missing srcPath dstPath) world =
      run (fsRename srcPath dstPath) world := by
  refine run_bind_congr fun there world₁ htarget => ?_
  refine run_bind_congr fun dinum world₂ hdinum => ?_
  have hfirst := readable_of_reads (pathToInode_reads srcPath 0) htarget
  have hsecond :=
    readable_of_reads (pathToInode_reads dstPath 0).attempt hdinum
  refine run_bind_congr fun _ world₃ hexists => ?_
  refine run_bind_congr fun _ world₄ hlength => ?_
  refine run_bind_congr fun _ world₅ hprefix => ?_
  refine run_bind_congr fun found world₆ hfile => ?_
  obtain ⟨lba, dir, entry⟩ := found
  refine run_bind_congr fun _ world₇ hsign => ?_
  obtain rfl := eq_of_run_rejectIf hexists
  obtain rfl := eq_of_run_rejectIf hlength
  obtain rfl := eq_of_run_rejectIf hprefix
  have hsame := hsecond.trans hfirst
  obtain ⟨slot, rfl⟩ := fileDir_finds htarget hsame hfile
  rfl

/-! `fs_unlink` and `fs_rmdir`. -/

/-- The reading half of `unlink_directory_entry`. -/
def unlinkTarget (path : CString) : Fs (Int × Directory × Fin 128) := do
  let (_, dirInode) ← pathToInode path 1
  let dirBlockInum := wordToInt (dirInode.ptrs 0)
  let dirBlock ← readDirectory dirBlockInum
  let entryname ← getEntryNameFromPath path
  let fileIdx ← findIndexInDir entryname dirBlock
  pure (dirBlockInum, dirBlock, fileIdx)

/-- A directory with one entry invalidated. -/
def Directory.invalidate (dir : Directory) (slot : Slot) : Directory :=
  Function.update dir slot { dir slot with valid := false }

theorem unlinkDirectoryEntry_eq (path : CString) :
    unlinkDirectoryEntry path = unlinkTarget path >>= fun found =>
      blockWrite (Directory.encode (found.2.1.invalidate found.2.2))
        found.1 := by
  rw [unlinkDirectoryEntry, unlinkTarget]
  simp only [Program.bind_assoc, Program.pure_bind, Directory.invalidate]

theorem unlinkTarget_reads (path : CString) :
    (unlinkTarget path).Only Access.Reads := by
  refine (pathToInode_reads path 1).bind fun there => ?_
  refine (readDirectory_reads _).bind fun dirBlock => ?_
  refine (leafName_reads _).bind fun entryname => ?_
  exact (findIndexInDir_reads _ _).bind fun _ => only_pure _

theorem unlinkTarget_repeatable (path : CString) :
    Repeatable (unlinkTarget path) := by
  refine (pathToInode_repeatable _ _).bind fun there => ?_
  refine (readDirectory_repeatable _).bind fun dirBlock => ?_
  refine (leafName_repeatable _).bind fun entryname => ?_
  exact (findIndexInDir_repeatable _ _).bind fun _ => .pure _

theorem World.eq_of_readable {world world' : World}
    (hsame : world'.readable = world.readable) :
    world'.disk = world.disk ∧ world'.globals = world.globals ∧
      world'.device.size = world.device.size := by
  have hdisk : world'.readable.disk = world.readable.disk := by rw [hsame]
  have hglobals : world'.readable.globals = world.readable.globals := by
    rw [hsame]
  have hsize : world'.readable.device.size =
      world.readable.device.size := by rw [hsame]
  exact ⟨hdisk, hglobals, hsize⟩

/-- The image has blocks 1 and 2 when a path below the root resolves. -/
theorem two_lt_of_target {world : World} {path : CString}
    (hne : parse path ≠ []) (hreads : world.device.readFails = never)
    {there : Int × FsInode}
    (hrun : run (pathToInode path 0) world = some (.ok there, world)) :
    2 < world.device.size := by
  by_contra hsize
  have hfail : run (readInode 2) world = some (.error (-eIo), world) := by
    refine run_bind_error (run_blockRead_fail hreads fun b hb => ?_)
    rw [show seekBlock 2 = some 2 from by decide] at hb
    cases hb
    exact Nat.le_of_not_lt hsize
  obtain ⟨token, tokens, hparse⟩ := List.exists_cons_of_ne_nil hne
  rw [pathToInode, translate_zero, hparse, translateLoop,
    run_bind_error (run_bind_error hfail)] at hrun
  cases hrun

/-- The entry that is invalidated is the one through which the path
resolves. -/
theorem run_unlinkTarget {world : World} {path : CString}
    (hne : parse path ≠ []) {inum : Int} {inode : FsInode}
    (hreads : world.device.readFails = never)
    (htarget : run (pathToInode path 0) world =
      some (.ok (inum, inode), world)) {lba : Int} {dir : Directory}
    {slot : Slot}
    (hrun : run (unlinkTarget path) world =
      some (.ok (lba, dir, slot), world)) :
    run (fileDir path) world = some (.ok (lba, dir, some slot), world) ∧
      inum = (dir slot).inode.toNat ∧ LowestNamed dir (leaf path) slot ∧
      ∃ b, seekBlock lba = some b ∧ b < world.device.size := by
  obtain ⟨parent, dirInode, dir', slot', hparent, hentries, hfile, hfound,
    hinum⟩ := run_fileDir_of_target hne hreads htarget
  have hfind : run (unlinkTarget path) world =
      some (.ok (wordToInt (dirInode.ptrs 0), dir', slot'), world) := by
    rw [unlinkTarget, run_bind_ok hparent, run_bind_ok hentries,
      getEntryNameFromPath, run_bind_ok (run_leafName hne world),
      findIndexInDir, hfound]
    rfl
  rw [hrun] at hfind
  have hvalue := Except.ok.inj (Prod.mk.inj (Option.some.inj hfind)).1
  simp only [Prod.mk.injEq] at hvalue
  obtain ⟨hlba, hdir, hslot⟩ := hvalue
  rw [hlba, hdir, hslot]
  exact ⟨hfile, hinum, firstNamed_lowest hfound,
    seekBlock_of_readDirectory hreads hentries⟩

theorem run_blockWrite_cases {buf : Block} {lba : Int}
    {world world' : World} {result : Except Int Unit}
    (hrun : run (blockWrite buf lba) world = some (result, world')) :
    (result = .error (-eIo) ∧ world'.disk = world.disk ∧
        world'.globals = world.globals) ∨
      ∃ b, seekBlock lba = some b ∧ result = .ok () ∧
        world'.device = world.issued.device.store b buf ∧
        world'.globals = world.globals := by
  simp only [run, blockWrite, exec, handle, Device.blockWrite] at hrun
  split at hrun
  next => cases hrun
  next reply after hreply =>
    split at hreply
    next => cases hreply
    split at hreply
    next =>
      cases hreply
      cases hrun
      exact Or.inl ⟨rfl, rfl, rfl⟩
    split at hreply
    next =>
      cases hreply
      cases hrun
      exact Or.inl ⟨rfl, rfl, rfl⟩
    split at hreply
    next =>
      cases hreply
      cases hrun
      exact Or.inl ⟨rfl, rfl, rfl⟩
    next b hseek =>
      cases hreply
      cases hrun
      exact Or.inr ⟨b, hseek, rfl, rfl, rfl⟩

/-- What a removal does to the image: nothing but returning an error, or
invalidating the entry of the path's leaf, whose inode is among the blocks
that become clear in the bitmap. -/
def RemovesEntry (path : CString) (freed : Int → FsInode → List Int)
    (world : World) (result : Except Int Int) (world' : World) : Prop :=
  ((∃ status, result = .error status) ∧ world'.disk = world.disk ∧
      world'.globals = world.globals) ∨
  ∃ lba b dir slot inode,
    run (fileDir path) world.readable =
      some (.ok (lba, dir, some slot), world.readable) ∧
    run (pathToInode path 0) world.readable =
      some (.ok (((dir slot).inode.toNat : Int), inode), world.readable) ∧
    LowestNamed dir (leaf path) slot ∧
    seekBlock lba = some b ∧
    ((dir slot).inode.toNat : Int) ∈ freed (dir slot).inode.toNat inode ∧
    world'.globals.bitmap = bitClearAll world.globals.bitmap
      ((freed (dir slot).inode.toNat inode).map Int.toNat) ∧
    let written := Function.update world.disk b
      (Directory.encode (dir.invalidate slot))
    (result = .error (-eIo) ∧ world'.disk = written) ∨
    (result = .ok 0 ∧
      world'.disk = Function.update written 1 world'.globals.bitmap)

section

variable {world state world' : World} {path : CString} {inum : Int}
  {inode : FsInode} {result : Except Int Int}

/-- A lookup that fails leaves nothing behind. -/
theorem removesEntry_of_reads {A : Type} {code : Fs A}
    (honly : code.Only Access.Reads) {status : Int}
    (hrun : run code state = some (.error status, world'))
    (hsame : state.readable = world.readable)
    (hresult : result = .error status)
    (freed : Int → FsInode → List Int) :
    RemovesEntry path freed world result world' := by
  obtain ⟨hdisk, hglobals, -⟩ := World.eq_of_readable
    ((readable_of_reads honly hrun).trans hsame)
  exact Or.inl ⟨⟨status, hresult⟩, hdisk, hglobals⟩

/-- The end of both removals: the bits are cleared in memory, and on disk
unless the write fails. -/
theorem run_release {blocks : List Int} {delta : Int}
    (hone : 1 < state.device.size)
    (hrun : run (do
        modifyBitmapAndWritebackToDisk blocks false
        modifyGlobals (Globals.addFree delta)
        pure (0 : Int)) state = some (result, world')) :
    world'.globals.bitmap =
        bitClearAll state.globals.bitmap (blocks.map Int.toNat) ∧
      ((result = .error (-eIo) ∧ world'.disk = state.disk) ∨
        (result = .ok 0 ∧ world'.disk =
          Function.update state.disk 1 world'.globals.bitmap)) := by
  by_cases hin : ∀ i ∈ blocks, 0 ≤ i ∧ i < 32768
  · obtain ⟨marked, hmark, hmap, hmarked⟩ :=
      run_modifyBitmapAndWritebackToDisk state hin false
    have hbitmap : marked.globals.bitmap =
        bitClearAll state.globals.bitmap (blocks.map Int.toNat) := by
      rw [hmap]
      rfl
    cases hfails : state.device.writeFails 0 with
    | true =>
        rw [hfails] at hmark hmarked
        have hend := (run_bind_error hmark).symm.trans hrun
        cases hend
        exact ⟨hbitmap, Or.inl ⟨rfl, hmarked⟩⟩
    | false =>
        rw [hfails] at hmark hmarked
        have hend := (run_bind_ok hmark).symm.trans hrun
        cases hend
        exact ⟨hbitmap,
          Or.inr ⟨rfl, hmarked.trans (Device.store_disk_of_lt hone _)⟩⟩
  · have hstop : run (modifyBitmapAndWritebackToDisk blocks false) state =
        none := by
      rw [modifyBitmapAndWritebackToDisk, run_require_bind, if_neg hin]
    have hend := (run_bind_none hstop).symm.trans hrun
    cases hend

/-- The second half of both removals. -/
theorem run_remove (hne : parse path ≠ [])
    (htarget : run (pathToInode path 0) world.readable =
      some (.ok (inum, inode), world.readable))
    (hsame : state.readable = world.readable)
    (freed : Int → FsInode → List Int) (hmem : inum ∈ freed inum inode)
    {delta : Int}
    (hrun : run (do
        unlinkDirectoryEntry path
        modifyBitmapAndWritebackToDisk (freed inum inode) false
        modifyGlobals (Globals.addFree delta)
        pure 0) state = some (result, world')) :
    RemovesEntry path freed world result world' := by
  rw [unlinkDirectoryEntry_eq, Program.bind_assoc] at hrun
  rcases exec_bind_cases hrun with ⟨status, hfind, hresult⟩ |
    ⟨⟨lba, dir, slot⟩, middle, hfind, hrest⟩
  · exact removesEntry_of_reads (unlinkTarget_reads path) hfind hsame
      hresult freed
  obtain ⟨hmiddle, hfind'⟩ := unlinkTarget_repeatable path _ _ _ hfind
  rw [hsame] at hmiddle hfind'
  obtain ⟨hfile, hinum, hlowest, b, hseek, hb⟩ :=
    run_unlinkTarget hne rfl htarget hfind'
  obtain ⟨hdisk, hglobals, hsize⟩ := World.eq_of_readable hmiddle
  rcases exec_bind_cases hrest with ⟨status, hwrite, hresult⟩ |
    ⟨_, stored, hwrite, hrest⟩
  · rcases run_blockWrite_cases hwrite with ⟨-, hdisk', hglobals'⟩ |
      ⟨_, -, hok, -⟩
    · exact Or.inl ⟨⟨status, hresult⟩, hdisk'.trans hdisk,
        hglobals'.trans hglobals⟩
    · cases hok
  rcases run_blockWrite_cases hwrite with ⟨hbad, -⟩ |
    ⟨b', hseek', -, hdevice, hglobals'⟩
  · cases hbad
  rw [hseek] at hseek'
  cases hseek'
  have htwo := two_lt_of_target hne rfl htarget
  have hwritten : stored.disk = Function.update world.disk b
      (Directory.encode (dir.invalidate slot)) := by
    rw [World.disk, hdevice, World.issued_store_disk,
      Device.store_disk_of_lt (hb.trans_eq hsize.symm)]
    exact congrArg (Function.update · b _) hdisk
  have hone : 1 < stored.device.size := by
    rw [hdevice, Device.store_size_of_lt
      (show b < middle.issued.device.size from hb.trans_eq hsize.symm)]
    exact Nat.lt_of_succ_lt (htwo.trans_eq hsize.symm)
  obtain ⟨hbitmap, hend⟩ := run_release hone hrest
  rw [hglobals', hglobals] at hbitmap
  rw [hwritten] at hend
  exact Or.inr ⟨lba, b, dir, slot, inode, hfile, hinum ▸ htarget, hlowest,
    hseek, hinum ▸ hmem, hinum ▸ hbitmap, hend⟩

end

/-- The blocks of a file that `fs_unlink` frees, and its inode. -/
def unlinkFreed (inum : Int) (inode : FsInode) : List Int :=
  ((List.ofFn inode.ptrs).take
    (sizeInBlocks inode.size.toInt).toNat).map wordToInt ++ [inum]

/-- The blocks of a directory that `fs_rmdir` frees. -/
def rmdirFreed (inum : Int) (inode : FsInode) : List Int :=
  [inum, wordToInt (inode.ptrs 0)]

theorem copyPtrs_of_run {inode : FsInode} {count k : Nat} {ptrs : List Int}
    {world world' : World}
    (hrun : run (copyPtrs inode count k) world = some (.ok ptrs, world')) :
    ptrs = (((List.ofFn inode.ptrs).drop k).take count).map wordToInt := by
  induction count generalizing k ptrs world with
  | zero =>
      cases hrun
      rfl
  | succ count ih =>
      obtain ⟨ptr, middle, hptr, hrest⟩ := exec_bind_eq_ok.mp hrun
      obtain ⟨rest, last, hcopy, hpure⟩ := exec_bind_eq_ok.mp hrest
      cases hpure
      unfold ptrAt at hptr
      split at hptr
      next hbound =>
        cases hptr
        have hk : k < (List.ofFn inode.ptrs).length := by
          rw [List.length_ofFn]
          omega
        have hcast : ((k : Int) + 1) = ((k + 1 : Nat) : Int) := rfl
        rw [hcast] at hcopy
        rw [List.drop_eq_getElem_cons hk, List.take_succ_cons,
          List.map_cons, ih hcopy, List.getElem_ofFn]
        rfl
      next => cases hptr

theorem fsUnlink_removesEntry {world world' : World} {path : CString}
    {result : Except Int Int} (hne : parse path ≠ [])
    (hrun : run (fsUnlink path) world = some (result, world')) :
    RemovesEntry path unlinkFreed world result world' := by
  rcases exec_bind_cases hrun with ⟨status, hfind, hresult⟩ |
    ⟨⟨inum, inode⟩, state, hfind, hrest⟩
  · exact removesEntry_of_reads (pathToInode_reads path 0) hfind rfl hresult
      _
  obtain ⟨hsame, htarget⟩ := pathToInode_repeatable path 0 _ _ _ hfind
  simp only [exec_require_bind] at hrest
  split at hrest
  next hcount =>
    rcases exec_bind_cases hrest with ⟨status, hcopy, hresult⟩ |
      ⟨ptrs, state', hcopy, hrest⟩
    · exact removesEntry_of_reads (copyPtrs_reads _ _ _) hcopy hsame hresult
        _
    have hptrs := copyPtrs_of_run (k := 0) hcopy
    have hsame' := (readable_of_reads (copyPtrs_reads _ _ _) hcopy).trans
      hsame
    rw [List.drop_zero] at hptrs
    subst hptrs
    exact run_remove hne htarget hsame' unlinkFreed
      (List.mem_append_right _ List.mem_cons_self) hrest
  next => cases hrest

theorem run_of_checkDirEmpty {world : World} {path : CString}
    {inum lba : Int} (hreads : world.device.readFails = never)
    (hrun : run (checkDirEmpty path) world =
      some (.ok (inum, lba), world)) :
    ∃ inode, run (pathToInode path 0) world =
        some (.ok (inum, inode), world) ∧
      lba = wordToInt (inode.ptrs 0) := by
  obtain ⟨⟨i, inode⟩, state, hfind, hmode⟩ := exec_bind_eq_ok.mp hrun
  obtain rfl := run_reads (pathToInode_reads path 0) hreads hfind
  rw [exec_rejectIf_bind] at hmode
  split at hmode
  next => cases hmode
  next =>
    obtain ⟨dir, _, -, hfree⟩ := exec_bind_eq_ok.mp hmode
    obtain ⟨slot, _, -, hempty⟩ := exec_bind_eq_ok.mp hfree
    rw [exec_rejectIf_bind] at hempty
    split at hempty
    next => cases hempty
    next =>
      simp only [exec_pure, Option.some.injEq, Prod.mk.injEq,
        Except.ok.injEq] at hempty
      obtain ⟨⟨hi, hlba⟩, -⟩ := hempty
      exact ⟨inode, by rw [← hi]; exact hfind, hlba.symm⟩

theorem fsRmdir_removesEntry {world world' : World} {path : CString}
    {result : Except Int Int} (hne : parse path ≠ [])
    (hrun : run (fsRmdir path) world = some (result, world')) :
    RemovesEntry path rmdirFreed world result world' := by
  rcases exec_bind_cases hrun with ⟨status, hfind, hresult⟩ |
    ⟨⟨inum, lba⟩, state, hfind, hrest⟩
  · exact removesEntry_of_reads (checkDirEmpty_reads path) hfind rfl hresult
      _
  obtain ⟨hsame, hcheck⟩ := checkDirEmpty_repeatable path _ _ _ hfind
  obtain ⟨inode, htarget, hlba⟩ := run_of_checkDirEmpty rfl hcheck
  rw [hlba] at hrest
  exact run_remove hne htarget hsame rmdirFreed
    List.mem_cons_self hrest

/-- The four searches refer to one entry, so that `fs_rename` never goes on
without one, and the removals invalidate the entry whose inode they free. -/
theorem directorySearches_agree :
    (∀ dir name, SearchesAgree dir name) ∧
    (∀ missing srcPath dstPath world,
      run (fsRenameOr missing srcPath dstPath) world =
        run (fsRename srcPath dstPath) world) ∧
    ∀ path world result world', components path ≠ [] →
      (run (fsUnlink path) world = some (result, world') →
        RemovesEntry path unlinkFreed world result world') ∧
      (run (fsRmdir path) world = some (result, world') →
        RemovesEntry path rmdirFreed world result world') := by
  refine ⟨searchesAgree, run_fsRenameOr, ?_⟩
  intro path world result world' hne
  have hparse := parse_ne_nil hne
  exact ⟨fsUnlink_removesEntry hparse, fsRmdir_removesEntry hparse⟩

/-- `fs_unlink` of the sample's `a` invalidates slot 0 of the root and clears
the bit of the inode in block 4. -/
theorem directorySearches_agree_sample :
    SearchesAgree Sample.rootDirectory Sample.nameA ∧
      ∃ world', run (fsUnlink Sample.pathA)
          (Sample.world 64 zeroBlock).boot = some (.ok 0, world') ∧
        RemovesEntry Sample.pathA unlinkFreed
          (Sample.world 64 zeroBlock).boot (.ok 0) world' ∧
        (world'.disk.entries 2 0).valid = false ∧
        bitTest world'.globals.bitmap 4 = 0 := by
  have hreply : (run (fsUnlink Sample.pathA)
      (Sample.world 64 zeroBlock).boot).map (fun outcome =>
        (outcome.1, (outcome.2.disk.entries 2 0).valid,
          bitTest outcome.2.globals.bitmap 4)) =
      some (.ok 0, false, 0) := by
    decide +kernel
  obtain ⟨⟨result, world'⟩, hrun, houtcome⟩ := Option.map_eq_some_iff.mp hreply
  simp only [Prod.mk.injEq] at houtcome
  obtain ⟨rfl, hslot, hbit⟩ := houtcome
  exact ⟨directorySearches_agree.1 _ _, world', hrun,
    (directorySearches_agree.2.2 _ _ _ _ (by decide)).1 hrun, hslot, hbit⟩

end Fs5600
