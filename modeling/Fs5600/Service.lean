/-
What one request does to a mounted file system: a mutating call carries out
its plan, a reading call leaves everything as it is, and `fs_init` mounts a
consistent image.
-/
import Fs5600.Preservation
import Mathlib.Logic.Relation

namespace Fs5600

open MachineWord EffectProgram Program

/-! Mutating calls. -/

/-- The reply and the world once a plan is carried out, as far as the device
lets it. -/
def World.carryOut (world : World) :
    Except Int Change → Except Int Reply × World
  | .error status => (.error status, world)
  | .ok change =>
      ((commit (change.effects world) world).1.map
          fun _ => .code change.result,
        (commit (change.effects world) world).2)

theorem Follows.run_code {code : Fs Int} {world : World}
    {plan : Except Int Change} (hfollows : Follows code world plan) :
    run (do pure (.code (← code)) : Fs Reply) world =
      some (world.carryOut plan) := by
  cases plan with
  | error status => exact run_bind_error hfollows
  | ok change =>
      rw [Follows, Performs] at hfollows
      rw [World.carryOut]
      cases hcommit : commit (change.effects world) world with
      | mk status world' =>
          rw [hcommit] at hfollows
          cases status with
          | error status => exact run_bind_error hfollows
          | ok done => exact run_bind_ok hfollows

/-- The kind of change that a call decides on. -/
def Call.Makes : Call → Change → Prop
  | .create _ _, .insert _ _ _ _ _ dirflag _ => dirflag = false
  | .mkdir _ _, .insert _ _ _ _ _ dirflag _ => dirflag = true
  | .unlink _, .remove _ _ _ _ => True
  | .rmdir _, .remove _ _ _ _ => True
  | .rename _ _, .relabel _ _ _ _ => True
  | .chmod _ _, .attributes _ _ _ => True
  | .utime _ _, .attributes _ _ _ => True
  | .truncate _ _, .shrink _ _ _ => True
  | .write _ _ _, .write _ _ _ _ _ _ => True
  | _, _ => False

theorem World.planRemove_makes {world : World} {path : CString}
    {blocks : List Nat} {change : Change}
    (hplan : world.planRemove path blocks = .ok change) :
    ∃ site inum slot, change = .remove site inum slot blocks := by
  rw [planRemove] at hplan
  split at hplan
  · cases hplan
  · split at hplan
    · cases hplan
    · cases hplan
      exact ⟨_, _, _, rfl⟩

theorem World.planCreate_makes {world : World} {ctx : Context}
    {path : CString} {mode : UInt32} {dirflag : Bool} {change : Change}
    (hplan : world.planCreate ctx path mode dirflag = .ok change) :
    ∃ site inum slot name inode blocks,
      change = .insert site inum slot name inode dirflag blocks := by
  obtain ⟨site, inum, slot, blocks, -, -, -, -, -, rfl⟩ :=
    planCreate_eq_ok.mp hplan
  exact ⟨_, _, _, _, _, _, rfl⟩

theorem Request.plan_makes {world : World} {request : Request}
    {change : Change} (hplan : request.plan world = .ok change) :
    request.call.Makes change := by
  obtain ⟨ctx, call⟩ := request
  cases call with
  | create path mode =>
      obtain ⟨_, _, _, _, _, _, rfl⟩ := World.planCreate_makes hplan
      rfl
  | mkdir path mode =>
      obtain ⟨_, _, _, _, _, _, rfl⟩ := World.planCreate_makes hplan
      rfl
  | unlink path =>
      simp only [plan, World.planUnlink] at hplan
      split at hplan
      · cases hplan
      · obtain ⟨_, _, _, rfl⟩ := World.planRemove_makes hplan
        trivial
  | rmdir path =>
      simp only [plan, World.planRmdir] at hplan
      split at hplan
      · cases hplan
      · obtain ⟨-, hplan⟩ := reject_eq_ok.mp hplan
        split at hplan
        · cases hplan
        · obtain ⟨-, hplan⟩ := reject_eq_ok.mp hplan
          obtain ⟨_, _, _, rfl⟩ := World.planRemove_makes hplan
          trivial
  | rename srcPath dstPath =>
      simp only [plan, World.planRename] at hplan
      split at hplan
      · cases hplan
      · obtain ⟨-, hplan⟩ := reject_eq_ok.mp hplan
        obtain ⟨-, hplan⟩ := reject_eq_ok.mp hplan
        obtain ⟨-, hplan⟩ := reject_eq_ok.mp hplan
        split at hplan
        · cases hplan
        · split at hplan
          · cases hplan
          · cases hplan
            trivial
  | chmod path mode =>
      simp only [plan, World.planChmod] at hplan
      split at hplan
      · cases hplan
      · cases hplan
        trivial
  | utime path modtime =>
      simp only [plan, World.planUtime] at hplan
      split at hplan
      · cases hplan
      · obtain ⟨-, hplan⟩ := reject_eq_ok.mp hplan
        cases hplan
        trivial
  | truncate path len =>
      simp only [plan, World.planTruncate] at hplan
      obtain ⟨-, hplan⟩ := reject_eq_ok.mp hplan
      split at hplan
      · cases hplan
      · obtain ⟨-, hplan⟩ := reject_eq_ok.mp hplan
        obtain ⟨-, hplan⟩ := reject_eq_ok.mp hplan
        cases hplan
        trivial
  | write path buf offset =>
      obtain ⟨_, _, _, _, _, _, _, rfl⟩ := World.planWrite_eq_ok.mp hplan
      trivial
  | init | getattr | readdir | read | statfs => cases hplan

/-- The names that a call is about. -/
def Call.subject : Call → List Name
  | .getattr path | .readdir path | .create path _ | .mkdir path _
  | .unlink path | .rmdir path | .rename path _ | .chmod path _
  | .utime path _ | .truncate path _ | .read path _ _ | .write path _ _ =>
      parse path
  | .init | .statfs => []

section

variable {world : World} {request : Request}

/-- Arguments of a mutating call with which its plan decides: a path that is
created or removed has a component, a length fits an `int` and a write ends
within the 1019 pointers of an inode. -/
def Call.InRange : Call → Prop
  | .create path _ | .mkdir path _ | .unlink path | .rmdir path =>
      components path ≠ []
  | .truncate _ len => len < 2147483648
  | .write _ buf offset =>
      1 ≤ buf.length ∧ 0 ≤ offset ∧ offset + buf.length ≤ 4173824
  | _ => True

theorem Call.Contract.inRange {call : Call} (hcontract : call.Contract) :
    call.InRange := by
  cases call with
  | create path mode => exact hcontract.1
  | mkdir path mode => exact hcontract.1
  | unlink | rmdir | truncate | write => exact hcontract
  | init | getattr | readdir | rename | chmod | utime | read | statfs =>
      exact trivial

/-- A mutating call does what its plan says, whatever its mode bits are. -/
theorem Mounted.run_inRange (hmount : Mounted world)
    (hmut : request.call.Mutates) (hrange : request.call.InRange) :
    run request.perform world =
      some (world.carryOut (request.plan world)) := by
  obtain ⟨ctx, call⟩ := request
  cases call with
  | create path mode =>
      exact (hmount.follows_create ctx (parse_ne_nil hrange) mode
        false).run_code
  | mkdir path mode =>
      exact (hmount.follows_create ctx (parse_ne_nil hrange) mode
        true).run_code
  | unlink path =>
      exact (hmount.follows_unlink (parse_ne_nil hrange)).run_code
  | rmdir path =>
      exact (hmount.follows_rmdir (parse_ne_nil hrange)).run_code
  | rename srcPath dstPath =>
      exact (hmount.follows_rename srcPath dstPath).run_code
  | chmod path mode => exact (hmount.follows_chmod path mode).run_code
  | utime path modtime => exact (hmount.follows_utime path modtime).run_code
  | truncate path len =>
      exact (hmount.follows_truncate path hrange).run_code
  | write path buf offset =>
      exact (hmount.follows_write ctx path hrange.1 hrange.2.1
        hrange.2.2).run_code
  | init | getattr | readdir | read | statfs => cases hmut

/-- A mutating call within its contract does what its plan says, up to the
write at which the device fails. -/
theorem Mounted.run_perform (hmount : Mounted world)
    (hmut : request.call.Mutates) (hcontract : request.call.Contract) :
    run request.perform world =
      some (world.carryOut (request.plan world)) :=
  hmount.run_inRange hmut hcontract.inRange

/-- Every change that a call within its contract decides on is valid. -/
theorem Request.plan_valid (hmount : Mounted world)
    (hcontract : request.call.Contract) {change : Change}
    (hplan : request.plan world = .ok change) :
    ∃ names, change.Valid world names ∧
      change.target world.disk names = request.call.subject := by
  obtain ⟨ctx, call⟩ := request
  cases call with
  | create path mode =>
      exact World.planCreate_planned hmount (parse_ne_nil hcontract.1)
        hcontract.2 hplan
  | mkdir path mode =>
      exact World.planCreate_planned hmount (parse_ne_nil hcontract.1)
        hcontract.2 hplan
  | unlink path =>
      exact World.planUnlink_planned hmount (parse_ne_nil hcontract) hplan
  | rmdir path =>
      exact World.planRmdir_planned hmount (parse_ne_nil hcontract) hplan
  | rename srcPath dstPath => exact World.planRename_planned hplan
  | chmod path mode => exact World.planChmod_planned hplan
  | utime path modtime => exact World.planUtime_planned hplan
  | truncate path len => exact World.planTruncate_planned hplan
  | write path buf offset =>
      exact World.planWrite_planned hcontract.1 hcontract.2.1 hcontract.2.2
        hplan
  | init | getattr | readdir | read | statfs => cases hplan

end

/-! Reading calls. -/

/-- The queries that change neither the image nor the globals. -/
def Access.Reads : Access → Prop
  | .read _ | .load => True
  | .write _ _ | .store _ => False

theorem blockRead_reads (lba : Int) : (blockRead lba).Only Access.Reads := by
  refine ⟨trivial, fun reply => ?_⟩
  cases reply <;> exact trivial

theorem readInode_reads (lba : Int) : (readInode lba).Only Access.Reads :=
  (blockRead_reads lba).bind fun _ => only_pure _

theorem readDirectory_reads (lba : Int) :
    (readDirectory lba).Only Access.Reads :=
  (blockRead_reads lba).bind fun _ => only_pure _

theorem translateLoop_reads (tokens : List Name) (inodeIndex : Int) :
    (translateLoop inodeIndex tokens).Only Access.Reads := by
  induction tokens generalizing inodeIndex with
  | nil => exact only_pure _
  | cons token tokens ih =>
      refine (readInode_reads _).bind fun curInode => ?_
      refine (Only.rejectIf _ _).bind fun _ => ?_
      refine (readDirectory_reads _).bind fun curDir => ?_
      exact (Only.rejectIf _ _).bind fun _ => ih _

theorem pathToInode_reads (path : CString) (depth : Nat) :
    (pathToInode path depth).Only Access.Reads := by
  refine (translateLoop_reads _ _).bind fun inum => ?_
  exact (readInode_reads _).bind fun _ => only_pure _

theorem readdirLoop_reads (entries : List FsDirent) :
    (readdirLoop entries).Only Access.Reads := by
  induction entries with
  | nil => exact only_pure _
  | cons entry entries ih =>
      rw [readdirLoop]
      split
      · refine (readInode_reads _).attempt.bind fun result => ?_
        cases result with
        | error status => exact only_pure _
        | ok inode => exact ih.bind fun _ => only_pure _
      · exact ih

theorem fsReaddir_reads (path : CString) :
    (fsReaddir path).Only Access.Reads := by
  refine (pathToInode_reads path 0).bind fun there => ?_
  refine (Only.rejectIf _ _).bind fun _ => ?_
  refine (readDirectory_reads _).attempt.bind fun result => ?_
  cases result with
  | error status => exact only_pure _
  | ok curDir => exact readdirLoop_reads _

theorem ptrAt_reads (inode : FsInode) (i : Int) :
    (ptrAt inode i).Only Access.Reads := by
  rw [ptrAt]
  split
  · exact only_pure _
  · exact trivial

theorem readBlocks_reads (inode : FsInode) (count : Nat) (pIdx : Int) :
    (readBlocks inode count pIdx).Only Access.Reads := by
  induction count generalizing pIdx with
  | zero => exact only_pure _
  | succ count ih =>
      refine (ptrAt_reads inode pIdx).bind fun ptr => ?_
      refine (blockRead_reads _).bind fun block => ?_
      exact (ih (pIdx + 1)).bind fun _ => only_pure _

theorem fsRead_reads (path : CString) (len : Nat) (offset : Int) :
    (fsRead path len offset).Only Access.Reads := by
  refine (pathToInode_reads path 0).bind fun there => ?_
  refine (Only.rejectIf _ _).bind fun _ => ?_
  dsimp only
  split
  · exact only_pure _
  · refine (Only.rejectIf _ _).bind fun _ => ?_
    refine (readBlocks_reads _ _ _).bind fun blkBuf => ?_
    refine Only.bind ?_ fun _ => only_pure _
    exact (Only.require _).bind fun _ => only_pure _

theorem Request.perform_reads {request : Request}
    (hmut : ¬ request.call.Mutates) (hinit : request.call ≠ .init) :
    request.perform.Only Access.Reads := by
  obtain ⟨ctx, call⟩ := request
  cases call with
  | getattr path =>
      refine Only.bind ?_ fun _ => only_pure _
      exact (pathToInode_reads path 0).bind fun _ => only_pure _
  | readdir path => exact (fsReaddir_reads path).bind fun _ => only_pure _
  | read path len offset =>
      exact (fsRead_reads path len offset).bind fun _ => only_pure _
  | statfs =>
      exact ⟨trivial, fun _ => trivial⟩
  | init => exact absurd rfl hinit
  | create | mkdir | unlink | rmdir | rename | chmod | utime | truncate
  | write => exact absurd trivial hmut

/-- A device without read errors answers a reading query and stays as it
is. -/
theorem handle_reads {query : Access} (hallowed : query.Reads)
    {world world' : World} {reply : query.Reply}
    (hreply : handle query world = some (reply, world'))
    (hreads : world.device.readFails = never) : world' = world := by
  cases query with
  | read lba =>
      rcases world with ⟨⟨disk, size, readFails, writeFails⟩, globals⟩
      subst hreads
      have hworld := congrArg Prod.snd (Option.some.inj hreply)
      subst hworld
      simp only [never_apply]
      split <;> rfl
  | load => cases hreply; rfl
  | write buf lba => cases hallowed
  | store globals => cases hallowed

/-- A reading call leaves everything as it is. -/
theorem run_reads {A : Type} {code : Fs A} (honly : code.Only Access.Reads)
    {world world' : World} {result : Except Int A}
    (hreads : world.device.readFails = never)
    (hrun : run code world = some (result, world')) : world' = world := by
  refine honly.exec_keeps
    (fun first second => first.device.readFails = never → second = first)
    (fun _ _ => rfl) ?_ ?_ hrun hreads
  · intro first second third hfirst hsecond hnever
    obtain rfl := hfirst hnever
    exact hsecond hnever
  · intro query first reply second hallowed hreply
    exact handle_reads hallowed hreply

/-! Mounting. -/

/-- The globals that `fs_init` sets up. -/
def Disk.loaded (disk : Disk) : Globals where
  superblock := disk.superblock
  rootInode := disk.inode 2
  bitmap := disk 1
  statVfs :=
    { bsize := 4096
      blocks := (disk.superblock.diskSize - 2).toUInt64
      bfree := .ofNat (freeCount (disk 1) disk.diskSize)
      bavail := .ofNat (freeCount (disk 1) disk.diskSize)
      namemax := 27 }

/-- The world after `fs_init`. -/
def World.boot (world : World) : World :=
  { world with globals := world.disk.loaded }

theorem run_initRead (world : World) {lba : Int} {b : Nat} (hlba : lba = b)
    (hnever : world.device.readFails = never)
    (hsize : b < world.device.size) (hb : b < 32768)
    (keep : Block → Globals → Globals) :
    run (initRead lba keep) world =
      some (.ok 0, world.modify (keep (world.disk b))) := by
  have hread := run_blockRead hnever hsize hb
  rw [initRead, hlba, run_bind_ok (run_attempt hread)]
  rfl

/-- `fs_init` on a consistent image that can be read. -/
theorem run_fsInit {world : World}
    (hcons : Consistent world.disk world.device.size)
    (hnever : world.device.readFails = never) :
    run fsInit world = some (.ok 0, world.boot) := by
  have hrange := hcons.inode_range Disk.node_nil
  have hfits := hcons.size_fits
  have hread : ∀ (lba : Int) (b : Nat), lba = b → b < 3 →
      ∀ (keep : Block → Globals → Globals) (globals : Globals),
        run (initRead lba keep) ⟨world.device, globals⟩ =
          some (.ok 0, ⟨world.device, keep (world.disk b) globals⟩) := by
    intro lba b hlba hb keep globals
    exact run_initRead ⟨world.device, globals⟩ hlba hnever
      (show b < world.device.size by omega) (by omega) keep
  have hfirst := fun keep => hread 0 0 rfl (by omega) keep world.globals
  rw [fsInit, run_bind_ok (hfirst _), if_neg (by decide),
    run_bind_ok (hread 1 1 rfl (by omega) _ _), if_neg (by decide),
    run_bind_ok (hread 2 2 rfl (by omega) _ _), if_neg (by decide),
    run_bind_ok (run_loadGlobals _)]
  exact (run_require_bind _ _ _).trans (if_pos hcons.size_le)

/-- Serving `init` mounts the image. -/
theorem Request.run_init {request : Request} (hinit : request.call = .init)
    {world : World} (hcons : Consistent world.disk world.device.size)
    (hnever : world.device.readFails = never) :
    run request.perform world = some (.ok (.null 0), world.boot) := by
  rw [perform, hinit]
  exact run_bind_ok (run_fsInit hcons hnever)

end Fs5600
