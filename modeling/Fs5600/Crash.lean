/-
A machine that stops in the middle of a call and is started again: what the
file system may have become, and what runs with such stops keep.
-/
import Fs5600.Refinement
import Fs5600.Stopping

namespace Fs5600

open MachineWord EffectProgram Program NameTree

/-- The same file system, but for free blocks that may be lost. -/
structure FileSystem.Lessens (fs' fs : FileSystem) : Prop where
  tree : fs'.tree = fs.tree
  capacity : fs'.capacity = fs.capacity
  free : fs'.free ≤ fs.free

/-- What is there again after a stop in the middle of a request: the file
system before it or after it, or the one after a write of a torn buffer. -/
inductive FileSystem.Stops (fs : FileSystem) (request : Request) :
    FileSystem → Prop
  | before {fs' : FileSystem} (hless : fs'.Lessens fs) : Stops fs request fs'
  | after {reply : Reply} {done fs' : FileSystem}
      (hallows : fs.Allows request (.ok reply) done)
      (hless : fs'.Lessens done) : Stops fs request fs'
  | torn {path : CString} {buf torn : List UInt8} {offset : Int}
      {attributes : Attributes} {content : List UInt8} {reply : Reply}
      {done fs' : FileSystem} (hcall : request.call = .write path buf offset)
      (hobject : fs.tree (parse path) = some (.leaf attributes content))
      (htorn : Torn content offset.toNat buf torn)
      (hallows : fs.Allows ⟨request.ctx, .write path torn offset⟩ (.ok reply)
        done)
      (hless : fs'.Lessens done) : Stops fs request fs'

/-- The image that a stopped machine has left, mounted again. -/
def World.restart (world stopped : World) : World :=
  World.boot
    { world with device := { world.device with disk := stopped.disk } }

theorem freeCount_mono {map map' : Block}
    (hle : ∀ b, Marked map b → Marked map' b) (n : Nat) :
    freeCount map' n ≤ freeCount map n := by
  rw [freeCount_eq_card, freeCount_eq_card]
  refine Finset.card_le_card fun b hb => ?_
  rw [Finset.mem_filter] at hb ⊢
  exact ⟨hb.1, fun hmarked => hb.2 (hle b hmarked)⟩

theorem applyAll_disk_congr {world world' : World}
    (hdisk : world.disk = world'.disk) (effects : List Effect) :
    (applyAll effects world).disk = (applyAll effects world').disk := by
  induction effects generalizing world world' with
  | nil => exact hdisk
  | cons effect effects ih =>
      rw [applyAll_cons, applyAll_cons]
      refine ih ?_
      cases effect with
      | write b buf =>
          rw [Effect.apply, Effect.apply, World.put_disk, World.put_disk]
          exact congrArg (Function.update · b buf) hdisk
      | modify change => exact hdisk

/-- What a restart shows of a disk that keeps the blocks of a shown one. -/
theorem Shown.restart {world stopped known : World} {fs fs' : FileSystem}
    (hshown : Shown world fs) (hknown : Shown known fs')
    (hsize : known.device.size = world.device.size)
    (hkeeps : known.disk.Keeps stopped.disk) :
    ∃ back : FileSystem, back.Lessens fs' ∧
      Shown (world.restart stopped) back := by
  have hcons := hknown.steady.consistent
  have hcons' := hcons.of_keeps hkeeps
  rw [hsize] at hcons'
  have hshape : stopped.disk.diskSize = known.disk.diskSize := by
    rw [Disk.diskSize, Disk.superblock,
      hkeeps.block 0 (hcons.reserved 0 (by omega)) (by omega)]
    rfl
  refine ⟨World.shown { world with
    device := { world.device with disk := stopped.disk } }, ⟨?_, ?_, ?_⟩,
    Shown.boot hcons' ⟨hshown.steady.reads, hshown.steady.writes⟩⟩
  · rw [hknown.tree]
    exact hcons.keeps_tree hkeeps
  · rw [hknown.capacity]
    exact hshape
  · rw [hknown.free]
    change freeCount (stopped.disk 1) stopped.disk.diskSize ≤ _
    rw [hshape]
    exact freeCount_mono hkeeps.mark _

section

variable {world : World} {fs : FileSystem} (hshown : Shown world fs)
  {request : Request} (horderly : Orderly world request)
  (hmut : request.call.Mutates)

include hshown horderly hmut

/-- A call with a plan succeeds in the change that it has planned. -/
theorem Shown.allows_change {change : Change}
    (hplan : request.plan world = .ok change) :
    ∃ done, fs.Allows request (.ok (.code change.result)) done ∧
      Shown (change.apply world) done := by
  obtain ⟨reply, world', done, hrun, hallows, hdone⟩ :=
    perform_simulates world fs request hshown horderly
  have hsame := hshown.steady.run_perform hmut horderly.1
  rw [hplan] at hsame
  rw [World.step, hsame, Option.some.injEq, Prod.mk.injEq] at hrun
  obtain ⟨rfl, rfl⟩ := hrun
  exact ⟨done, hallows, hdone⟩

/-- A call that has made its change before the machine stops. -/
theorem Shown.stops_done {change : Change}
    (hplan : request.plan world = .ok change) {stopped : World}
    (hkeeps : (change.apply world).disk.Keeps stopped.disk) :
    ∃ back, fs.Stops request back ∧ Shown (world.restart stopped) back := by
  obtain ⟨done, hallows, hdone⟩ := hshown.allows_change horderly hmut hplan
  obtain ⟨back, hless, hback⟩ :=
    hshown.restart hdone Change.apply_device.1 hkeeps
  exact ⟨back, .after hallows hless, hback⟩

/-- A write that has stored its inode and some data blocks. -/
theorem Shown.stops_torn {path : CString} {buf : List UInt8} {offset : Int}
    (hcall : request.call = .write path buf offset) {site : List Slot}
    {inum start n : Nat} {mtime : UInt32} {fresh : List Nat}
    (hplan : request.plan world =
      .ok (.write site inum start buf mtime fresh))
    (hok : WriteOk world (parse path) site inum start buf fresh)
    {back : List Effect}
    (heffects : Change.effects world
      (.write site inum start buf mtime fresh) =
        tornEffects world inum start buf mtime fresh n ++ back)
    {stopped : World}
    (hdisk : stopped.disk = (applyAll
      (tornEffects world inum start buf mtime fresh n) world).disk) :
    ∃ back, fs.Stops request back ∧ Shown (world.restart stopped) back := by
  obtain ⟨ctx, call⟩ := request
  obtain rfl : call = _ := hcall
  have hmount := hshown.steady.toMounted
  obtain ⟨hcons, torn, htorn, htree⟩ := hok.torn hmount mtime heffects
  obtain ⟨site', inum', fresh', hresolve, hreg, hinside, hfree, heq⟩ :=
    World.planWrite_eq_ok.mp hplan
  obtain ⟨rfl, rfl, rfl, -, rfl, rfl⟩ := Change.write.inj heq
  have hok' : WriteOk world (parse path) site inum offset.toNat torn fresh := by
    refine ⟨hok.node, hok.isReg, hok.inside, ?_, ?_, ?_⟩ <;>
      rw [htorn.length]
    · exact hok.nonempty
    · exact hok.limit
    · exact hok.fresh
  have hplan' : Request.plan ⟨ctx, .write path torn offset⟩ world =
      .ok (.write site inum offset.toNat torn (wordOfInt (ctx.time 0))
        fresh) :=
    World.planWrite_eq_ok.mpr ⟨site, inum, fresh, hresolve, hreg, hinside,
      hok'.fresh, rfl⟩
  have horderly' : Orderly world ⟨ctx, .write path torn offset⟩ := by
    refine ⟨?_, fun _ _ _ => trivial⟩
    have hcontract := horderly.1
    rw [Call.Contract] at hcontract ⊢
    rw [htorn.length]
    exact hcontract
  obtain ⟨done, hallows, hdone⟩ :=
    hshown.allows_change horderly' trivial hplan'
  have hvalid' : Change.Valid world (parse path) (.write site inum
    offset.toNat torn (wordOfInt (ctx.time 0)) fresh) := hok'
  have hobject : fs.tree (parse path) =
      some (.leaf (world.disk.inode inum).attributes
        (fileContent world.disk (world.disk.inode inum))) := by
    have hdir : ¬ (world.disk.inode inum).isDir = true :=
      Bool.eq_false_iff.mp (sIsDir_of_sIsReg hok.isReg)
    rw [hshown.tree, hmount.consistent.tree_of_node hok.node,
      Disk.object_of_not_isDir hdir]
  have hbitmap := hok.torn_bitmap hmount _ heffects
  rw [← hdisk] at hcons htree hbitmap
  have hshape : stopped.disk.diskSize = world.disk.diskSize := by
    have hvalid : Change.Valid world (parse path) (.write site inum
      offset.toNat buf (wordOfInt (ctx.time 0)) fresh) := hok
    have hshows := Change.shows hmount hvalid heffects (by
      rw [Change.published]
      exact List.cons_subset.mpr
        ⟨List.mem_append_right _ List.mem_cons_self, List.nil_subset _⟩)
    rw [hdisk]
    exact hshows.diskSize hmount hvalid
  have hshape' := (Change.apply_shows hmount hvalid').diskSize hmount hvalid'
  refine ⟨World.shown { world with
    device := { world.device with disk := stopped.disk } },
    .torn rfl hobject htorn hallows ⟨?_, ?_, ?_⟩,
    Shown.boot hcons ⟨hshown.steady.reads, hshown.steady.writes⟩⟩
  · rw [hdone.tree, Change.tree_of_inode hmount hvalid' rfl,
      hok'.apply_object hmount, htorn.length]
    exact htree
  · rw [hdone.capacity, hshape']
    exact hshape
  · rw [hdone.free, Change.apply_bitmap hmount hvalid', hshape']
    change freeCount (stopped.disk 1) stopped.disk.diskSize ≤ _
    rw [hshape, hbitmap]
    exact le_rfl

/-- A change whose write `k` does not reach the disk. -/
theorem Shown.stops_change {k : Nat}
    (hexposes : ¬ Exposes world request.call k) {change : Change}
    (hplan : request.plan world = .ok change) :
    ∃ back, fs.Stops request back ∧
      Shown (world.restart
        (commit (change.effects world) (world.failing k)).2) back := by
  have hmount := hshown.steady.toMounted
  have hsame : ∀ effects, (applyAll effects (world.failing k)).disk =
      (applyAll effects world).disk := applyAll_disk_congr rfl
  obtain ⟨names, hvalid, htarget⟩ :=
    Request.plan_valid hmount horderly.1 hplan
  have hfails : (world.failing k).device.writeFails = failsAt k := rfl
  rcases commit_failsAt (change.effects world) hfails with
    ⟨-, hall⟩ | ⟨front, b, buf, back, heffects, hcount, hstop⟩
  · rw [hall]
    refine hshown.stops_done horderly hmut hplan ?_
    rw [hsame]
    exact Disk.Keeps.refl _
  have hdisk : ((applyAll front (world.failing k)).issued).disk =
      (applyAll front world).disk := hsame front
  rw [hstop]
  by_cases hstores : change.Stores
  · cases change with
    | write site inum start data mtime fresh =>
        have hok : WriteOk world names site inum start data fresh := hvalid
        rcases hok.stop_cases hmount mtime heffects with hkeeps | ⟨n, rfl⟩
        · rw [← hdisk] at hkeeps
          obtain ⟨left, hless, hleft⟩ := hshown.restart hshown rfl hkeeps
          exact ⟨left, .before hless, hleft⟩
        · have hmakes := Request.plan_makes hplan
          cases hcall : request.call with
          | write path buf' offset =>
              have hnames : names = parse path := by
                rw [hcall] at htarget
                exact htarget
              subst hnames
              have hbuf : buf' = data := by
                rw [Request.plan, hcall] at hplan
                obtain ⟨_, _, _, _, _, _, _, heq⟩ :=
                  World.planWrite_eq_ok.mp hplan
                exact (Change.write.inj heq).2.2.2.1.symm
              subst hbuf
              exact hshown.stops_torn horderly hmut hcall hplan hok heffects
                hdisk
          | init | getattr | readdir | create | mkdir | unlink | rmdir
          | rename | chmod | utime | truncate | read | statfs =>
              rw [hcall] at hmakes
              exact hmakes.elim
    | attributes | relabel | insert | remove | shrink => exact hstores.elim
  · have henters : change.Enters → writeCount front < 2 := by
      intro henters
      by_contra hlate
      refine hexposes ((hmount.exposes_iff request k).mpr
        ⟨change, hplan, henters, ?_, ?_⟩)
      · rw [← hcount]
        exact not_lt.mp hlate
      · rw [heffects, ← hcount, writeCount, writeCount,
          List.filterMap_append, List.length_append]
        exact Nat.lt_add_of_pos_right Nat.succ_pos'
    rcases Change.keeps_cases hmount hvalid heffects henters hstores with
      hkeeps | hkeeps
    · rw [← hdisk] at hkeeps
      obtain ⟨left, hless, hleft⟩ := hshown.restart hshown rfl hkeeps
      exact ⟨left, .before hless, hleft⟩
    · rw [← hdisk] at hkeeps
      exact hshown.stops_done horderly hmut hplan hkeeps

/-- A machine that stops within a call, when the device has taken `k` blocks,
and is started again shows what the file system may then be. -/
theorem Shown.stops {k : Nat} (hexposes : ¬ Exposes world request.call k) :
    ∃ reply stopped back,
      run request.perform (world.failing k) = some (reply, stopped) ∧
      fs.Stops request back ∧ Shown (world.restart stopped) back := by
  have hrun := (hshown.steady.toMounted.failing k).run_perform hmut
    horderly.1
  rw [show request.plan (world.failing k) = request.plan world from rfl]
    at hrun
  cases hplan : request.plan world with
  | error status =>
      rw [hplan] at hrun
      obtain ⟨back, hless, hback⟩ :=
        hshown.restart hshown rfl
          (Disk.Keeps.refl _)
      exact ⟨_, _, back, hrun, .before hless, hback⟩
  | ok change =>
      rw [hplan] at hrun
      obtain ⟨back, hstops, hback⟩ :=
        hshown.stops_change horderly hmut hexposes hplan
      exact ⟨_, _, back, hrun, hstops, hback⟩

end

/-! Runs with stops. -/

/-- A call that is served, or one in which the machine stops when the device
has taken `k` blocks. -/
inductive Event where
  | call (request : Request)
  | stop (request : Request) (k : Nat)

/-- A stopped call has no reply, and the image is mounted again. -/
def World.undergo (world : World) :
    Event → Option (Option (Except Int Reply) × World)
  | .call request => (run request.perform world).map fun result =>
      (some result.1, result.2)
  | .stop request k => (run request.perform (world.failing k)).map
      fun result => (none, world.restart result.2)

def FileSystem.Undergoes (fs : FileSystem) :
    Event → Option (Except Int Reply) → FileSystem → Prop
  | .call request, some reply, fs' => fs.Allows request reply fs'
  | .stop request _, none, fs' => fs.Stops request fs'
  | _, _, _ => False

/-- The machine stops in mutating calls, but not in a creation between its
entry and its bitmap. -/
def Survivable (world : World) : Event → Prop
  | .call request => Orderly world request
  | .stop request k => Orderly world request ∧ request.call.Mutates ∧
      ¬ Exposes world request.call k

theorem undergo_simulates :
    Simulation.Simulates World.undergo FileSystem.Undergoes Survivable
      Shown := by
  intro world fs event hshown hsurvivable
  cases event with
  | call request =>
      obtain ⟨reply, world', fs', hrun, hallows, hshown'⟩ :=
        perform_simulates world fs request hshown hsurvivable
      refine ⟨some reply, world', fs', ?_, hallows, hshown'⟩
      rw [World.undergo, show run request.perform world = _ from hrun]
      rfl
  | stop request k =>
      obtain ⟨horderly, hmut, hexposes⟩ := hsurvivable
      obtain ⟨reply, stopped, back, hrun, hstops, hback⟩ :=
        hshown.stops horderly hmut hexposes
      refine ⟨none, world.restart stopped, back, ?_, hstops, hback⟩
      rw [World.undergo, hrun]
      rfl

/-- Any series of calls and stops on a consistent image refines the file
system in it: each stopped call has been made, has not been made or, if it is
a write, has been made with a torn buffer, and no stop costs more than free
blocks. -/
theorem undergo_refines {image : World}
    (hcons : Consistent image.disk image.device.size)
    (hhealthy : image.device.Healthy) {events : List Event}
    (hsurvivable : Simulation.Guarded World.undergo Survivable image.boot
      events) :
    ∃ outcomes world fs,
      Simulation.answers World.undergo image.boot events =
        some (outcomes, world) ∧
      Simulation.Allowed FileSystem.Undergoes image.shown events outcomes
        fs ∧
      Shown world fs :=
  undergo_simulates.run (Shown.boot hcons hhealthy) hsurvivable

/-- The machine stops while `/a` is written to and again while it is cut, with
a new directory in between. -/
theorem undergo_refines_sample :
    let events := [
      Event.stop (Sample.request (.write Sample.pathA [1, 2, 3] 4094)) 2,
      Event.call (Sample.request (.mkdir Sample.pathC 0o755)),
      Event.stop (Sample.request (.truncate Sample.pathA 100)) 1]
    ∃ outcomes world fs,
      Simulation.answers World.undergo (Sample.world 400 zeroBlock).boot
        events = some (outcomes, world) ∧
      Simulation.Allowed FileSystem.Undergoes
        (Sample.world 400 zeroBlock).shown events outcomes fs ∧
      Shown world fs :=
  undergo_refines (Sample.consistent 400 zeroBlock (by decide) (by decide))
    (Sample.healthy 400 zeroBlock)
    ⟨⟨⟨by decide, fun _ _ _ => trivial⟩, trivial, id⟩, fun _ _ _ =>
      ⟨⟨by decide, fun _ _ _ => trivial⟩, fun _ _ _ =>
        ⟨⟨⟨by decide, fun _ _ _ => trivial⟩, trivial, id⟩,
          fun _ _ _ => trivial⟩⟩⟩

end Fs5600
