/-
The protocol that a claiming call obeys among others: first it looks, at
nothing that a call in another directory changes, then it chooses a change
and carries out the acts of that change one after the other.
-/
import Fs5600.Threads
import Fs5600.Sight

namespace Fs5600

open MachineWord EffectProgram Program

/-- How far a call has come; `todo` are the acts that are still to be done. -/
inductive Phase where
  | looking
  | acting (change : Change) (todo : List Act)

/-- The next few acts, or none, are done. -/
inductive Moves : Phase → World → World → Phase → Prop
  | idle (phase : Phase) (state : World) : Moves phase state state phase
  | act (change : Change) (acts todo : List Act) (state : World) :
      Moves (.acting change (acts ++ todo)) state (applyActs acts state)
        (.acting change todo)

/-- Nothing has changed that a call on the path of these names looks at. -/
structure Undisturbed (names : List Name) (world state : World) : Prop where
  beside : world.Beside state
  sight : Sight names world.disk state.disk
  reserved : ∀ b, b < 3 → Marked state.globals.bitmap b

/-- What a call on the path of these names can count on, once it has started
in `world`. -/
def Phase.Sees (world : World) (names : List Name) : Phase → World → Prop
  | .looking, state => Undisturbed names world state
  | .acting _ todo, state => world.Beside state ∧
      ∀ b buf, .put b buf ∈ todo → state.disk b = world.disk b

/-- A step may choose, if the call is still looking, and go on with the acts
of the choice.  Who takes blocks into use chooses when it searches for
them. -/
inductive Request.May (world : World) (request : Request) (code : Fs Reply) :
    Phase → World → World → Phase → Prop
  | move {phase phase' : Phase} {state state' : World}
      (hmoves : Moves phase state state' phase') :
      May world request code phase state state' phase'
  | choose {phase' : Phase} {state state' : World} (change : Change)
      (hplan : request.plan state = .ok change)
      (hsearch : change.taken ≠ [] → Searching code)
      (hmoves : Moves (.acting change (change.acts world.disk)) state state'
        phase') :
      May world request code .looking state state' phase'

def Request.protocol (world : World) (request : Request) :
    Protocol Access Access.Reply Int Reply World Phase where
  sees := Phase.Sees world request.call.subject
  may := request.May world
  done phase reply :=
    ∃ change, phase = .acting change [] ∧ reply = .code change.result

/-- The code obeys the protocol of the request from the phase on. -/
abbrev Request.Abides (world : World) (request : Request)
    (code : Fs Reply) (phase : Phase) : Prop :=
  code.Obeys handleShared Access.inMemory (request.protocol world) phase

/-- What the code reads in the states of the view has the property. -/
abbrev Reads {A : Type} (view : World → Prop) (code : Fs A)
    (post : A → Prop) : Prop :=
  code.Sees handleShared Access.inMemory view post

section

variable {world state : World} {request : Request} {phase : Phase}
  {change : Change} {todo : List Act} {A : Type}

theorem Phase.Sees.beside
    (hsees : (request.protocol world).sees phase state) :
    world.Beside state := by
  cases phase with
  | looking => exact Undisturbed.beside hsees
  | acting => exact hsees.1

/-! Rules for code that obeys. -/

theorem Request.Abides.of_reads {code : Fs A} {next : A → Fs Reply}
    {post : A → Prop}
    (hcode : Reads (phase.Sees world request.call.subject) code post)
    (hnext : ∀ value, post value → request.Abides world (next value) phase) :
    request.Abides world (code >>= next) phase :=
  Obeys.of_sees hcode (fun _ state _ => .move (.idle phase state)) hnext

theorem Request.Abides.done :
    request.Abides world (pure (.code change.result)) (.acting change []) :=
  .ret ⟨change, rfl, rfl⟩

/-- The step of a store. -/
theorem advance_put {b : Nat} (buf : Block) (next : Unit → Fs Reply)
    (hnever : state.device.writeFails = never) (hpos : 1 < b)
    (hsize : b < state.device.size) (hb : b < 32768) :
    advance (blockWrite buf b >>= next) state =
      some (next (), state.put b buf) := by
  have hreply := handleShared_write buf hnever hpos hsize hb
  change (handleShared (.write buf b) state).map _ = _
  rw [hreply]
  rfl

theorem advance_sync (buf : Block) (next : Unit → Fs Reply)
    (hnever : state.device.writeFails = never)
    (hsize : 1 < state.device.size) :
    advance (blockWrite buf 1 >>= next) state =
      some (next (), Act.sync.apply state) := by
  have hreply := handleShared_sync buf hnever hsize
  change (handleShared (.write buf 1) state).map _ = _
  rw [hreply]
  rfl

section

variable (hsteady : Steady world) {b : Nat} (hb : b < world.disk.diskSize)

include hsteady hb

theorem Steady.beside_write (hbeside : world.Beside state) :
    state.device.writeFails = never ∧ b < state.device.size ∧ b < 32768 := by
  have hle := hsteady.consistent.size_le
  have hfits := hsteady.consistent.size_fits
  refine ⟨hbeside.writes.trans hsteady.writes, ?_, hb.trans_le hle⟩
  rw [hbeside.size]
  exact hb.trans_le hfits

theorem Steady.abides_put (hpos : 1 < b) {buf : Block}
    {next : Unit → Fs Reply}
    (hnext : request.Abides world (next ()) (.acting change todo)) :
    request.Abides world (blockWrite buf b >>= next)
      (.acting change (.put b buf :: todo)) := by
  refine Obeys.of_step ⟨_, _, rfl⟩ fun state code state' hsees hrun => ?_
  obtain ⟨hnever, hsize, hlt⟩ := hsteady.beside_write hb (Phase.Sees.beside hsees)
  rw [show Program.step _ _ _ _ = _ from
    advance_put buf next hnever hpos hsize hlt] at hrun
  cases hrun
  exact ⟨_, .move (.act change [.put b buf] todo state), hnext⟩

/-- A call that takes no blocks into use chooses with its first store. -/
theorem Steady.abides_choose_put (hpos : 1 < b) {buf : Block}
    {next : Unit → Fs Reply}
    (hplan : ∀ state, Undisturbed request.call.subject world state →
      request.plan state = .ok change)
    (htaken : change.taken = [])
    (hacts : change.acts world.disk = .put b buf :: todo)
    (hnext : request.Abides world (next ()) (.acting change todo)) :
    request.Abides world (blockWrite buf b >>= next) .looking := by
  refine Obeys.of_step ⟨_, _, rfl⟩ fun state code state' hsees hrun => ?_
  obtain ⟨hnever, hsize, hlt⟩ := hsteady.beside_write hb (Phase.Sees.beside hsees)
  rw [show Program.step _ _ _ _ = _ from
    advance_put buf next hnever hpos hsize hlt] at hrun
  cases hrun
  refine ⟨_, .choose change (hplan state hsees)
    (fun hne => absurd htaken hne) ?_, hnext⟩
  rw [hacts]
  exact .act change [.put b buf] todo state

end

theorem Steady.abides_sync (hsteady : Steady world) {buf : Block}
    {next : Unit → Fs Reply}
    (hnext : request.Abides world (next ()) (.acting change todo)) :
    request.Abides world (blockWrite buf 1 >>= next)
      (.acting change (.sync :: todo)) := by
  refine Obeys.of_step ⟨_, _, rfl⟩ fun state code state' hsees hrun => ?_
  obtain ⟨hnever, hsize, -⟩ := hsteady.beside_write
    (Nat.lt_trans Nat.one_lt_two hsteady.two_lt)
    (Phase.Sees.beside hsees)
  rw [show Program.step _ _ _ _ = _ from
    advance_sync buf next hnever hsize] at hrun
  cases hrun
  exact ⟨_, .move (.act change [.sync] todo state), hnext⟩

/-! Reading. -/

section

variable (hsteady : Steady world) {view : World → Prop}
  (hview : ∀ state, view state → world.Beside state)

include hsteady hview

theorem Steady.reads_blockRead {b : Nat} (hb : b < world.disk.diskSize) :
    Reads view (blockRead b)
      fun block => ∃ state, view state ∧ block = state.disk b := by
  refine Sees.of_call rfl fun state reply state' hstate hreply => ?_
  have hbeside := hview state hstate
  have hle := hsteady.consistent.size_le
  have hfits := hsteady.consistent.size_fits
  rw [handleShared_read (hbeside.reads.trans hsteady.reads)
    (by rw [hbeside.size]; omega) (by omega)] at hreply
  cases hreply
  exact ⟨rfl, Sees.pure ⟨state, hstate, rfl⟩⟩

theorem Steady.reads_inode {b : Nat} (hb : b < world.disk.diskSize)
    {inode : FsInode}
    (hsame : ∀ state, view state → state.disk.inode b = inode) :
    Reads view (readInode b) fun value => value = inode := by
  refine Sees.bind (hsteady.reads_blockRead hview hb) fun block hblock => ?_
  obtain ⟨state, hstate, rfl⟩ := hblock
  exact Sees.pure (hsame state hstate)

/-- Reading a directory yields what it holds in some state of the view. -/
theorem Steady.reads_directory {site : List Slot} {names : List Name}
    {i : Nat} (hnode : world.disk.node site = some (names, i))
    (hdir : (world.disk.inode i).isDir = true)
    (hsame : ∀ state, view state →
      state.disk.inode i = world.disk.inode i) :
    Reads view (readDirectory (wordToInt ((world.disk.inode i).ptrs 0)))
      fun dir => ∃ state, view state ∧ dir = state.disk.entries i := by
  have hlt := (hsteady.consistent.entries_range hnode hdir).2.1
  rw [wordToInt_ptrs_zero _ (hlt.trans_le hsteady.consistent.size_le)]
  refine Sees.bind (hsteady.reads_blockRead hview hlt) fun block hblock => ?_
  obtain ⟨state, hstate, rfl⟩ := hblock
  refine Sees.pure ⟨state, hstate, ?_⟩
  rw [Disk.entries, hsame state hstate]

theorem Steady.reads_translateLoop (tokens : List Name) {site : List Slot}
    {names : List Name} {i : Nat}
    (hnode : world.disk.node site = some (names, i))
    (hwalk : ∀ state, view state → world.disk.SameWalk state.disk i tokens) :
    Reads view (translateLoop i tokens) fun inum =>
      ∃ path j, world.disk.resolveFrom i tokens = .ok (path, j) ∧
        inum = j := by
  induction tokens generalizing site names i with
  | nil => exact Sees.pure ⟨[], i, rfl, rfl⟩
  | cons token tokens ih =>
      have hlt := (hsteady.consistent.inode_range hnode).2.1
      have hinode := fun state hstate => (hwalk state hstate).1
      refine Sees.bind (hsteady.reads_inode hview hlt hinode)
        fun inode heq => ?_
      subst heq
      refine Sees.rejectIf_bind _ fun hnot => ?_
      have hdir := not_not.mp hnot
      refine Sees.bind (hsteady.reads_directory hview hnode hdir hinode)
        fun dir hseen => ?_
      obtain ⟨state, hstate, rfl⟩ := hseen
      obtain ⟨hfirst, hslot⟩ := (hwalk state hstate).2 hdir
      simp only [translateScan_eq, hfirst]
      cases hfound : firstNamed (world.disk.entries i) token with
      | none => exact Sees.rejectIf_bind _ fun hne => absurd rfl hne
      | some slot =>
          obtain ⟨hchild, -⟩ := hslot slot hfound
          have hnext := Disk.node_child hnode
            (Disk.edge_of_firstNamed hdir hfound)
          simp only [hchild]
          refine Sees.rejectIf_bind _ fun _ => ?_
          refine (ih hnext fun state' hstate' => ?_).mono fun inum hinum => ?_
          · exact (((hwalk state' hstate').2 hdir).2 slot hfound).2
          · obtain ⟨path, j, hresolve, rfl⟩ := hinum
            refine ⟨slot :: path, j, ?_, rfl⟩
            simp only [Disk.resolveFrom, if_pos hdir, hfound, hresolve]
            rfl

/-- `path_to_inode` among others finds what it would find alone. -/
theorem Steady.reads_pathToInode (path : CString) (depth : Nat)
    (hsight : ∀ state, view state →
      Sight (parse path) world.disk state.disk) :
    Reads view (pathToInode path depth) fun there =>
      ∃ site i, world.disk.resolve
          ((parse path).take ((parse path).length - depth)) =
            .ok (site, i) ∧ there = ((i : Int), world.disk.inode i) := by
  have hcut : ((parse path).length -
      if depth ≤ (parse path).length then depth else (parse path).length) =
        (parse path).length - depth := by
    split <;> omega
  have hwalk : ∀ state, view state → world.disk.SameWalk state.disk 2
      ((parse path).take ((parse path).length - depth)) := by
    intro state hstate
    have hall := (hsight state hstate).walk
    rw [← List.take_append_drop ((parse path).length - depth) (parse path)]
      at hall
    exact hall.front
  rw [pathToInode, translate, hcut]
  refine Sees.bind (hsteady.reads_translateLoop hview _ Disk.node_nil hwalk)
    fun inum hinum => ?_
  obtain ⟨site, i, hresolve, rfl⟩ := hinum
  have hlt := (hsteady.consistent.inode_range
    (Disk.node_of_resolve hresolve)).2.1
  refine Sees.bind (hsteady.reads_inode hview hlt fun state hstate =>
    (hwalk state hstate).inode_eq hresolve) fun inode heq => ?_
  subst heq
  exact Sees.pure ⟨site, i, hresolve, rfl⟩

end

/-! Runs in memory. -/

/-- What is left of the code after its run in memory, and the world then. -/
abbrev settleShared (code : Fs Reply) (state : World) :
    Option (Fs Reply × World) :=
  code.settle handleShared Access.inMemory state

theorem findFreeLoop_inMemory (map : Block) (blocks : List Nat) (n : Nat) :
    (findFreeLoop map blocks n).Only fun query => query.inMemory = true := by
  induction blocks generalizing n with
  | nil => cases n <;> exact trivial
  | cons blkIdx rest ih =>
      cases n with
      | zero => exact only_pure _
      | succ n =>
          refine (Only.require _).bind fun _ => ?_
          split
          · exact (ih n).bind fun _ => only_pure _
          · exact ih (n + 1)

/-- A search in memory, and what comes after it. -/
theorem settle_find (n : Nat) (next : List Nat → Fs Reply)
    (hsize : state.globals.superblock.diskSize.toNat ≤ 32768) :
    settleShared (findFirstNfreeBlocks 0 n >>= next) state =
      match lowestFree state.globals.bitmap
          state.globals.superblock.diskSize.toNat n with
      | none => some (.exit (-eNoSpc), state)
      | some blocks => settleShared (next blocks) state := by
  have honly : (findFirstNfreeBlocks 0 n).Only
      fun query => query.inMemory = true :=
    ⟨rfl, fun globals => findFreeLoop_inMemory _ _ _⟩
  have hagree : ∀ query : Access, query.inMemory = true →
      handleShared query = handle query := by
    intro query hmemory
    cases query with
    | load | store => rfl
    | read | write => cases hmemory
  have hrun := run_findFirstNfreeBlocks n hsize
  rw [run, ← honly.exec_eq hagree] at hrun
  cases hfree : lowestFree state.globals.bitmap
      state.globals.superblock.diskSize.toNat n with
  | none =>
      rw [hfree] at hrun
      exact settle_bind_error honly hrun
  | some blocks =>
      rw [hfree] at hrun
      exact settle_bind_ok honly hrun

/-- A run in memory ends at a store. -/
theorem settle_write (buf : Block) (lba : Int) (next : Unit → Fs Reply) :
    settleShared (blockWrite buf lba >>= next) state =
      some (blockWrite buf lba >>= next, state) := settle_call rfl state

theorem settle_modify (change : Globals → Globals) (next : Unit → Fs Reply) :
    settleShared (modifyGlobals change >>= next) state =
      settleShared (next ()) (state.modify change) := rfl

theorem settle_load (next : Globals → Fs Reply) :
    settleShared (loadGlobals >>= next) state =
      settleShared (next state.globals) state := rfl

/-- The update of the bitmap in memory; the store of block 1 comes next. -/
theorem settle_modifyBitmap {blocks : List Nat}
    (hblocks : ∀ b ∈ blocks, b < 32768) (setFlag : Bool)
    (next : Unit → Fs Reply) :
    settleShared (modifyBitmapAndWritebackToDisk (blocks.map Int.ofNat)
        setFlag >>= next) state =
      some (blockWrite
          ((if setFlag then Act.mark blocks else .clear blocks).apply
            state).globals.bitmap 1 >>= next,
        (if setFlag then Act.mark blocks else .clear blocks).apply state) := by
  have hin : ∀ i ∈ blocks.map Int.ofNat, 0 ≤ i ∧ i < 32768 := by
    intro i hi
    obtain ⟨b, hb, rfl⟩ := List.mem_map.mp hi
    exact ⟨Int.natCast_nonneg b, Int.ofNat_lt.mpr (hblocks b hb)⟩
  have hcast : (blocks.map Int.ofNat).map Int.toNat = blocks := by
    rw [List.map_map]
    exact List.map_id _
  have hupdate : ∀ change : Globals → Globals,
      settleShared ((modifyGlobals change >>= fun _ => loadGlobals >>=
        fun globals => blockWrite globals.bitmap 1) >>= next) state =
      some (blockWrite (change state.globals).bitmap 1 >>= next,
        state.modify change) := by
    intro change
    rw [bind_assoc, settle_modify, bind_assoc, settle_load, settle_write]
    rfl
  rw [modifyBitmapAndWritebackToDisk, Program.require, if_pos hin, hcast]
  cases setFlag with
  | true => exact hupdate _
  | false => exact hupdate _

theorem step_of_memory {code : Fs Reply}
    (hcall : ∃ query next, code = .call query next ∧ query.inMemory = true) :
    code.step handleShared Access.inMemory state =
      settleShared code state := by
  obtain ⟨query, next, rfl, hmemory⟩ := hcall
  rw [step, if_pos hmemory]

/-- Code whose run in memory does the next acts. -/
theorem Request.Abides.of_memory (acts : List Act) {code : Fs Reply}
    (hcall : ∃ query next, code = .call query next ∧ query.inMemory = true)
    (after : World → Fs Reply)
    (hsettle : ∀ state, settleShared code state =
      some (after state, applyActs acts state))
    (hnext : ∀ state,
      request.Abides world (after state) (.acting change todo)) :
    request.Abides world code (.acting change (acts ++ todo)) := by
  have hhead : ∃ query next, code = .call query next :=
    hcall.imp fun query => Exists.imp fun next => And.left
  refine Obeys.of_step hhead fun state code' state' _ hrun => ?_
  rw [step_of_memory hcall, hsettle state] at hrun
  cases hrun
  exact ⟨_, .move (.act change acts todo state), hnext state⟩

/-- The last run in memory moves the free block counters. -/
theorem Request.Abides.count (delta : Int) {result : Int}
    (hresult : change.result = result) :
    request.Abides world
      (modifyGlobals (Globals.addFree delta) >>= fun _ =>
        pure (.code result))
      (.acting change [.count delta]) := by
  subst hresult
  exact .of_memory [.count delta] ⟨_, _, rfl, rfl⟩
    (fun _ => pure (.code change.result)) (fun _ => rfl) fun _ => .done

/-- A call that takes blocks into use chooses when it searches for them. -/
theorem Steady.abides_search (hsteady : Steady world) {n : Nat}
    (hn : 0 < n) {next : List Nat → Fs Reply}
    (hnext : ∀ state blocks,
      Undisturbed request.call.subject world state →
      lowestFree state.globals.bitmap world.disk.diskSize n = some blocks →
      ∃ change acts todo after, request.plan state = .ok change ∧
        change.acts world.disk = acts ++ todo ∧
        settleShared (next blocks) state =
          some (after, applyActs acts state) ∧
        request.Abides world after (.acting change todo)) :
    request.Abides world (findFirstNfreeBlocks 0 n >>= next) .looking := by
  have hcall : ∃ query rest, findFirstNfreeBlocks 0 n >>= next =
      .call query rest ∧ query.inMemory = true := ⟨.load, _, rfl, rfl⟩
  refine Obeys.of_step ⟨_, _, rfl⟩ fun state code state' hsees hrun => ?_
  have hsuper : state.globals.superblock = world.disk.superblock :=
    (Phase.Sees.beside hsees).superblock.trans hsteady.superblock
  have hsize : state.globals.superblock.diskSize.toNat =
      world.disk.diskSize := by rw [hsuper]; rfl
  rw [step_of_memory hcall, settle_find n next (by
    rw [hsize]
    exact hsteady.consistent.size_le), hsize] at hrun
  cases hfree : lowestFree state.globals.bitmap world.disk.diskSize n with
  | none =>
      rw [hfree] at hrun
      cases hrun
      exact ⟨.looking, .move (.idle _ state), .exit _ _⟩
  | some blocks =>
      obtain ⟨change, acts, todo, after, hplan, hacts, hafter, hgoes⟩ :=
        hnext state blocks hsees hfree
      rw [hfree] at hrun
      dsimp only at hrun
      rw [hafter] at hrun
      cases hrun
      refine ⟨_, .choose change hplan (fun _ => ⟨n, next, hn, rfl⟩) ?_,
        hgoes⟩
      rw [hacts]
      exact .act change acts todo state

end

end Fs5600
