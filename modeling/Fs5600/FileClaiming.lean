/-
`fs_write` obeys its protocol, and so do all the claiming calls.
-/
import Fs5600.Claiming

namespace Fs5600

open MachineWord EffectProgram Program

theorem storePtrs_quiet (inode : FsInode) (blocks : List Nat) (blkIdx : Int) :
    (storePtrs inode blocks blkIdx).Only fun _ => False := by
  induction blocks generalizing inode blkIdx with
  | nil => exact only_pure _
  | cons block blocks ih =>
      rw [storePtrs]
      split
      · exact ih _ _
      · trivial

theorem storePtrs_eq (blocks : List Nat) (inode : FsInode) (start : Nat)
    (hbound : start + blocks.length ≤ 1019) (world : World) :
    storePtrs inode blocks start = pure (inode.placePtrs blocks start) :=
  eq_pure_of_exec (storePtrs_quiet inode blocks start)
    (run_storePtrs blocks inode start hbound world)

theorem copyIn_eq {dst src : List UInt8} (off : Nat)
    (hfit : off + src.length ≤ dst.length) :
    copyIn dst off src = pure (overlay dst off src) := by
  rw [copyIn, Program.require, if_pos (by omega)]
  rfl

section

variable {world : World} (hsteady : Steady world) {view : World → Prop}
  (hview : ∀ state, view state → world.Beside state) {inode : FsInode}

include hsteady hview

/-- Copying a block that nothing else changes. -/
theorem Steady.reads_copyBlockIn {k : Nat} (hk : k < 1019)
    (hlt : inode.ptr k < world.disk.diskSize)
    (hsame : ∀ state, view state →
      state.disk (inode.ptr k) = world.disk (inode.ptr k))
    (dst : List UInt8) (off : Nat) (hroom : off + 4096 ≤ dst.length) :
    Reads view (copyBlockIn inode k dst (off : Nat)) fun blkBuf =>
      blkBuf = overlay dst off (List.ofFn (world.disk (inode.ptr k))) := by
  have hword := wordToInt_ptrs inode ⟨k, hk⟩
    (hlt.trans_le hsteady.consistent.size_le)
  have hread : Reads view (blockRead (inode.ptr k)) fun block =>
      block = world.disk (inode.ptr k) :=
    (hsteady.reads_blockRead hview hlt).mono fun block hblock => by
      obtain ⟨state, hstate, rfl⟩ := hblock
      exact hsame state hstate
  rw [copyBlockIn, ptrAt_eq inode hk]
  refine Sees.bind (Sees.pure_eq _) fun ptr hptr => ?_
  rw [hptr, hword]
  refine Sees.bind hread fun block heq => ?_
  rw [heq, copyIn_eq off (by rw [List.length_ofFn]; exact hroom)]
  exact Sees.pure_eq _

variable {start last : Nat} (hstart : start ≤ last) (hlast : last < 1019)
  (hptr : ∀ k, start ≤ k → k ≤ last →
    2 ≤ inode.ptr k ∧ inode.ptr k < world.disk.diskSize)

include hstart hlast hptr

/-- The buffer that a write fills. -/
theorem Steady.reads_mergeBuffer
    (hsame : ∀ state, view state → ∀ k, start ≤ k → k ≤ last →
      state.disk (inode.ptr k) = world.disk (inode.ptr k))
    (buf : List UInt8) {off : Nat} (count : Nat)
    (hfit : off + buf.length ≤ 4096 * (last - start + 1)) :
    Reads view (mergeBuffer inode buf start off last
        ((last : Int) - start + 1) count) fun blkBuf =>
      blkBuf = overlay (endBuffer world.disk inode start last count) off
        buf := by
  have hzeros : (4096 * ((last : Int) - start + 1)).toNat =
      4096 * (last - start + 1) := by omega
  have hoff : 4096 * ((last : Int) - start + 1 - 1) =
      ((4096 * (last - start) : Nat) : Int) := by omega
  have hfirst : Reads view
      (if (count : Int) > 0 then
        copyBlockIn inode start
          (List.replicate (4096 * (last - start + 1)) 0) ((0 : Nat) : Int)
      else pure (List.replicate (4096 * (last - start + 1)) 0)) fun blkBuf =>
      blkBuf = startBuffer world.disk inode start last count := by
    rw [startBuffer]
    by_cases hcount : 0 < count
    · rw [if_pos hcount, if_pos (Int.natCast_pos.mpr hcount)]
      exact hsteady.reads_copyBlockIn hview (hstart.trans_lt hlast)
        (hptr start le_rfl hstart).2
        (fun state hstate => hsame state hstate start le_rfl hstart)
        (List.replicate (4096 * (last - start + 1)) 0) 0
        (by rw [List.length_replicate]; omega)
    · rw [if_neg hcount, if_neg (by omega)]
      exact Sees.pure_eq _
  have hsecond : Reads view
      (if (count : Int) > 1 then
        copyBlockIn inode last
          (startBuffer world.disk inode start last count)
          ((4096 * (last - start) : Nat) : Int)
      else pure (startBuffer world.disk inode start last count)) fun blkBuf =>
      blkBuf = endBuffer world.disk inode start last count := by
    rw [endBuffer]
    by_cases hcount : 1 < count
    · rw [if_pos hcount, if_pos (show (count : Int) > 1 by omega)]
      exact hsteady.reads_copyBlockIn hview hlast
        (hptr last hstart le_rfl).2
        (fun state hstate => hsame state hstate last hstart le_rfl)
        (startBuffer world.disk inode start last count) (4096 * (last - start))
        (by rw [length_startBuffer]; omega)
    · rw [if_neg hcount, if_neg (by omega)]
      exact Sees.pure_eq _
  rw [mergeBuffer, hzeros, hoff]
  refine Sees.bind hfirst fun blkBuf heq => ?_
  rw [heq]
  refine Sees.bind hsecond fun blkBuf heq => ?_
  rw [heq, copyIn_eq off (by rw [length_endBuffer]; exact hfit)]
  exact Sees.pure_eq _

end

section

variable {world : World} (hsteady : Steady world) {request : Request}
  {change : Change} {todo : List Act}

include hsteady

/-- The loop over the blocks of the range. -/
theorem Steady.abides_writeBlocks (inode : FsInode) (blkBuf : List UInt8)
    (stored : Nat → Block) (count pIdx blkIdx : Nat)
    (hbound : pIdx + count ≤ 1019)
    (hlength : 4096 * (blkIdx + count) ≤ blkBuf.length)
    (hstored : ∀ j, j < count →
      bufferBlock blkBuf (blkIdx + j) = stored (pIdx + j))
    (hptr : ∀ k, pIdx ≤ k → k < pIdx + count →
      2 ≤ inode.ptr k ∧ inode.ptr k < world.disk.diskSize)
    {next : Unit → Fs Reply}
    (hnext : request.Abides world (next ()) (.acting change todo)) :
    request.Abides world
      (writeBlocks inode blkBuf count pIdx blkIdx >>= next)
      (.acting change ((List.range' pIdx count).map
        (fun k => .put (inode.ptr k) (stored k)) ++ todo)) := by
  induction count generalizing pIdx blkIdx with
  | zero => exact hnext
  | succ count ih =>
      have hlt : pIdx < 1019 := by omega
      obtain ⟨hlow, hhigh⟩ := hptr pIdx le_rfl (by omega)
      have hfirst := hstored 0 (by omega)
      rw [Nat.add_zero, Nat.add_zero] at hfirst
      have hword := wordToInt_ptrs inode ⟨pIdx, hlt⟩
        (hhigh.trans_le hsteady.consistent.size_le)
      rw [writeBlocks, ptrAt_eq inode hlt, Program.require,
        if_pos (by omega)]
      change request.Abides world
        ((blockWrite _ (wordToInt (inode.ptrs ⟨pIdx, hlt⟩)) >>= _) >>= next) _
      rw [hword, Program.bind_assoc, hfirst, List.range'_succ, List.map_cons,
        List.cons_append]
      refine hsteady.abides_put hhigh hlow ?_
      refine ih (pIdx + 1) (blkIdx + 1) (by omega) (by omega) ?_ ?_
      · intro j hj
        have hnext := hstored (j + 1) (by omega)
        rw [Nat.add_right_comm blkIdx 1 j, Nat.add_right_comm pIdx 1 j]
        exact hnext
      · exact fun k hlow hhigh => hptr k (by omega) (by omega)

/-- The part of a write behind the store of the inode. -/
theorem Steady.abides_storeWrite {offset : Nat} {buf : List UInt8}
    (hbuf : 1 ≤ buf.length) (hend : offset + buf.length ≤ 4173824)
    {inode : FsInode}
    (hptr : ∀ k, k < blockCount (offset + buf.length) →
      2 ≤ inode.ptr k ∧ inode.ptr k < world.disk.diskSize)
    (count : Nat) (delta : Int) (hresult : change.result = buf.length) :
    request.Abides world ((do
        rejectIf (toInt32 (4096 *
          toInt32 (((offset + buf.length - 1) / 4096 : Nat) -
            ((offset / 4096 : Nat) : Int) + 1)) < 0) (-eNoMem)
        let blkBuf ← mergeBuffer inode buf (offset / 4096 : Nat)
          (offset % 4096 : Nat) ((offset + buf.length - 1) / 4096 : Nat)
          (toInt32 (((offset + buf.length - 1) / 4096 : Nat) -
            ((offset / 4096 : Nat) : Int) + 1)) count
        writeBlocks inode blkBuf
          (((offset + buf.length - 1) / 4096 : Nat) -
            ((offset / 4096 : Nat) : Int) + 1).toNat (offset / 4096 : Nat) 0
        modifyGlobals (Globals.addFree delta)
        pure (toInt32 buf.length)) >>= fun result => pure (.code result))
      (.acting change ((List.range' (offset / 4096)
        (blockCount (offset + buf.length) - offset / 4096)).map (fun k =>
          .put (inode.ptr k)
            (mergedBlock world.disk inode count offset buf k)) ++
        [.count delta])) := by
  have hlast := blockCount_eq_succ offset hbuf
  have hstart : offset / 4096 ≤ (offset + buf.length - 1) / 4096 := by omega
  have hroom : offset % 4096 + buf.length ≤
      4096 * ((offset + buf.length - 1) / 4096 - offset / 4096 + 1) := by
    omega
  have hcount : (((offset + buf.length - 1) / 4096 : Nat) -
      ((offset / 4096 : Nat) : Int) + 1).toNat =
        blockCount (offset + buf.length) - offset / 4096 := by omega
  have hlow : 0 ≤ (((offset + buf.length - 1) / 4096 : Nat) -
      ((offset / 4096 : Nat) : Int) + 1) := by omega
  have hhigh : (((offset + buf.length - 1) / 4096 : Nat) -
      ((offset / 4096 : Nat) : Int) + 1) < 1020 := by omega
  rw [toInt32_of_lt (z := ((offset + buf.length - 1) / 4096 : Nat) -
    ((offset / 4096 : Nat) : Int) + 1) (by omega) (by omega), hcount,
    toInt32_natCast (show buf.length < 2147483648 by omega),
    Program.bind_assoc]
  refine .rejectIf fun _ => ?_
  rw [Program.bind_assoc]
  obtain ⟨todo, htodo⟩ : ∃ todo, todo = (List.range' (offset / 4096)
      (blockCount (offset + buf.length) - offset / 4096)).map (fun k =>
        Act.put (inode.ptr k)
          (mergedBlock world.disk inode count offset buf k)) ++
      [.count delta] := ⟨_, rfl⟩
  have hview : ∀ state,
      (request.protocol world).sees (.acting change todo) state →
        world.Beside state := fun _ => Phase.Sees.beside
  rw [← htodo]
  refine .of_reads (hsteady.reads_mergeBuffer hview hstart
    (show (offset + buf.length - 1) / 4096 < 1019 by omega)
    (fun k _ hk => hptr k (by omega)) ?_ buf count hroom) fun blkBuf heq => ?_
  · intro state hsees k hlow hhigh
    refine hsees.2 _ _ (htodo ▸ List.mem_append_left _
      (List.mem_map.mpr ⟨k, List.mem_range'_1.mpr ⟨hlow, ?_⟩, rfl⟩))
    omega
  · rw [heq, Program.bind_assoc, htodo]
    refine hsteady.abides_writeBlocks inode _ _ _ _ 0 (by omega) ?_ ?_
      (fun k _ hk => hptr k (by omega)) ?_
    · rw [length_overlay, length_endBuffer]
      · omega
      · rw [length_endBuffer]
        exact hroom
    · intro j hj
      rw [Nat.zero_add, bufferBlock_overlay world.disk inode count offset hbuf
        (by omega)]
    · rw [Program.bind_assoc]
      exact .count _ hresult

/-- The pointers of a file behind which fresh blocks are placed. -/
theorem Steady.extend_ptr_usable {site : List Slot} {names : List Name}
    {inum : Nat} (hnode : world.disk.node site = some (names, inum))
    {stop : Nat} (hstop : blockCount stop ≤ 1019) {fresh : List Nat}
    (hlength : fresh.length =
      blockCount stop - blockCount (world.disk.inode inum).length)
    (husable : ∀ b ∈ fresh, 2 < b ∧ b < world.disk.diskSize)
    (mtime : UInt32) {k : Nat} (hk : k < blockCount stop) :
    2 ≤ ((world.disk.inode inum).extend fresh stop mtime).ptr k ∧
      ((world.disk.inode inum).extend fresh stop mtime).ptr k <
        world.disk.diskSize := by
  rcases Nat.lt_or_ge k (blockCount (world.disk.inode inum).length)
    with hold | hnew
  · rw [FsInode.extend_ptr _ _ _ _ (Or.inl hold)]
    exact hsteady.ptr_range hnode hold
  · obtain ⟨j, rfl⟩ := Nat.exists_eq_add_of_le hnew
    have hj : j < fresh.length := by omega
    obtain ⟨hlow, hhigh⟩ := husable fresh[j] (List.getElem_mem hj)
    have hsize := hsteady.consistent.size_le
    rw [FsInode.extend_ptr_fresh _ _ _ _ hj (by omega) (by omega)]
    exact ⟨hlow.le, hhigh⟩

theorem Steady.abides_write (ctx : Context) {path : CString}
    (hsubject : request.call.subject = parse path) {buf : List UInt8}
    (hbuf : 1 ≤ buf.length) {offset : Int} (hpos : 0 ≤ offset)
    (hend : offset + buf.length ≤ 4173824)
    (hplan : ∀ state : World,
      request.plan state = state.planWrite ctx path buf offset) :
    request.Abides world (fsWrite ctx path buf offset >>= fun result =>
      pure (.code result)) .looking := by
  obtain ⟨o, rfl⟩ := Int.eq_ofNat_of_zero_le hpos
  rw [fsWrite, Program.bind_assoc]
  refine .of_looking hsubject hsteady.reads_target fun there hthere => ?_
  obtain ⟨site, inum, hresolve, rfl⟩ := hthere
  have hnode := Disk.node_of_resolve hresolve
  have hobject := hsteady.consistent.object _ _ _ hnode
  have hrange := hsteady.consistent.inode_range hnode
  have hcount := hobject.blockCount_le
  have hstop := blockCount_eq_succ o hbuf
  have hmax : blockCount (o + buf.length) ≤ 1019 := by omega
  have hlimit : o + buf.length ≤ 4173824 := by omega
  have hlt : o + buf.length < 2147483648 := by omega
  obtain ⟨hstart, hoff, hlast⟩ := writeRange_eq o hbuf hlt
  have hneeded := blksNeeded_eq o hbuf hlt hcount
  rw [Program.bind_assoc]
  refine .rejectIf fun hreg => ?_
  rw [Program.bind_assoc]
  refine .rejectIf fun hinside => ?_
  rw [hobject.size_eq] at hinside
  simp only [hobject.size_eq, sizeInBlocks_natCast, hstart, hoff, hlast,
    hneeded]
  have hchoice : ∀ state fresh, Undisturbed request.call.subject world state →
      lowestFree state.globals.bitmap world.disk.diskSize
        (blockCount (o + buf.length) -
          blockCount (world.disk.inode inum).length) = some fresh →
      request.plan state =
        .ok (.write site inum o buf (wordOfInt (ctx.time 0)) fresh) := by
    intro state fresh hsees hfree
    rw [hsubject] at hsees
    rw [hplan, World.planWrite, hsees.sight.resolve_eq, hresolve]
    simp only [hsees.sight.inode_eq hresolve, hsees.sight.diskSize_eq]
    rw [if_neg hreg, if_neg hinside, Int.toNat_natCast]
    simp only [hfree]
  have hextend := fun fresh => extend_eq (world.disk.inode inum) fresh
    (hobject.length_le.trans_lt (by decide)) hlt (wordOfInt (ctx.time 0))
  rw [reserveBlocks]
  by_cases hneed : ((blockCount (o + buf.length) : Nat) : Int) -
      blockCount (world.disk.inode inum).length > 0
  · have hlist : ((blockCount (o + buf.length) : Nat) -
        blockCount (world.disk.inode inum).length : Int).toNat =
          blockCount (o + buf.length) -
            blockCount (world.disk.inode inum).length := by omega
    rw [if_pos hneed, hlist, Program.bind_assoc, Program.bind_assoc]
    refine hsteady.abides_search (by omega) fun state fresh hsees hfree => ?_
    have hlength := (lowestFree_eq_some hfree).1
    have husable := hsees.usable hfree
    have hne : fresh ≠ [] := by
      rintro rfl
      rw [List.length_nil] at hlength
      omega
    refine ⟨_, [.mark fresh], .sync :: _, _,
      hchoice state fresh hsees hfree,
      (congrArg (· ++ _) (if_neg hne)).trans (List.append_assoc [_] [_] _),
      (congrArg (settleShared · state) (Program.bind_assoc _ _ _)).trans
        (settle_modifyBitmap (fun b hb =>
          (husable b hb).2.trans_le hsteady.consistent.size_le) true _),
      hsteady.abides_sync ?_⟩
    rw [storePtrs_eq fresh _ _ (by omega) world]
    change request.Abides world ((blockWrite _ _ >>= _) >>= _) _
    rw [hextend, Int.neg_sub, Program.bind_assoc]
    refine hsteady.abides_put hrange.2.1 hrange.1 ?_
    exact hsteady.abides_storeWrite hbuf hlimit (fun k hk =>
      hsteady.extend_ptr_usable hnode hmax hlength husable _ hk) _ _ rfl
  · have hzero : blockCount (o + buf.length) -
        blockCount (world.disk.inode inum).length = 0 := by omega
    have hnil : (world.disk.inode inum).placePtrs []
        (blockCount (world.disk.inode inum).length) =
          world.disk.inode inum := by simp [FsInode.placePtrs]
    have hnone := hextend []
    rw [hnil] at hnone
    rw [if_neg hneed]
    change request.Abides world ((blockWrite _ _ >>= _) >>= _) _
    rw [hnone, Int.neg_sub, Program.bind_assoc]
    refine hsteady.abides_choose_put hrange.2.1 hrange.1
      (fun state hsees => hchoice state [] hsees (by
        rw [hzero, lowestFree_zero])) rfl rfl ?_
    exact hsteady.abides_storeWrite hbuf hlimit (fun k hk =>
      hsteady.extend_ptr_usable hnode hmax (by rw [hzero]; rfl)
        (fun b hb => absurd hb List.not_mem_nil) _ hk) _ _ rfl

end

/-- A claiming call obeys its protocol. -/
theorem Steady.abides_perform {world : World} (hsteady : Steady world)
    {request : Request} (hclaims : request.call.Claims)
    (hrange : request.call.InRange) {site : List Slot} {inum : Nat}
    (hparent : world.disk.resolve request.call.subject.dropLast =
      .ok (site, inum))
    (hdir : (world.disk.inode inum).isDir = true) :
    request.Abides world request.perform .looking := by
  obtain ⟨ctx, call⟩ := request
  cases call with
  | create path mode =>
      exact hsteady.abides_create rfl (parse_ne_nil hrange) hparent hdir ctx
        mode false fun _ => rfl
  | mkdir path mode =>
      exact hsteady.abides_create rfl (parse_ne_nil hrange) hparent hdir ctx
        mode true fun _ => rfl
  | unlink path =>
      exact hsteady.abides_unlink rfl (parse_ne_nil hrange) hparent hdir
        fun _ => rfl
  | write path buf offset =>
      exact hsteady.abides_write ctx rfl hrange.1 hrange.2.1 hrange.2.2
        fun _ => rfl
  | init | getattr | readdir | rmdir | rename | chmod | utime | truncate
  | read | statfs => cases hclaims

/-! What a write returns. -/

theorem copyIn_yields (dst : List UInt8) (off : Int) (src : List UInt8) :
    (copyIn dst off src).Yields fun blkBuf =>
      (0 ≤ off ∧ off + src.length ≤ dst.length) ∧
        blkBuf.length = dst.length := by
  refine Yields.require_bind fun hfit => ⟨hfit, ?_⟩
  simp only [List.length_append, List.length_take, List.length_drop]
  omega

/-- The caller's bytes fit into the blocks of the range. -/
theorem mergeBuffer_yields (inode : FsInode) (buf : List UInt8)
    (start off last count total : Int) :
    (mergeBuffer inode buf start off last count total).Yields fun _ =>
      off + buf.length ≤ (4096 * count).toNat := by
  have hcopy : ∀ (test : Prop) [Decidable test] pIdx blkBuf off,
      (if test then copyBlockIn inode pIdx blkBuf off
        else pure blkBuf).Yields fun result =>
          result.length = blkBuf.length := by
    intro test _ pIdx blkBuf off
    split
    · refine Yields.of_next _ fun ptr => Yields.of_next _ fun blk => ?_
      exact (copyIn_yields blkBuf off _).mono fun result hresult => hresult.2
    · exact rfl
  refine (hcopy _ _ _ _).bind fun first hfirst => ?_
  refine (hcopy _ _ _ _).bind fun second hsecond => ?_
  refine (copyIn_yields second off buf).mono fun result hresult => ?_
  rw [hsecond, hfirst, List.length_replicate] at hresult
  exact hresult.1.2

/-- The loop ends within the pointers of the inode. -/
theorem writeBlocks_yields (inode : FsInode) (blkBuf : List UInt8)
    (count : Nat) (pIdx : Int) (blkIdx : Nat) :
    (writeBlocks inode blkBuf count pIdx blkIdx).Yields fun _ =>
      count ≠ 0 → pIdx + count ≤ 1019 := by
  induction count generalizing pIdx blkIdx with
  | zero => exact fun hne => absurd rfl hne
  | succ count ih =>
      rw [writeBlocks, ptrAt]
      split
      · refine Yields.require_bind fun _ => Yields.of_next _ fun _ => ?_
        refine (ih (pIdx + 1) (blkIdx + 1)).mono fun _ hrest _ => ?_
        by_cases hzero : count = 0
        · omega
        · have hbound := hrest hzero
          omega
      · trivial

/-- A range of blocks that is computed in `int`, holds the bytes and keeps to
the pointers ends within them. -/
theorem writeEnd_le {offset last : Int} {len : Nat} (hlen : 1 ≤ len)
    (hpos : 0 ≤ offset) (hlt : offset < 2147483648)
    (hlow : -2147483648 ≤ last)
    (hmemory : ¬ toInt32 (4096 * toInt32 (last - offset / 4096 + 1)) < 0)
    (hfit : offset % 4096 + len ≤
      (4096 * toInt32 (last - offset / 4096 + 1)).toNat)
    (hbound : (last - offset / 4096 + 1).toNat ≠ 0 →
      offset / 4096 + (last - offset / 4096 + 1).toNat ≤ 1019) :
    offset + len ≤ 4173824 := by
  obtain ⟨count, hcount⟩ : ∃ count, count = last - offset / 4096 + 1 :=
    ⟨_, rfl⟩
  rw [← hcount] at hmemory hfit hbound
  rcases Int.lt_or_le count (-2147483648) with hwrap | hexact
  · have hword : toInt32 count = count + 4294967296 := by
      rw [← toInt32_add count 1]
      exact toInt32_of_lt (by omega) (by omega)
    have hbytes : toInt32 (4096 * (count + 4294967296)) =
        4096 * (count + 2147483648) := by
      rw [show 4096 * (count + 4294967296) =
        4096 * (count + 2147483648) + 4294967296 * 2048 by omega, toInt32_add]
      exact toInt32_of_lt (by omega) (by omega)
    rw [hword, hbytes] at hmemory
    omega
  · have hword : toInt32 count = count := toInt32_of_lt hexact (by omega)
    rw [hword] at hfit
    omega

/-- A write that returns ends within the 1019 pointers of an inode. -/
theorem fsWrite_yields (ctx : Context) (path : CString) {buf : List UInt8}
    (hbuf : 1 ≤ buf.length) {offset : Int} (hpos : 0 ≤ offset) :
    (fsWrite ctx path buf offset).Yields fun _ =>
      offset + buf.length ≤ 4173824 := by
  refine Yields.of_next _ fun there => Yields.rejectIf_bind _ fun _ => ?_
  refine Yields.rejectIf_bind _ fun hinside => ?_
  refine Yields.of_next _ fun finode => Yields.of_next _ fun _ => ?_
  refine Yields.rejectIf_bind _ fun hmemory => ?_
  refine (mergeBuffer_yields _ _ _ _ _ _ _).bind fun blkBuf hfit => ?_
  refine (writeBlocks_yields _ _ _ _ _).bind fun _ hbound => ?_
  refine Yields.of_next _ fun _ => ?_
  have hsize := Int32.toInt_lt there.2.size
  have hlt : offset < 2147483648 := by omega
  have hstart : toInt32 (offset.tdiv 4096) = offset / 4096 := by
    rw [Int.tdiv_eq_ediv_of_nonneg hpos]
    exact toInt32_of_lt (by omega) (by omega)
  have hoff : toInt32 (offset.tmod 4096) = offset % 4096 := by
    rw [Int.tmod_eq_emod_of_nonneg hpos]
    exact toInt32_of_lt (by omega) (by omega)
  rw [hstart] at hmemory hfit hbound
  rw [hoff] at hfit
  exact writeEnd_le hbuf hpos hlt (le_toInt32 _) hmemory hfit hbound

end Fs5600
