/-
Files written from the start to the end: how the bytes are cut into writes
does not matter.
-/
import Fs5600.Creation
import Fs5600.Accounting

namespace Fs5600

open MachineWord EffectProgram Program

/-- The writes of the chunks, each at the offset where the one before it
ended. -/
def appendRequests (path : CString) :
    Nat → List (Context × List UInt8) → List Request
  | _, [] => []
  | offset, (ctx, chunk) :: chunks =>
      ⟨ctx, .write path chunk offset⟩ ::
        appendRequests path (offset + chunk.length) chunks

/-- A file that was created in `before` has been written up to `content`. -/
structure Appended (path : CString) (content : List UInt8)
    (before world : World) : Prop extends Steady world where
  file : ∃ site inum, world.disk.resolve (parse path) = .ok (site, inum) ∧
    (world.disk.inode inum).isReg = true ∧
    (world.disk.inode inum).length = content.length ∧
    fileContent world.disk (world.disk.inode inum) = content
  kept : ∀ b, Marked (before.disk 1) b → Marked (world.disk 1) b
  count : freeCount (world.disk 1) world.disk.diskSize +
    (blockCount content.length + 1) =
      freeCount (before.disk 1) before.disk.diskSize
  statVfs : world.globals.statVfs = (before.globals.addFree
    (-((blockCount content.length + 1 : Nat) : Int))).statVfs

/-- A change that gives nothing back keeps every mark, and takes as many
blocks as it says. -/
theorem Change.apply_taken {world : World} (hmount : Mounted world)
    {names : List Name} {change : Change}
    (hvalid : change.Valid world names)
    (hreleased : change.released world.disk = []) :
    (∀ b, Marked (world.disk 1) b →
      Marked ((change.apply world).disk 1) b) ∧
    freeCount ((change.apply world).disk 1)
        (change.apply world).disk.diskSize + change.taken.length =
      freeCount (world.disk 1) world.disk.diskSize := by
  rw [(Change.apply_shows hmount hvalid).diskSize hmount hvalid,
    Change.apply_bitmap hmount hvalid]
  constructor
  · intro b hmarked
    rw [Change.marked_map hmount hvalid, hreleased]
    exact ⟨List.not_mem_nil, Or.inr hmarked⟩
  · have hcount := Change.freeCount_map hmount hvalid
    rw [hreleased] at hcount
    exact hcount

/-- A new file is empty. -/
theorem Steady.appended_nil {world start : World} (hsteady : Steady world)
    {ctx : Context} {path : CString} (hne : components path ≠ [])
    {mode : UInt32} (hmode : mode &&& sIfmt = sIfreg)
    (hcreate : run (fsCreate ctx path mode) world =
      some (.ok 0, start)) : Appended path [] world start := by
  have hmount := hsteady.toMounted
  have hrun : run (fsCreate ctx path mode) world = _ := hsteady.run_follows
    (hmount.follows_create ctx (parse_ne_nil hne) mode false)
  rw [hcreate] at hrun
  cases hplan : world.planCreate ctx path mode false with
  | error status =>
      rw [hplan] at hrun
      cases hrun
  | ok change =>
      rw [hplan] at hrun
      have hworld : start = change.apply world :=
        (Prod.mk.inj (Option.some.inj hrun)).2
      obtain ⟨site, inum, slot, name, inode, blocks, rfl⟩ :=
        World.planCreate_makes hplan
      obtain ⟨names, hvalid, htarget⟩ := World.planCreate_planned hmount
        (parse_ne_nil hne) hmode hplan
      have hok : InsertOk world names site inum slot name inode false blocks :=
        hvalid
      have hnames : names ++ [name] = parse path := htarget
      obtain ⟨hkept, hcount⟩ := Change.apply_taken hmount hvalid rfl
      have hresolve := (hok.apply_resolve hmount).1
      rw [hnames] at hresolve
      have hinode := hok.apply_inode hmount
      have hlength : inode.length = 0 := by
        rw [FsInode.length, hok.inode.size]
        rfl
      have hblocks : blocks.length = 1 := hok.inode.length
      rw [hworld]
      refine ⟨hsteady.apply hvalid, ⟨_, _, hresolve, ?_, ?_, ?_⟩, hkept, ?_,
        ?_⟩
      · rw [hinode]
        exact hok.inode.isReg
      · rw [hinode, hlength]
        rfl
      · rw [hinode, ← List.length_eq_zero_iff, length_fileContent, hlength]
      · rw [← hcount]
        change _ = _ + blocks.length
        rw [hblocks]
        rfl
      · rw [Change.apply_globals hmount]
        change (Globals.addFree _ _).statVfs = _
        rw [hblocks]
        exact Globals.addFree_statVfs rfl _

/-- One more chunk. -/
theorem Appended.step {before world : World} {path : CString}
    {content : List UInt8} (happ : Appended path content before world)
    (ctx : Context) {chunk : List UInt8} (hchunk : chunk ≠ [])
    (hlimit : content.length + chunk.length ≤ 4173824)
    (hfits : blockCount (content.length + chunk.length) + 1 ≤
      freeCount (before.disk 1) before.disk.diskSize) :
    ∃ world', run (fsWrite ctx path chunk content.length) world =
        some (.ok (chunk.length : Int), world') ∧
      Appended path (content ++ chunk) before world' := by
  have hsteady := happ.toSteady
  have hmount := hsteady.toMounted
  obtain ⟨site, inum, hresolve, hreg, hlength, hcontent⟩ := happ.file
  have hcount := happ.count
  have hmono := blockCount_mono (Nat.le_add_right content.length chunk.length)
  obtain ⟨fresh, hok, hrun⟩ := hsteady.run_write hresolve hreg ctx
    (List.length_pos_iff.mpr hchunk) hlength.ge hlimit
    (by rw [hlength]; omega)
  refine ⟨_, hrun, ?_⟩
  have hvalid : Change.Valid world (parse path) (.write site inum
    content.length chunk (wordOfInt (ctx.time 0)) fresh) := hok
  have htaken : fresh.length = blockCount (content.length + chunk.length) -
      blockCount content.length := by
    rw [(lowestFree_eq_some hok.fresh).1, hlength]
  obtain ⟨hkept, hfree⟩ := Change.apply_taken hmount hvalid rfl
  have hinode := hok.apply_inode hmount (wordOfInt (ctx.time 0))
  refine ⟨hsteady.apply hvalid,
    ⟨site, inum, hok.apply_resolve hmount _, ?_, ?_, ?_⟩,
    fun b hmarked => hkept b (happ.kept b hmarked), ?_, ?_⟩
  · rw [hinode]
    exact hreg
  · have hsize := hok.apply_size hmount (wordOfInt (ctx.time 0))
    rw [FsInode.length] at hlength
    rw [FsInode.length, hsize, List.length_append]
    omega
  · rw [hinode, hok.apply_content hmount, hcontent, List.take_length,
      List.drop_eq_nil_of_le (Nat.le_add_right _ _), List.append_nil]
  · rw [List.length_append]
    change _ + fresh.length = _ at hfree
    omega
  · rw [Change.apply_globals hmount, List.length_append]
    change (Globals.addFree _ _).statVfs = _
    rw [hlength]
    have hstat := Globals.addFree_statVfs happ.statVfs
      ((blockCount content.length : Int) -
        blockCount (content.length + chunk.length))
    rw [Globals.addFree_addFree] at hstat
    refine (Globals.addFree_statVfs rfl _).trans (hstat.trans ?_)
    congr 2
    omega

/-- A series of chunks. -/
theorem Appended.serve {before : World} {path : CString}
    {chunks : List (Context × List UInt8)}
    (hchunks : ∀ chunk ∈ chunks, chunk.2 ≠ []) {content : List UInt8}
    {world : World} (happ : Appended path content before world)
    (hlimit : (content ++ (chunks.map Prod.snd).flatten).length ≤ 4173824)
    (hfits : blockCount (content ++ (chunks.map Prod.snd).flatten).length +
      1 ≤ freeCount (before.disk 1) before.disk.diskSize) :
    ∃ world', serve (appendRequests path content.length chunks) world =
        some (chunks.map fun chunk => .ok (.code chunk.2.length), world') ∧
      Appended path (content ++ (chunks.map Prod.snd).flatten) before
        world' := by
  induction chunks generalizing content world with
  | nil =>
      refine ⟨world, rfl, ?_⟩
      rw [List.map_nil, List.flatten_nil, List.append_nil]
      exact happ
  | cons head chunks ih =>
      obtain ⟨ctx, chunk⟩ := head
      have hcons : (((ctx, chunk) :: chunks).map Prod.snd).flatten =
          chunk ++ (chunks.map Prod.snd).flatten := rfl
      rw [hcons, ← List.append_assoc] at hlimit hfits ⊢
      have hle := (List.prefix_append (content ++ chunk)
        (chunks.map Prod.snd).flatten).length_le
      have hmono := blockCount_mono hle
      have hsum : content.length + chunk.length =
          (content ++ chunk).length := List.length_append.symm
      have hchunk : chunk ≠ [] := hchunks (ctx, chunk) List.mem_cons_self
      obtain ⟨world₁, hrun, happ₁⟩ := happ.step ctx hchunk (by omega)
        (by rw [hsum]; omega)
      obtain ⟨world₂, hserve, happ₂⟩ := ih
        (fun chunk hmem => hchunks chunk (List.mem_cons_of_mem _ hmem))
        happ₁ hlimit hfits
      refine ⟨world₂, ?_, happ₂⟩
      rw [appendRequests, hsum]
      have hperform : run (Request.perform
          ⟨ctx, .write path chunk content.length⟩) world =
            some (.ok (.code chunk.length), world₁) := run_bind_ok hrun
      rw [serve_cons _ hperform, hserve]
      rfl

/-- A file at `path` that holds `bytes`, and whose blocks are the only ones
that are marked besides those of `before`. -/
structure FreshFile (path : CString) (bytes : List UInt8)
    (before world : World) : Prop where
  found : ∃ inum inode,
    run (pathToInode path 0) world = some (.ok (inum, inode), world) ∧
    sIsReg inode.mode = true ∧ inode.size.toInt = bytes.length
  content : ∀ o len : Nat, 1 ≤ len → o + len ≤ bytes.length →
    run (fsRead path len o) world =
      some (.ok ((len : Int), (bytes.drop o).take len), world)
  kept : ∀ b, Marked (before.disk 1) b → Marked (world.disk 1) b
  taken : freeCount (world.disk 1) world.disk.diskSize +
    (blockCount bytes.length + 1) =
      freeCount (before.disk 1) before.disk.diskSize
  statVfs : world.globals.statVfs = { before.globals.statVfs with
    bfree := before.globals.statVfs.bfree -
      .ofNat (blockCount bytes.length + 1)
    bavail := before.globals.statVfs.bavail -
      .ofNat (blockCount bytes.length + 1) }

theorem Appended.freshFile {before world : World} {path : CString}
    {content : List UInt8} (happ : Appended path content before world) :
    FreshFile path content before world := by
  have hmount := happ.toSteady.toMounted
  obtain ⟨site, inum, hresolve, hreg, hlength, hcontent⟩ := happ.file
  have hobject := hmount.consistent.object _ _ _
    (Disk.node_of_resolve hresolve)
  refine ⟨⟨_, _, hmount.run_target hresolve, hreg, ?_⟩, ?_, happ.kept,
    happ.count, ?_⟩
  · rw [hobject.size_eq, hlength]
  · intro o len hlen hfits
    rw [hmount.run_fsRead_inside hresolve hreg hlen (by omega), hcontent]
  · rw [happ.statVfs]
    simp only [Globals.addFree, addFree_neg]

/-- Chunks written one after the other to a new file leave what a single
write leaves. -/
theorem append_chunks {world : World} (hreach : Reachable world)
    {ctx : Context} {path : CString} (hne : components path ≠ [])
    {mode : UInt32} (hmode : mode &&& sIfmt = sIfreg) {start : World}
    (hcreate : run (fsCreate ctx path mode) world = some (.ok 0, start))
    {chunks : List (Context × List UInt8)} (hsome : chunks ≠ [])
    (hchunks : ∀ chunk ∈ chunks, chunk.2 ≠ []) {whole : List UInt8}
    (hwhole : (chunks.map Prod.snd).flatten = whole)
    (hlimit : whole.length ≤ 1019 * 4096)
    (hfits : blockCount whole.length + 1 ≤
      freeCount (world.disk 1) world.disk.diskSize) (ctx' : Context) :
    ∃ parts single,
      serve (appendRequests path 0 chunks) start =
        some (chunks.map fun chunk => .ok (.code chunk.2.length), parts) ∧
      run (fsWrite ctx' path whole 0) start =
        some (.ok (whole.length : Int), single) ∧
      FreshFile path whole world parts ∧ FreshFile path whole world single ∧
      parts.globals.statVfs = single.globals.statVfs := by
  have hnew := hreach.steady.appended_nil hne hmode hcreate
  have hpos : whole ≠ [] := by
    obtain ⟨chunk, hmem⟩ := List.exists_mem_of_ne_nil chunks hsome
    rintro rfl
    exact hchunks chunk hmem (List.flatten_eq_nil_iff.mp hwhole _
      (List.mem_map_of_mem hmem))
  obtain ⟨parts, hserve, hparts⟩ := hnew.serve hchunks
    (by rw [hwhole]; exact hlimit) (by rw [hwhole]; exact hfits)
  obtain ⟨single, hrun, hsingle⟩ := hnew.step ctx' hpos
    (by rw [List.length_nil, Nat.zero_add]; exact hlimit)
    (by rw [List.length_nil, Nat.zero_add]; exact hfits)
  rw [hwhole] at hparts
  exact ⟨parts, single, hserve, hrun, hparts.freshFile, hsingle.freshFile,
    hparts.statVfs.trans hsingle.statVfs.symm⟩

/-- Two chunks, of 3 and 2 bytes, for a new `c` of the sample. -/
theorem append_chunks_sample : ∃ start,
    run (fsCreate Sample.context Sample.pathC 0o100644)
        (Sample.world 40 zeroBlock).boot = some (.ok 0, start) ∧
    ∃ parts single,
      serve (appendRequests Sample.pathC 0
          [(Sample.context, [1, 2, 3]), (Sample.context, [4, 5])]) start =
        some ([.ok (.code 3), .ok (.code 2)], parts) ∧
      run (fsWrite Sample.context Sample.pathC [1, 2, 3, 4, 5] 0) start =
        some (.ok 5, single) ∧
      FreshFile Sample.pathC [1, 2, 3, 4, 5]
        (Sample.world 40 zeroBlock).boot parts ∧
      FreshFile Sample.pathC [1, 2, 3, 4, 5]
        (Sample.world 40 zeroBlock).boot single ∧
      parts.globals.statVfs = single.globals.statVfs := by
  have hreply : (run (fsCreate Sample.context Sample.pathC 0o100644)
      (Sample.world 40 zeroBlock).boot).map Prod.fst = some (.ok 0) := by
    decide +kernel
  obtain ⟨⟨reply, start⟩, hrun, hok⟩ := Option.map_eq_some_iff.mp hreply
  rw [show reply = .ok 0 from hok] at hrun
  have hchunks : ∀ chunk ∈ [(Sample.context, [1, 2, 3]),
      (Sample.context, ([4, 5] : List UInt8))], chunk.2 ≠ [] := by
    simp
  have hfits : blockCount [1, 2, 3, 4, 5].length + 1 ≤
      freeCount ((Sample.world 40 zeroBlock).boot.disk 1)
        (Sample.world 40 zeroBlock).boot.disk.diskSize := by
    decide +kernel
  exact ⟨start, hrun, append_chunks
    (Sample.reachable 40 zeroBlock (by decide) (by decide)) (by decide)
    (by decide) hrun (List.cons_ne_nil _ _) hchunks rfl (by decide) hfits
    Sample.context⟩

end Fs5600
