/-
A change that stops between two of its writes: it has been made, it has not
been made, or, if it is a write, some of its data blocks are missing.
-/
import Fs5600.Faults
import Fs5600.TreeChange

namespace Fs5600

open MachineWord EffectProgram Program NameTree

/-- All marked blocks but the bitmap are as they were, and no mark is
missing. -/
structure Disk.Keeps (disk disk' : Disk) : Prop where
  block : ∀ b, Marked (disk 1) b → b ≠ 1 → disk' b = disk b
  mark : ∀ b, Marked (disk 1) b → Marked (disk' 1) b

theorem Disk.Keeps.refl (disk : Disk) : disk.Keeps disk :=
  ⟨fun _ _ _ => rfl, fun _ => id⟩

section

variable {disk disk' : Disk} {size : Nat} (hcons : Consistent disk size)
  (hkeeps : disk.Keeps disk')

include hcons hkeeps

theorem Consistent.rootRewrite :
    Disk.InodeRewrite disk disk' [] [] 2 := by
  have hinode : disk'.inode 2 = disk.inode 2 :=
    Disk.inode_congr
      (hkeeps.block 2 (hcons.reserved 2 (by omega)) (by omega))
  exact hcons.inodeRewrite Disk.node_nil
    (fun b hmarked hone _ _ => hkeeps.block b hmarked hone)
    (congrArg FsInode.isDir hinode)
    (fun _ => congrArg (fun inode => FsInode.ptr inode 0) hinode)

theorem Consistent.keeps_inode {path : List Slot} {names : List Name}
    {i : Nat} (hnode : disk.node path = some (names, i)) :
    disk'.inode i = disk.inode i := by
  obtain ⟨hlow, -, hmarked⟩ := hcons.range _ _ (Disk.holder_inode hnode)
  exact Disk.inode_congr (hkeeps.block i hmarked (by omega))

/-- What keeps the marked blocks of a consistent image is consistent. -/
theorem Consistent.of_keeps : Consistent disk' size := by
  have hrw := hcons.rootRewrite hkeeps
  have hholder := hcons.holder_congr hkeeps.block
  have hinode := hcons.keeps_inode hkeeps Disk.node_nil
  have hsize : disk'.diskSize = disk.diskSize := by
    rw [Disk.diskSize, Disk.superblock,
      hkeeps.block 0 (hcons.reserved 0 (by omega)) (by omega)]
    rfl
  refine ⟨hsize.trans_le hcons.size_le, hsize.trans_le hcons.size_fits,
    fun b hb => hkeeps.mark b (hcons.reserved b hb), ?_,
    hrw.object hcons ?_, ?_, ?_⟩
  · rw [hinode]
    exact hcons.root_dir
  · exact (hcons.object _ _ _ Disk.node_nil).congr hinode
      (hrw.entries_eq Disk.node_nil)
  · intro key b hheld
    rw [hholder] at hheld
    obtain ⟨hlow, hhigh, hmarked⟩ := hcons.range key b hheld
    rw [hsize]
    exact ⟨hlow, hhigh, hkeeps.mark b hmarked⟩
  · rw [hholder]
    exact hcons.exclusive

theorem Consistent.keeps_object {path : List Slot} {names : List Name}
    {i : Nat} (hnode : disk.node path = some (names, i)) :
    disk'.object i = disk.object i := by
  have hinode := hcons.keeps_inode hkeeps hnode
  by_cases hdir : (disk.inode i).isDir = true
  · rw [Disk.object_of_isDir hdir,
      Disk.object_of_isDir (by rw [hinode, hdir]), hinode]
  · have hreg := (hcons.object _ _ _ hnode).isReg_of_not_isDir hdir
    rw [Disk.object_of_not_isDir hdir,
      Disk.object_of_not_isDir (by rw [hinode]; exact hdir), hinode]
    refine congrArg _ (fileContent_congr rfl fun k hk => ?_)
    obtain ⟨hlow, -, hmarked⟩ :=
      hcons.range _ _ (Disk.holder_data hnode hreg hk)
    exact hkeeps.block _ hmarked (by omega)

/-- It shows the same tree. -/
theorem Consistent.keeps_tree : disk'.tree = disk.tree := by
  have hcons' := hcons.of_keeps hkeeps
  have hrw := hcons.rootRewrite hkeeps
  funext names
  refine Option.ext fun object => ?_
  rw [hcons.tree_eq_some, hcons'.tree_eq_some]
  constructor
  · rintro ⟨path, i, hnode, rfl⟩
    rw [hrw.node_eq] at hnode
    exact ⟨path, i, hnode, (hcons.keeps_object hkeeps hnode).symm⟩
  · rintro ⟨path, i, hnode, rfl⟩
    refine ⟨path, i, ?_, hcons.keeps_object hkeeps hnode⟩
    rw [hrw.node_eq]
    exact hnode

end

/-! Where a change stops. -/

section

variable {world : World} (hmount : Mounted world) {names : List Name}
  {change : Change} {front back : List Effect} {b : Nat} {buf : Block}
  (hvalid : change.Valid world names)

include hmount hvalid

/-- Nothing but free blocks and the bitmap is written yet. -/
theorem Change.keeps_before (heffects : change.effects world = front ++ back)
    (hkept : change.released world.disk = [])
    (hunpublished : ∀ b' buf', Effect.write b' buf' ∈ front →
      b' = 1 ∨ ¬ Marked (world.disk 1) b') :
    world.disk.Keeps (applyAll front world).disk := by
  have hstores := Change.storesMap hmount hvalid
  rw [heffects] at hstores
  refine ⟨fun b hmarked hone => ?_, fun b hmarked => ?_⟩
  · refine applyAll_disk_of_notMem fun buf hmem => ?_
    rcases hunpublished b buf hmem with heq | hfree
    · exact hone heq
    · exact hfree hmarked
  · rcases (hstores.front.applyAll world).1 with hdisk | hdisk <;> rw [hdisk]
    · exact hmarked
    · rw [Change.marked_map hmount hvalid, hkept]
      exact ⟨List.not_mem_nil, Or.inr hmarked⟩

/-- Nothing but the bitmap is left to be written. -/
theorem Change.keeps_after (heffects : change.effects world = front ++ back)
    (htaken : change.taken = [])
    (hlast : ∀ b' buf', Effect.write b' buf' ∈ back → b' = 1) :
    (change.apply world).disk.Keeps (applyAll front world).disk := by
  have hstores := Change.storesMap hmount hvalid
  rw [heffects] at hstores
  have hall : change.apply world = applyAll back (applyAll front world) := by
    rw [Change.apply, heffects, applyAll_append]
  refine ⟨fun b _ hone => ?_, fun b hmarked => ?_⟩
  · rw [hall]
    exact (applyAll_disk_of_notMem fun buf hmem =>
      hone (hlast b buf hmem)).symm
  · rw [Change.apply_bitmap hmount hvalid] at hmarked
    rcases (hstores.front.applyAll world).1 with hdisk | hdisk <;> rw [hdisk]
    · rw [Change.marked_map hmount hvalid, htaken] at hmarked
      rcases hmarked.2 with hnew | hold
      · cases hnew
      · exact hold
    · exact hmarked

/-- The changes that store file data. -/
def Change.Stores : Change → Prop
  | .write _ _ _ _ _ _ => True
  | _ => False

/-- A change that stores no file data stops as nothing or as a whole, unless
it enters an object and has written its entry. -/
theorem Change.keeps_cases
    (heffects : change.effects world = front ++ .write b buf :: back)
    (henters : change.Enters → writeCount front < 2)
    (hstores : ¬ change.Stores) :
    world.disk.Keeps (applyAll front world).disk ∨
      (change.apply world).disk.Keeps (applyAll front world).disk := by
  have hstart : front = [] →
      world.disk.Keeps (applyAll front world).disk := by
    rintro rfl
    exact Disk.Keeps.refl _
  cases change with
  | attributes path inum inode =>
      rcases List.cons_eq_append_iff.mp heffects with ⟨hnil, -⟩ |
        ⟨rest, -, hrest⟩
      · exact Or.inl (hstart hnil)
      · simp at hrest
  | relabel path inum slot name =>
      rcases List.cons_eq_append_iff.mp heffects with ⟨hnil, -⟩ |
        ⟨rest, -, hrest⟩
      · exact Or.inl (hstart hnil)
      · simp at hrest
  | insert path inum slot name inode dirflag blocks =>
      have hok : InsertOk world names path inum slot name inode dirflag
        blocks := hvalid
      have hcount := henters trivial
      have horder := heffects
      rw [effects, List.append_assoc] at horder
      rcases List.cons_eq_append_iff.mp horder with ⟨hnil, -⟩ |
        ⟨rest, hfront, hrest⟩
      · exact Or.inl (hstart hnil)
      rcases List.cons_eq_append_iff.mp hrest with ⟨hnil, -⟩ |
        ⟨rest', hrest', -⟩
      · rw [hnil] at hfront
        refine Or.inl (Change.keeps_before hmount hvalid heffects rfl ?_)
        intro b' buf' hmem
        rw [hfront, List.mem_singleton, Effect.write.injEq] at hmem
        rw [hmem.1]
        exact Or.inr (hok.child_usable hmount).2.2
      · rw [hfront, hrest'] at hcount
        simp [writeCount, Effect.target, Disk.setEntry] at hcount
  | remove path inum slot blocks =>
      rcases List.cons_eq_append_iff.mp heffects with ⟨hnil, -⟩ |
        ⟨rest, hfront, hrest⟩
      · exact Or.inl (hstart hnil)
      · refine Or.inr (Change.keeps_after hmount hvalid heffects rfl ?_)
        intro b' buf' hmem
        have hmem' : Effect.write b' buf' ∈ rest ++ .write b buf :: back :=
          List.mem_append_right rest hmem
        rw [← hrest] at hmem'
        simp [markEffects] at hmem'
        exact hmem'.1
  | shrink path inum len =>
      rcases List.cons_eq_append_iff.mp heffects with ⟨hnil, -⟩ |
        ⟨rest, hfront, hrest⟩
      · exact Or.inl (hstart hnil)
      · refine Or.inr (Change.keeps_after hmount hvalid heffects rfl ?_)
        intro b' buf' hmem
        have hmem' : Effect.write b' buf' ∈ rest ++ .write b buf :: back :=
          List.mem_append_right rest hmem
        rw [← hrest] at hmem'
        simp [markEffects] at hmem'
        exact hmem'.1
  | write path inum offset data mtime fresh => exact absurd trivial hstores

end

/-! A write that stops among its data blocks. -/

/-- What a buffer has become in a file when the blocks behind some border
were not written: it starts as itself, and goes on as the file did. -/
structure Torn (content : List UInt8) (offset : Nat)
    (buf torn : List UInt8) : Prop where
  length : torn.length = buf.length
  split : ∃ n, (n = 0 ∨ buf.length ≤ n ∨ 4096 ∣ offset + n) ∧
    torn.take n = buf.take n ∧
    ∀ j, n ≤ j → offset + j < content.length → j < buf.length →
      torn[j]? = content[offset + j]?

/-- The effects of a write up to its first `n` data blocks. -/
def tornEffects (world : World) (inum offset : Nat) (buf : List UInt8)
    (mtime : UInt32) (fresh : List Nat) (n : Nat) : List Effect :=
  let old := world.disk.inode inum
  let inode := old.extend fresh (offset + buf.length) mtime
  (if fresh = [] then []
    else markEffects (bitSetAll world.globals.bitmap fresh)) ++
  .write inum inode.encode ::
    (dataEffects world.disk inode (blockCount old.length) offset buf).take n

section

variable {world : World} (hmount : Mounted world) {names : List Name}
  {path : List Slot} {inum offset : Nat} {buf : List UInt8}
  {fresh : List Nat} (hok : WriteOk world names path inum offset buf fresh)
  (mtime : UInt32) {n k : Nat}

omit hmount hok in
theorem mem_take_dataEffects {disk : Disk} {inode : FsInode}
    {count b : Nat} {block : Block} :
    Effect.write b block ∈
        (dataEffects disk inode count offset buf).take n ↔
      ∃ k, offset / 4096 ≤ k ∧ k < offset / 4096 + n ∧
        k < blockCount (offset + buf.length) ∧ b = inode.ptr k ∧
        block = mergedBlock disk inode count offset buf k := by
  have htake : ∀ start m, (List.range' start m).take n =
      List.range' start (min n m) := by
    intro start m
    rcases Nat.le_total n m with hle | hle
    · rw [List.take_range'_of_length_ge hle, Nat.min_eq_left hle]
    · rw [List.take_range'_of_length_le hle, Nat.min_eq_right hle]
  rw [dataEffects, ← List.map_take, htake, List.mem_map]
  constructor
  · rintro ⟨k, hk, heq⟩
    rw [List.mem_range'_1] at hk
    cases heq
    exact ⟨k, by omega, by omega, by omega, rfl, rfl⟩
  · rintro ⟨k, hlow, hn, hhigh, rfl, rfl⟩
    refine ⟨k, ?_, rfl⟩
    rw [List.mem_range'_1]
    omega

include hmount hok

/-- Every block of a written file is one of the file's or a free one. -/
theorem WriteOk.ptr_place
    (hk : k < max (blockCount (world.disk.inode inum).length)
      (blockCount (offset + buf.length))) :
    world.disk.holder (path, .data k) = some
      (((world.disk.inode inum).extend fresh (offset + buf.length)
        mtime).ptr k) ∨
    ¬ Marked (world.disk 1)
      (((world.disk.inode inum).extend fresh (offset + buf.length)
        mtime).ptr k) := by
  by_cases hnew : k < blockCount (offset + buf.length)
  · exact hok.ptr_cases hmount mtime hnew
  · have hold : k < blockCount (world.disk.inode inum).length := by omega
    rw [FsInode.extend_ptr _ _ _ _ (Or.inl hold)]
    exact Or.inl (Disk.holder_data hok.node hok.isReg hold)

theorem WriteOk.ptr_apart {k' : Nat}
    (hk : k < max (blockCount (world.disk.inode inum).length)
      (blockCount (offset + buf.length)))
    (hk' : k' < blockCount (offset + buf.length)) (hne : k ≠ k') :
    ((world.disk.inode inum).extend fresh (offset + buf.length) mtime).ptr k ≠
      ((world.disk.inode inum).extend fresh (offset + buf.length)
        mtime).ptr k' := by
  intro hsame
  by_cases hnew : k < blockCount (offset + buf.length)
  · exact hne (hok.ptr_inj hmount mtime hnew hk' hsame)
  · have hold : k < blockCount (world.disk.inode inum).length := by omega
    have hold' : k' < blockCount (world.disk.inode inum).length := by omega
    rw [FsInode.extend_ptr _ _ _ _ (Or.inl hold),
      FsInode.extend_ptr _ _ _ _ (Or.inl hold')] at hsame
    refine hmount.consistent.holder_ne
      (Disk.holder_data hok.node hok.isReg hold)
      (Disk.holder_data hok.node hok.isReg hold') ?_ hsame
    simpa using hne

/-- A data block that is not reached keeps its bytes. -/
theorem WriteOk.torn_kept
    (hk : k < max (blockCount (world.disk.inode inum).length)
      (blockCount (offset + buf.length)))
    (hout : k < offset / 4096 ∨ offset / 4096 + n ≤ k ∨
      blockCount (offset + buf.length) ≤ k) :
    (applyAll (tornEffects world inum offset buf mtime fresh n) world).disk
        (((world.disk.inode inum).extend fresh (offset + buf.length)
          mtime).ptr k) =
      world.disk (((world.disk.inode inum).extend fresh
        (offset + buf.length) mtime).ptr k) := by
  have hplace := hok.ptr_place hmount mtime hk
  have hone : ((world.disk.inode inum).extend fresh (offset + buf.length)
      mtime).ptr k ≠ 1 := by
    intro hone
    rcases hplace with hheld | hfree
    · have hlow := (hmount.consistent.range _ _ hheld).1
      omega
    · rw [hone] at hfree
      exact hfree (hmount.consistent.reserved 1 (by omega))
  have hinum : ((world.disk.inode inum).extend fresh (offset + buf.length)
      mtime).ptr k ≠ inum := by
    have hinode := Disk.holder_inode hok.node
    rcases hplace with hheld | hfree
    · exact hmount.consistent.holder_ne hheld hinode (by simp)
    · intro heq
      rw [heq] at hfree
      exact hfree (hmount.consistent.range _ _ hinode).2.2
  refine applyAll_disk_of_notMem fun block hmem => ?_
  rw [tornEffects, List.mem_append, List.mem_cons] at hmem
  rcases hmem with hmark | hinode | hdata
  · split at hmark
    · cases hmark
    · exact hone (mem_markEffects hmark).1
  · rw [Effect.write.injEq] at hinode
    exact hinum hinode.1
  · obtain ⟨k', hlow, hn, hhigh, hsame, -⟩ := mem_take_dataEffects.mp hdata
    exact hok.ptr_apart hmount mtime hk hhigh (by omega) hsame

/-- A data block that is reached is stored merged. -/
theorem WriteOk.torn_written (hlow : offset / 4096 ≤ k)
    (hn : k < offset / 4096 + n) (hhigh : k < blockCount (offset + buf.length))
    {back : List Effect}
    (heffects : Change.effects world
      (.write path inum offset buf mtime fresh) =
        tornEffects world inum offset buf mtime fresh n ++ back) :
    (applyAll (tornEffects world inum offset buf mtime fresh n) world).disk
        (((world.disk.inode inum).extend fresh (offset + buf.length)
          mtime).ptr k) =
      mergedBlock world.disk
        ((world.disk.inode inum).extend fresh (offset + buf.length) mtime)
        (blockCount (world.disk.inode inum).length) offset buf k := by
  have hvalid : Change.Valid world names
    (.write path inum offset buf mtime fresh) := hok
  have honce := Change.effects_once hmount hvalid
  rw [heffects] at honce
  refine applyAll_disk_of_once honce.front (List.mem_append_right _
    (List.mem_cons_of_mem _ (mem_take_dataEffects.mpr
      ⟨k, hlow, hn, hhigh, rfl, rfl⟩)))

/-- Every byte of a torn file is one of the buffer or lies where it lay. -/
theorem WriteOk.torn_byte {back : List Effect}
    (heffects : Change.effects world
      (.write path inum offset buf mtime fresh) =
        tornEffects world inum offset buf mtime fresh n ++ back) {p : Nat}
    (hp : p < max (world.disk.inode inum).length (offset + buf.length)) :
    blockByte (fun k =>
        (applyAll (tornEffects world inum offset buf mtime fresh n)
          world).disk (((world.disk.inode inum).extend fresh
            (offset + buf.length) mtime).ptr k)) p =
      if offset ≤ p ∧ p < offset + buf.length ∧
          p / 4096 < offset / 4096 + n then buf.getD (p - offset) 0
      else blockByte (fun k => world.disk (((world.disk.inode inum).extend
        fresh (offset + buf.length) mtime).ptr k)) p := by
  have hinside := hok.inside
  have hplace : 4096 * (p / 4096) + p % 4096 = p := by omega
  have hmax : p / 4096 < max (blockCount (world.disk.inode inum).length)
      (blockCount (offset + buf.length)) := by
    rw [blockCount, blockCount]
    omega
  rw [blockByte]
  by_cases hin : offset / 4096 ≤ p / 4096 ∧ p / 4096 < offset / 4096 + n ∧
      p / 4096 < blockCount (offset + buf.length)
  · rw [hok.torn_written hmount mtime hin.1 hin.2.1 hin.2.2 heffects,
      mergedBlock]
    simp only [hplace, hin.2.1, and_true]
    split
    · rfl
    next hout =>
      have hpold : p < (world.disk.inode inum).length := by omega
      have hold : p / 4096 < blockCount (world.disk.inode inum).length :=
        lt_blockCount.mpr (by omega)
      have hedge : (p / 4096 = offset / 4096 ∧
            0 < blockCount (world.disk.inode inum).length) ∨
          (p / 4096 = (offset + buf.length - 1) / 4096 ∧
            1 < blockCount (world.disk.inode inum).length) := by
        have hlast := blockCount_eq_succ offset hok.nonempty
        omega
      rw [if_pos hedge, blockByte]
  · have hlast := blockCount_eq_succ offset hok.nonempty
    rw [hok.torn_kept hmount mtime hmax (by omega), if_neg (by omega),
      blockByte]

/-- A torn file is the file that a write of the torn buffer leaves. -/
theorem WriteOk.torn_content {back : List Effect}
    (heffects : Change.effects world
      (.write path inum offset buf mtime fresh) =
        tornEffects world inum offset buf mtime fresh n ++ back) :
    ∃ torn, Torn (fileContent world.disk (world.disk.inode inum)) offset
        buf torn ∧
      fileContent
          (applyAll (tornEffects world inum offset buf mtime fresh n)
            world).disk
          ((world.disk.inode inum).extend fresh (offset + buf.length)
            mtime) =
        (fileContent world.disk (world.disk.inode inum)).take offset ++
          torn ++ (fileContent world.disk (world.disk.inode inum)).drop
            (offset + buf.length) := by
  have hobject := hmount.consistent.object _ _ _ hok.node
  have hinside := hok.inside
  have hlimit := hok.limit
  have hlength := FsInode.extend_length (world.disk.inode inum) fresh
    (offset + buf.length) mtime (hobject.size_range hok.isReg).1 (by omega)
  have hbyte := fun p hp =>
    hok.torn_byte hmount mtime heffects (p := p) hp
  have hold : ∀ p, p < (world.disk.inode inum).length →
      blockByte (fun k => world.disk (((world.disk.inode inum).extend fresh
        (offset + buf.length) mtime).ptr k)) p =
      blockByte (fun k => world.disk ((world.disk.inode inum).ptr k)) p := by
    intro p hp
    have hk : p / 4096 < blockCount (world.disk.inode inum).length :=
      lt_blockCount.mpr (by omega)
    rw [blockByte, blockByte, FsInode.extend_ptr _ _ _ _ (Or.inl hk)]
  refine ⟨(List.range' offset buf.length).map (blockByte fun k =>
    (applyAll (tornEffects world inum offset buf mtime fresh n) world).disk
      (((world.disk.inode inum).extend fresh (offset + buf.length)
        mtime).ptr k)), ⟨?_, ?_⟩, ?_⟩
  · rw [List.length_map, List.length_range']
  · refine ⟨4096 * (offset / 4096 + n) - offset, by omega, ?_, ?_⟩
    · refine List.ext_getElem? fun j => ?_
      rw [List.getElem?_take, List.getElem?_take]
      split
      · next hj =>
          by_cases hlt : j < buf.length
          · rw [List.getElem?_map, List.getElem?_range' hlt, Option.map_some,
              hbyte _ (by omega), if_pos (by omega),
              List.getElem?_eq_getElem hlt, Nat.one_mul,
              Nat.add_sub_cancel_left, List.getD_eq_getElem _ _ hlt]
          · rw [List.getElem?_eq_none (by simpa using hlt),
              List.getElem?_eq_none (by simpa using hlt)]
      · rfl
    · intro j hj hinside' hlt
      rw [length_fileContent] at hinside'
      rw [List.getElem?_map, List.getElem?_range' hlt, Option.map_some,
        Nat.one_mul, hbyte _ (by omega), if_neg (by omega),
        hold _ hinside', fileContent, List.getElem?_map,
        List.getElem?_range hinside', Option.map_some]
  · have hsplit : List.range (max (world.disk.inode inum).length
        (offset + buf.length)) =
        List.range' 0 offset ++ List.range' offset buf.length ++
          List.range' (offset + buf.length)
            ((world.disk.inode inum).length - (offset + buf.length)) := by
      have hmax : max (world.disk.inode inum).length (offset + buf.length) =
          offset + buf.length +
            ((world.disk.inode inum).length - (offset + buf.length)) := by
        omega
      rw [List.range_eq_range', hmax, ← List.range'_append_1,
        ← List.range'_append_1, Nat.zero_add, Nat.zero_add]
    rw [fileContent, hlength, hsplit, List.map_append, List.map_append]
    congr 1
    · congr 1
      rw [fileContent, ← List.map_take, List.take_range,
        Nat.min_eq_left hinside, List.range_eq_range']
      refine List.map_congr_left fun p hp => ?_
      rw [List.mem_range'_1] at hp
      rw [hbyte p (by omega), if_neg (by omega), hold p (by omega)]
    · rw [fileContent, ← List.map_drop, List.range_eq_range',
        List.drop_range', Nat.mul_one, Nat.zero_add]
      refine List.map_congr_left fun p hp => ?_
      rw [List.mem_range'_1] at hp
      rw [hbyte p (by omega), if_neg (by omega), hold p (by omega)]

/-- The blocks of other files are left alone. -/
theorem WriteOk.torn_other {back : List Effect}
    (heffects : Change.effects world
      (.write path inum offset buf mtime fresh) =
        tornEffects world inum offset buf mtime fresh n ++ back)
    {path' : List Slot} {names' : List Name} {j : Nat}
    (hnode : world.disk.node path' = some (names', j))
    (hother : path' ≠ path) :
    (applyAll (tornEffects world inum offset buf mtime fresh n)
      world).disk.object j = world.disk.object j := by
  have hvalid : Change.Valid world names
    (.write path inum offset buf mtime fresh) := hok
  have hkept : ∀ {role : Role} {b : Nat},
      world.disk.holder (path', role) = some b →
      (applyAll (tornEffects world inum offset buf mtime fresh n)
        world).disk b = world.disk b := by
    intro role b hheld
    obtain ⟨hlow, -, hmarked⟩ := hmount.consistent.range _ _ hheld
    refine applyAll_disk_of_notMem fun block hmem => ?_
    have hall : Effect.write b block ∈ Change.effects world
        (.write path inum offset buf mtime fresh) := by
      rw [heffects]
      exact List.mem_append_left _ hmem
    rcases Change.mem_effects hmount hvalid hall with
      heq | (heq | ⟨k, hdata⟩) | hfree
    · omega
    · rw [heq] at hheld
      exact hother (congrArg Prod.fst (hmount.consistent.exclusive _ _ _
        hheld (Disk.holder_inode hok.node)))
    · exact hother (congrArg Prod.fst
        (hmount.consistent.exclusive _ _ _ hheld hdata))
    · exact hfree hmarked
  have hinode := Disk.inode_congr (hkept (Disk.holder_inode hnode))
  by_cases hdir : (world.disk.inode j).isDir = true
  · rw [Disk.object_of_isDir hdir,
      Disk.object_of_isDir (by rw [hinode, hdir]), hinode]
  · have hreg :=
      (hmount.consistent.object _ _ _ hnode).isReg_of_not_isDir hdir
    rw [Disk.object_of_not_isDir hdir,
      Disk.object_of_not_isDir (by rw [hinode]; exact hdir), hinode]
    exact congrArg _ (fileContent_congr rfl fun k hk =>
      hkept (Disk.holder_data hnode hreg hk))

theorem WriteOk.torn_bitmap {back : List Effect}
    (heffects : Change.effects world
      (.write path inum offset buf mtime fresh) =
        tornEffects world inum offset buf mtime fresh n ++ back) :
    (applyAll (tornEffects world inum offset buf mtime fresh n)
      world).disk 1 =
      Change.map world.disk (.write path inum offset buf mtime fresh) := by
  have hvalid : Change.Valid world names
    (.write path inum offset buf mtime fresh) := hok
  have hmarks : Change.map world.disk
      (.write path inum offset buf mtime fresh) =
        bitSetAll world.globals.bitmap fresh := by
    rw [hmount.bitmap]
    rfl
  by_cases hfresh : fresh = []
  · have hstores := Change.storesMap hmount hvalid
    rw [heffects] at hstores
    rcases (hstores.front.applyAll world).1 with hdisk | hdisk
    · rw [hdisk, hmarks, hfresh, hmount.bitmap]
      rfl
    · exact hdisk
  · have honce := Change.effects_once hmount hvalid
    rw [heffects] at honce
    rw [hmarks]
    refine applyAll_disk_of_once honce.front (List.mem_append_left _ ?_)
    rw [if_neg hfresh]
    exact List.mem_cons_of_mem _ List.mem_cons_self

/-- A write that stops among its data blocks leaves a consistent image, and
the tree that a write of some torn buffer leaves. -/
theorem WriteOk.torn {back : List Effect}
    (heffects : Change.effects world
      (.write path inum offset buf mtime fresh) =
        tornEffects world inum offset buf mtime fresh n ++ back) :
    Consistent (applyAll (tornEffects world inum offset buf mtime fresh n)
        world).disk world.device.size ∧
      ∃ torn, Torn (fileContent world.disk (world.disk.inode inum)) offset
          buf torn ∧
        (applyAll (tornEffects world inum offset buf mtime fresh n)
          world).disk.tree =
          put world.disk.tree names
            (.leaf { (world.disk.inode inum).attributes with mtime := mtime }
              ((fileContent world.disk (world.disk.inode inum)).take offset ++
                torn ++ (fileContent world.disk
                  (world.disk.inode inum)).drop (offset + buf.length))) := by
  have hvalid : Change.Valid world names
    (.write path inum offset buf mtime fresh) := hok
  have hshows := Change.shows hmount hvalid heffects (by
    rw [Change.published]
    exact List.cons_subset.mpr
      ⟨List.mem_append_right _ List.mem_cons_self, List.nil_subset _⟩)
  have hcons' := Change.consistent hmount hvalid hshows
    (hok.torn_bitmap hmount mtime heffects)
  have hrw := Change.inodeRewrite hmount hvalid hshows rfl
  have hinode := hshows.inode _ _ _ rfl
  obtain ⟨torn, htorn, hcontent⟩ := hok.torn_content hmount mtime heffects
  refine ⟨hcons', torn, htorn, ?_⟩
  refine Disk.tree_eq_put hmount.consistent hcons' ?_ ?_ ?_
  · have hself := hok.node
    rw [← hrw.node_eq] at hself
    have hdir : ¬ ((world.disk.inode inum).extend fresh
        (offset + buf.length) mtime).isDir = true :=
      Bool.eq_false_iff.mp (sIsDir_of_sIsReg hok.isReg)
    rw [hcons'.tree_of_node hself,
      Disk.object_of_not_isDir (by rw [hinode]; exact hdir), hinode,
      hcontent]
    rfl
  · intro path' names' j _
    rw [hrw.node_eq]
  · intro path' names' j hne hnode
    refine hok.torn_other hmount mtime heffects hnode ?_
    rintro rfl
    rw [hok.node] at hnode
    cases hnode
    exact hne rfl

/-- A write has stored at most its bitmap when it stops, or its inode and some
data blocks. -/
theorem WriteOk.stop_cases {front back : List Effect} {b : Nat}
    {block : Block}
    (heffects : Change.effects world
      (.write path inum offset buf mtime fresh) =
        front ++ .write b block :: back) :
    world.disk.Keeps (applyAll front world).disk ∨
      ∃ n, front = tornEffects world inum offset buf mtime fresh n := by
  have hvalid : Change.Valid world names
    (.write path inum offset buf mtime fresh) := hok
  have hmarking : (∀ b' buf', Effect.write b' buf' ∈ front → b' = 1) →
      world.disk.Keeps (applyAll front world).disk := fun hone =>
    Change.keeps_before hmount hvalid heffects rfl
      fun b' buf' hmem => Or.inl (hone b' buf' hmem)
  have hmarks : ∀ b' buf', Effect.write b' buf' ∈
      (if fresh = [] then []
        else markEffects (bitSetAll world.globals.bitmap fresh)) →
      b' = 1 := by
    intro b' buf' hmem
    split at hmem
    · cases hmem
    · exact (mem_markEffects hmem).1
  have horder := heffects
  rw [Change.effects, List.append_assoc] at horder
  rcases List.append_eq_append_iff.mp horder with
    ⟨rest, hfront, hrest⟩ | ⟨rest, hpart, -⟩
  · rcases List.cons_eq_append_iff.mp hrest with ⟨hnil, -⟩ |
      ⟨tail, htail, hdata⟩
    · rw [hnil, List.append_nil] at hfront
      rw [hfront]
      refine Or.inl (hfront ▸ hmarking fun b' buf' hmem => ?_)
      rw [hfront] at hmem
      exact hmarks b' buf' hmem
    · refine Or.inr ⟨tail.length, ?_⟩
      rw [hfront, htail, tornEffects]
      congr 2
      rcases List.append_eq_append_iff.mp hdata with
        ⟨more, htail', hmore⟩ | ⟨more, hall, -⟩
      · exfalso
        rcases List.cons_eq_append_iff.mp hmore with ⟨hnil, heq⟩ |
          ⟨_, -, heq⟩
        · cases heq
        · simp at heq
      · rw [hall, List.take_left]
  · refine Or.inl (hmarking fun b' buf' hmem => hmarks b' buf' ?_)
    rw [hpart]
    exact List.mem_append_left _ hmem

end

end Fs5600
