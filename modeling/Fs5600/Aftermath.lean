/-
The world after a planned change: which blocks it has written and what they
hold, and that the ownership of blocks has passed on as the change says.
-/
import Fs5600.Ownership

namespace Fs5600

open MachineWord LabelledWalk

/-- The world after a change on a device that does not fail. -/
def Change.apply (change : Change) (world : World) : World :=
  applyAll (change.effects world) world

/-- The blocks that a change takes into use. -/
def Change.taken : Change → List Nat
  | .insert _ _ _ _ _ _ blocks => blocks
  | .write _ _ _ _ _ fresh => fresh
  | _ => []

/-- The blocks that a change gives back. -/
def Change.released (disk : Disk) : Change → List Nat
  | .remove _ _ _ blocks => blocks
  | .shrink _ inum len => (disk.inode inum).dropped len
  | _ => []

/-- The bitmap after a change. -/
def Change.map (disk : Disk) (change : Change) : Block :=
  bitClearAll (bitSetAll (disk 1) change.taken) (change.released disk)

/-- The keys under which nothing is held any more. -/
def Change.dropped : Change → List Slot × Role → Prop
  | .remove path _ slot _, key => path ++ [slot] <+: key.1
  | .shrink path _ len, key =>
      key.1 = path ∧ Role.Beyond (blockCount len) key.2
  | _, _ => False

/-- What is newly held under a key. -/
def Change.gained (disk : Disk) : Change → List Slot × Role → Option Nat
  | .insert path _ slot _ inode _ blocks, key =>
      if key.1 = path ++ [slot] then inode.owned (blocks.getD 0 0) key.2
      else none
  | .write path inum _ _ _ fresh, key =>
      if key.1 = path then
        freshRole (blockCount (disk.inode inum).length) fresh key.2
      else none
  | _, _ => none

/-- The marked blocks, besides the bitmap, that a change writes. -/
def Change.Rewrites (disk : Disk) (b : Nat) : Change → Prop
  | .attributes path inum _ | .shrink path inum _
  | .write path inum _ _ _ _ =>
      b = inum ∨ ∃ k, disk.holder (path, .data k) = some b
  | .relabel _ inum _ _ | .insert _ inum _ _ _ _ _ | .remove _ inum _ _ =>
      b = (disk.inode inum).ptr 0

section

variable {world : World} (hmount : Mounted world) {names : List Name}
  {change : Change}

theorem mem_dataEffects {disk : Disk} {inode : FsInode}
    {count offset : Nat} {buf : List UInt8} {b : Nat} {block : Block}
    (hmem : Effect.write b block ∈
      dataEffects disk inode count offset buf) :
    ∃ k, k < blockCount (offset + buf.length) ∧ b = inode.ptr k ∧
      block = mergedBlock disk inode count offset buf k := by
  obtain ⟨k, hk, heq⟩ := List.mem_map.mp hmem
  rw [List.mem_range'_1] at hk
  cases heq
  exact ⟨k, by omega, rfl, rfl⟩

theorem mem_markEffects {map : Block} {b : Nat} {buf : Block}
    (hmem : Effect.write b buf ∈ markEffects map) : b = 1 ∧ buf = map := by
  simpa [markEffects] using hmem

theorem WriteOk.blockCount_le {path : List Slot} {inum offset : Nat}
    {buf : List UInt8} {fresh : List Nat}
    (hok : WriteOk world names path inum offset buf fresh) :
    blockCount (offset + buf.length) ≤ 1019 := by
  have hlimit := hok.limit
  rw [blockCount]
  omega

include hmount

/-- A pointer of a written file leads to a block of the file or to a free
one. -/
theorem WriteOk.ptr_cases {path : List Slot} {inum offset : Nat}
    {buf : List UInt8} {fresh : List Nat}
    (hok : WriteOk world names path inum offset buf fresh) (mtime : UInt32)
    {k : Nat} (hk : k < blockCount (offset + buf.length)) :
    world.disk.holder (path, .data k) = some
      (((world.disk.inode inum).extend fresh (offset + buf.length)
        mtime).ptr k) ∨
    ¬ Marked (world.disk 1)
      (((world.disk.inode inum).extend fresh (offset + buf.length)
        mtime).ptr k) := by
  rcases hmount.extend_ptr_cases hok.blockCount_le hok.fresh mtime hk
    with ⟨hold, heq⟩ | hmem
  · rw [heq]
    exact Or.inl (Disk.holder_data hok.node hok.isReg hold)
  · exact Or.inr (hmount.usable_of_lowestFree hok.fresh _ hmem).2.2

/-- Behind its own blocks a written file has the fresh ones. -/
theorem WriteOk.ptr_fresh {path : List Slot} {inum offset : Nat}
    {buf : List UInt8} {fresh : List Nat}
    (hok : WriteOk world names path inum offset buf fresh) (mtime : UInt32)
    {j : Nat} (hj : j < fresh.length) :
    ((world.disk.inode inum).extend fresh (offset + buf.length) mtime).ptr
      (blockCount (world.disk.inode inum).length + j) = fresh[j] := by
  have hlength := (lowestFree_eq_some hok.fresh).1
  have hcount := hok.blockCount_le
  have husable := hmount.usable_of_lowestFree hok.fresh fresh[j]
    (List.getElem_mem hj)
  have hsize := hmount.consistent.size_le
  exact FsInode.extend_ptr_fresh _ _ _ _ hj (by omega) (by omega)

/-- No two pointers of a written file lead to the same block. -/
theorem WriteOk.ptr_inj {path : List Slot} {inum offset : Nat}
    {buf : List UInt8} {fresh : List Nat}
    (hok : WriteOk world names path inum offset buf fresh) (mtime : UInt32)
    {k k' : Nat} (hk : k < blockCount (offset + buf.length))
    (hk' : k' < blockCount (offset + buf.length))
    (hsame : ((world.disk.inode inum).extend fresh (offset + buf.length)
      mtime).ptr k = ((world.disk.inode inum).extend fresh
        (offset + buf.length) mtime).ptr k') : k = k' := by
  obtain ⟨hlength, hnodup, -⟩ := lowestFree_eq_some hok.fresh
  have hmix : ∀ {m m' : Nat}, m < blockCount (offset + buf.length) →
      m < blockCount (world.disk.inode inum).length →
      m' < blockCount (offset + buf.length) →
      blockCount (world.disk.inode inum).length ≤ m' →
      ((world.disk.inode inum).extend fresh (offset + buf.length)
        mtime).ptr m ≠ ((world.disk.inode inum).extend fresh
          (offset + buf.length) mtime).ptr m' := by
    intro m m' hm hold hm' hnew heq
    obtain ⟨j, rfl⟩ := Nat.exists_eq_add_of_le hnew
    have hj : j < fresh.length := by omega
    rw [hok.ptr_fresh hmount mtime hj,
      FsInode.extend_ptr _ _ _ _ (Or.inl hold)] at heq
    have hfree := hmount.usable_of_lowestFree hok.fresh fresh[j]
      (List.getElem_mem hj)
    have hheld := hmount.consistent.range _ _
      (Disk.holder_data hok.node hok.isReg hold)
    exact hfree.2.2 (heq ▸ hheld.2.2)
  rcases Nat.lt_or_ge k (blockCount (world.disk.inode inum).length)
    with hold | hnew
  · rcases Nat.lt_or_ge k' (blockCount (world.disk.inode inum).length)
      with hold' | hnew'
    · rw [FsInode.extend_ptr _ _ _ _ (Or.inl hold),
        FsInode.extend_ptr _ _ _ _ (Or.inl hold')] at hsame
      have hdata := Disk.holder_data hok.node hok.isReg hold
      rw [hsame] at hdata
      have hkeys := hmount.consistent.exclusive _ _ _ hdata
        (Disk.holder_data hok.node hok.isReg hold')
      cases hkeys
      rfl
    · exact absurd hsame (hmix hk hold hk' hnew')
  · rcases Nat.lt_or_ge k' (blockCount (world.disk.inode inum).length)
      with hold' | hnew'
    · exact absurd hsame.symm (hmix hk' hold' hk hnew)
    · obtain ⟨j, rfl⟩ := Nat.exists_eq_add_of_le hnew
      obtain ⟨j', rfl⟩ := Nat.exists_eq_add_of_le hnew'
      have hj : j < fresh.length := by omega
      have hj' : j' < fresh.length := by omega
      rw [hok.ptr_fresh hmount mtime hj, hok.ptr_fresh hmount mtime hj']
        at hsame
      rw [(List.Nodup.getElem_inj_iff hnodup).mp hsame]

theorem Change.mem_effects (hvalid : change.Valid world names) {b : Nat}
    {buf : Block} (hmem : Effect.write b buf ∈ change.effects world) :
    b = 1 ∨ change.Rewrites world.disk b ∨ ¬ Marked (world.disk 1) b := by
  cases change with
  | attributes path inum inode =>
      rw [effects, List.mem_singleton] at hmem
      cases hmem
      exact Or.inr (Or.inl (Or.inl rfl))
  | relabel path inum slot name =>
      rw [effects, List.mem_singleton] at hmem
      cases hmem
      exact Or.inr (Or.inl rfl)
  | insert path inum slot name inode dirflag blocks =>
      have hlength := (lowestFree_eq_some hvalid.blocks).1
      have hfree := fun b hb =>
        (hmount.usable_of_lowestFree hvalid.blocks b hb).2.2
      cases dirflag with
      | false =>
          obtain ⟨child, rfl⟩ := List.length_eq_one_iff.mp hlength
          simp [effects, Disk.setEntry, markEffects] at hmem
          rcases hmem with ⟨rfl, -⟩ | ⟨rfl, -⟩ | ⟨rfl, -⟩
          · exact Or.inr (Or.inr (hfree b (by simp)))
          · exact Or.inr (Or.inl rfl)
          · exact Or.inl rfl
      | true =>
          obtain ⟨child, block, rfl⟩ := List.length_eq_two.mp hlength
          simp [effects, Disk.setEntry, markEffects] at hmem
          rcases hmem with ⟨rfl, -⟩ | ⟨rfl, -⟩ | ⟨rfl, -⟩ | ⟨rfl, -⟩
          · exact Or.inr (Or.inr (hfree b (by simp)))
          · exact Or.inr (Or.inl rfl)
          · exact Or.inr (Or.inr (hfree b (by simp)))
          · exact Or.inl rfl
  | remove path inum slot blocks =>
      simp [effects, Disk.setEntry, markEffects] at hmem
      rcases hmem with ⟨rfl, -⟩ | ⟨rfl, -⟩
      · exact Or.inr (Or.inl rfl)
      · exact Or.inl rfl
  | shrink path inum len =>
      simp [effects, markEffects] at hmem
      rcases hmem with ⟨rfl, -⟩ | ⟨rfl, -⟩
      · exact Or.inr (Or.inl (Or.inl rfl))
      · exact Or.inl rfl
  | write path inum offset wbuf mtime fresh =>
      simp only [effects, List.mem_append, List.mem_cons] at hmem
      rcases hmem with (hmark | hinode | hdata) | hmodify | hnil
      · split at hmark
        · cases hmark
        · exact Or.inl (mem_markEffects hmark).1
      · cases hinode
        exact Or.inr (Or.inl (Or.inl rfl))
      · obtain ⟨k, hk, rfl, -⟩ := mem_dataEffects hdata
        rcases WriteOk.ptr_cases hmount hvalid mtime hk with hold | hfree
        · exact Or.inr (Or.inl (Or.inr ⟨k, hold⟩))
        · exact Or.inr (Or.inr hfree)
      · cases hmodify
      · cases hnil

/-- The blocks that a change rewrites lie behind the reserved blocks. -/
theorem Change.two_le_of_rewrites (hvalid : change.Valid world names)
    {b : Nat} (hrw : change.Rewrites world.disk b) : 2 ≤ b := by
  have hinode : ∀ path inum,
      world.disk.node path = some (names, inum) →
      (b = inum ∨ ∃ k, world.disk.holder (path, .data k) = some b) →
      2 ≤ b := by
    rintro path inum hnode (rfl | ⟨k, hdata⟩)
    · exact (hmount.consistent.inode_range hnode).1
    · exact (hmount.consistent.range _ _ hdata).1
  have hentries : ∀ path inum,
      world.disk.node path = some (names, inum) →
      (world.disk.inode inum).isDir = true →
      b = (world.disk.inode inum).ptr 0 → 2 ≤ b := by
    rintro path inum hnode hdir rfl
    exact (hmount.consistent.entries_range hnode hdir).1
  cases change with
  | attributes path inum inode => exact hinode path inum hvalid.node hrw
  | relabel path inum slot name =>
      exact hentries path inum hvalid.1.node hvalid.1.isDir hrw
  | insert path inum slot name inode dirflag blocks =>
      exact hentries path inum hvalid.node hvalid.isDir hrw
  | remove path inum slot blocks =>
      exact hentries path inum hvalid.entry.node hvalid.entry.isDir hrw
  | shrink path inum len => exact hinode path inum hvalid.node hrw
  | write path inum offset buf mtime fresh =>
      exact hinode path inum hvalid.node hrw

omit hmount in
theorem Change.apply_device :
    (change.apply world).device.size = world.device.size ∧
      (change.apply world).device.readFails = world.device.readFails :=
  ⟨applyAll_size _ _, applyAll_readFails _ _⟩

theorem Change.apply_bitmap (hvalid : change.Valid world names) :
    (change.apply world).disk 1 = change.map world.disk := by
  cases change with
  | attributes path inum inode =>
      have hrange := hmount.consistent.inode_range hvalid.node
      refine applyAll_disk_of_notMem fun buf hmem => ?_
      rw [effects, List.mem_singleton] at hmem
      cases hmem
      omega
  | relabel path inum slot name =>
      have hrange := hmount.consistent.entries_range hvalid.1.node
        hvalid.1.isDir
      refine applyAll_disk_of_notMem fun buf hmem => ?_
      rw [effects, List.mem_singleton, Disk.setEntry,
        Effect.write.injEq] at hmem
      omega
  | insert path inum slot name inode dirflag blocks =>
      simp only [apply, effects, markEffects, applyAll_append, applyAll_cons,
        applyAll_nil, Effect.apply, World.put_disk, Function.update_self,
        hmount.bitmap]
      rfl
  | remove path inum slot blocks =>
      simp only [apply, effects, markEffects, List.cons_append,
        List.nil_append, applyAll_cons, applyAll_nil, Effect.apply,
        World.modify_disk, World.put_disk, Function.update_self,
        hmount.bitmap]
      rfl
  | shrink path inum len =>
      simp only [apply, effects, markEffects, List.cons_append,
        List.nil_append, applyAll_cons, applyAll_nil, Effect.apply,
        World.modify_disk, World.put_disk, Function.update_self,
        hmount.bitmap]
      rfl
  | write path inum offset buf mtime fresh =>
      have hrange := hmount.consistent.inode_range hvalid.node
      have hrest : ∀ buf', Effect.write 1 buf' ∉
          (.write inum ((world.disk.inode inum).extend fresh
            (offset + buf.length) mtime).encode ::
            dataEffects world.disk ((world.disk.inode inum).extend fresh
              (offset + buf.length) mtime)
              (blockCount (world.disk.inode inum).length) offset buf) ++
            [.modify (Globals.addFree
              ((blockCount (world.disk.inode inum).length : Int) -
                (blockCount (offset + buf.length) : Nat)))] := by
        intro buf' hmem
        simp only [List.mem_append, List.mem_cons] at hmem
        rcases hmem with (hinode | hdata) | hmodify | hnil
        · cases hinode
          omega
        · obtain ⟨k, hk, hone, -⟩ := mem_dataEffects hdata
          have hptr := hmount.extend_ptr_range hvalid.blockCount_le
            hvalid.fresh mtime hk hvalid.node
          omega
        · cases hmodify
        · cases hnil
      simp only [apply, effects]
      rw [List.append_assoc, applyAll_append, applyAll_disk_of_notMem hrest]
      by_cases hnil : fresh = []
      · rw [if_pos hnil, hnil]
        rfl
      · rw [if_neg hnil]
        simp only [markEffects, applyAll_cons, applyAll_nil, Effect.apply,
          World.put_disk, Function.update_self, hmount.bitmap]
        rfl

/-- The blocks that a change adds to the free count of `statVfs`. -/
def Change.delta (disk : Disk) : Change → Option Int
  | .attributes _ _ _ | .relabel _ _ _ _ => none
  | .insert _ _ _ _ _ _ blocks => some (-blocks.length)
  | .remove _ _ _ blocks => some blocks.length
  | .shrink _ inum len => some ((disk.inode inum).dropped len).length
  | .write _ inum offset buf _ _ =>
      some ((blockCount (disk.inode inum).length : Int) -
        blockCount (offset + buf.length))

/-- The globals after a change. -/
def Change.settle (world : World) (change : Change) : Globals :=
  let globals := world.globals.setBitmap (change.map world.disk)
  match change.delta world.disk with
  | none => globals
  | some delta => globals.addFree delta

theorem Change.apply_globals :
    (change.apply world).globals = change.settle world := by
  have hself : world.globals.setBitmap (world.disk 1) = world.globals := by
    rw [← hmount.bitmap]
    rfl
  cases change with
  | attributes path inum inode => exact hself.symm
  | relabel path inum slot name => exact hself.symm
  | insert path inum slot name inode dirflag blocks =>
      simp only [apply, effects, markEffects, applyAll_append, applyAll_cons,
        applyAll_nil, Effect.apply, World.put_globals, World.issued_globals,
        World.modify_globals, Disk.setEntry, hmount.bitmap]
      cases dirflag <;> rfl
  | remove path inum slot blocks =>
      simp only [apply, effects, markEffects, applyAll_append, applyAll_cons,
        applyAll_nil, Effect.apply, World.put_globals, World.issued_globals,
        World.modify_globals, Disk.setEntry, hmount.bitmap]
      rfl
  | shrink path inum len =>
      simp only [apply, effects, markEffects, applyAll_append, applyAll_cons,
        applyAll_nil, Effect.apply, World.put_globals, World.issued_globals,
        World.modify_globals, hmount.bitmap]
      rfl
  | write path inum offset buf mtime fresh =>
      have hdata : ∀ (inode : FsInode) (world' : World),
          (applyAll (dataEffects world.disk inode
            (blockCount (world.disk.inode inum).length) offset buf)
              world').globals = world'.globals := by
        intro inode world'
        refine applyAll_globals_of_write fun effect hmem => ?_
        obtain ⟨k, -, rfl⟩ := List.mem_map.mp hmem
        exact ⟨_, _, rfl⟩
      simp only [apply, effects, applyAll_append, applyAll_cons,
        applyAll_nil, Effect.apply, World.put_globals, World.issued_globals,
        World.modify_globals, hdata]
      by_cases hnil : fresh = []
      · rw [if_pos hnil, hnil]
        exact congrArg _ hself.symm
      · rw [if_neg hnil]
        simp only [markEffects, applyAll_cons, applyAll_nil, Effect.apply,
          World.put_globals, World.issued_globals, World.modify_globals,
          hmount.bitmap]
        rfl

/-! The blocks that make a change visible in the graph. -/

/-- The inode that a change stores. -/
def Change.rewrittenInode (disk : Disk) :
    Change → Option (List Slot × Nat × FsInode)
  | .attributes path inum inode => some (path, inum, inode)
  | .shrink path inum len => some (path, inum, (disk.inode inum).shrink len)
  | .write path inum offset buf mtime fresh =>
      some (path, inum,
        (disk.inode inum).extend fresh (offset + buf.length) mtime)
  | _ => none

/-- The directory entry that a change stores. -/
def Change.rewrittenEntry (disk : Disk) :
    Change → Option (List Slot × Nat × Slot × FsDirent)
  | .relabel path inum slot name =>
      some (path, inum, slot,
        { disk.entries inum slot with name := strncpy (fun _ => 0) name })
  | .insert path inum slot name _ _ blocks =>
      some (path, inum, slot,
        (disk.entries inum slot).occupied (blocks.getD 0 0) name)
  | .remove path inum slot _ =>
      some (path, inum, slot,
        { disk.entries inum slot with valid := false })
  | _ => none

/-- The inode that a change adds to the graph. -/
def Change.newInode : Change → Option (Nat × FsInode)
  | .insert _ _ _ _ inode _ blocks => some (blocks.getD 0 0, inode)
  | _ => none

/-- The writes that make a change visible in the graph. -/
def Change.published (disk : Disk) : Change → List Effect
  | .attributes _ inum inode => [.write inum inode.encode]
  | .relabel _ inum slot name =>
      [disk.setEntry inum slot
        { disk.entries inum slot with name := strncpy (fun _ => 0) name }]
  | .insert _ inum slot name inode dirflag blocks =>
      [.write (blocks.getD 0 0) inode.encode,
        disk.setEntry inum slot
          ((disk.entries inum slot).occupied (blocks.getD 0 0) name)] ++
      if dirflag then [.write (blocks.getD 1 0) zeroBlock] else []
  | .remove _ inum slot _ =>
      [disk.setEntry inum slot
        { disk.entries inum slot with valid := false }]
  | .shrink _ inum len => [.write inum ((disk.inode inum).shrink len).encode]
  | .write _ inum offset buf mtime fresh =>
      [.write inum
        ((disk.inode inum).extend fresh (offset + buf.length) mtime).encode]

/-- The contents of a new inode block, and of a new directory block. -/
def Change.Child (disk' : Disk) : Change → Prop
  | .insert _ _ _ _ inode dirflag blocks =>
      disk'.inode (blocks.getD 0 0) = inode ∧
        (dirflag = true → disk' (blocks.getD 1 0) = zeroBlock)
  | _ => True

/-- A disk on which a change is visible, whatever its bitmap says. -/
structure Change.Shows (change : Change) (disk disk' : Disk) : Prop where
  kept : ∀ b, Marked (disk 1) b → b ≠ 1 → ¬ change.Rewrites disk b →
    disk' b = disk b
  inode : ∀ path inum new,
    change.rewrittenInode disk = some (path, inum, new) →
      disk'.inode inum = new
  entry : ∀ path inum slot entry,
    change.rewrittenEntry disk = some (path, inum, slot, entry) →
      disk' ((disk.inode inum).ptr 0) =
        Directory.encode (Function.update (disk.entries inum) slot entry)
  child : change.Child disk'

/-- An insertion writes to new blocks, the directory and the bitmap. -/
theorem InsertOk.effects_once {path : List Slot} {inum : Nat} {slot : Slot}
    {name : Name} {inode : FsInode} {dirflag : Bool} {blocks : List Nat}
    (hok : InsertOk world names path inum slot name inode dirflag blocks) :
    WritesOnce (Change.effects world
      (.insert path inum slot name inode dirflag blocks)) := by
  have hone := hmount.consistent.reserved 1 (by omega)
  obtain ⟨hlow, -, hmarked⟩ :=
    hmount.consistent.entries_range hok.node hok.isDir
  obtain ⟨hlength, hnodup, -⟩ := lowestFree_eq_some hok.blocks
  have hapart : ∀ b ∈ blocks, ∀ b', Marked (world.disk 1) b' → b ≠ b' := by
    rintro b hb b' hmarked' rfl
    exact (hmount.usable_of_lowestFree hok.blocks b hb).2.2 hmarked'
  have hentry : [(world.disk.inode inum).ptr 0, 1].Nodup := by
    simp
    omega
  cases dirflag with
  | false =>
      obtain ⟨child, rfl⟩ := List.length_eq_one_iff.mp hlength
      have hchild := hapart child (by simp)
      change [child, (world.disk.inode inum).ptr 0, 1].Nodup
      refine List.nodup_cons.mpr ⟨?_, hentry⟩
      simp [hchild _ hone, hchild _ hmarked]
  | true =>
      obtain ⟨child, block, rfl⟩ := List.length_eq_two.mp hlength
      have hchild := hapart child (by simp)
      have hblock := hapart block (by simp)
      have hne : child ≠ block := by simpa using hnodup
      change [child, (world.disk.inode inum).ptr 0, block, 1].Nodup
      rw [(List.Perm.cons child (List.Perm.swap block
        ((world.disk.inode inum).ptr 0) [1])).nodup_iff]
      refine List.nodup_cons.mpr ⟨?_, List.nodup_cons.mpr ⟨?_, hentry⟩⟩
      · simp [hne, hchild _ hone, hchild _ hmarked]
      · simp [hblock _ hone, hblock _ hmarked]

/-- A write goes to the bitmap, the inode and different blocks of the file. -/
theorem WriteOk.effects_once {path : List Slot} {inum offset : Nat}
    {buf : List UInt8} {fresh : List Nat}
    (hok : WriteOk world names path inum offset buf fresh)
    (mtime : UInt32) :
    WritesOnce (Change.effects world
      (.write path inum offset buf mtime fresh)) := by
  have hrange := hmount.consistent.inode_range hok.node
  have hptr := fun k (hk : k < blockCount (offset + buf.length)) =>
    hmount.extend_ptr_range hok.blockCount_le hok.fresh mtime hk hok.node
  have hne := fun k (hk : k < blockCount (offset + buf.length)) =>
    hmount.extend_ptr_ne hok.blockCount_le hok.fresh mtime hk hok.node
      hok.isReg
  have hdata : ((dataEffects world.disk
      ((world.disk.inode inum).extend fresh (offset + buf.length) mtime)
      (blockCount (world.disk.inode inum).length) offset buf).filterMap
        Effect.target) =
      (List.range' (offset / 4096)
        (blockCount (offset + buf.length) - offset / 4096)).map
        ((world.disk.inode inum).extend fresh (offset + buf.length)
          mtime).ptr := by
    rw [dataEffects, List.filterMap_map, ← List.filterMap_eq_map]
    rfl
  have hrest : (inum :: (List.range' (offset / 4096)
      (blockCount (offset + buf.length) - offset / 4096)).map
      ((world.disk.inode inum).extend fresh (offset + buf.length)
        mtime).ptr).Nodup := by
    refine List.nodup_cons.mpr ⟨fun hmem => ?_,
      List.Nodup.map_on (fun k hk k' hk' hsame => ?_) List.nodup_range'⟩
    · obtain ⟨k, hk, heq⟩ := List.mem_map.mp hmem
      rw [List.mem_range'_1] at hk
      exact hne k (by omega) heq
    · rw [List.mem_range'_1] at hk hk'
      exact hok.ptr_inj hmount mtime (by omega) (by omega) hsame
  rw [WritesOnce, Change.effects]
  simp only [List.filterMap_append, List.filterMap_cons,
    List.filterMap_nil, Effect.target, hdata, List.append_nil]
  by_cases hnil : fresh = []
  · rw [if_pos hnil]
    exact hrest
  · rw [if_neg hnil]
    refine List.nodup_cons.mpr ⟨fun hmem => ?_, hrest⟩
    rcases List.mem_cons.mp hmem with heq | hmem
    · omega
    · obtain ⟨k, hk, heq⟩ := List.mem_map.mp hmem
      rw [List.mem_range'_1] at hk
      have hlow := hptr k (by omega)
      omega

/-- No change writes a block twice. -/
theorem Change.effects_once (hvalid : change.Valid world names) :
    WritesOnce (change.effects world) := by
  have hpair : ∀ {b : Nat}, 2 ≤ b → [b, 1].Nodup := by
    intro b hb
    simp
    omega
  cases change with
  | attributes path inum inode => exact List.nodup_singleton inum
  | relabel path inum slot name => exact List.nodup_singleton _
  | insert path inum slot name inode dirflag blocks =>
      exact InsertOk.effects_once hmount hvalid
  | remove path inum slot blocks =>
      exact hpair (hmount.consistent.entries_range hvalid.entry.node
        hvalid.entry.isDir).1
  | shrink path inum len =>
      exact hpair (hmount.consistent.inode_range hvalid.node).1
  | write path inum offset buf mtime fresh =>
      exact WriteOk.effects_once hmount hvalid mtime

omit hmount in
theorem Change.published_subset :
    change.published world.disk ⊆ change.effects world := by
  intro effect hmem
  cases change with
  | attributes path inum inode => exact hmem
  | relabel path inum slot name => exact hmem
  | insert path inum slot name inode dirflag blocks =>
      exact List.mem_append_left _ hmem
  | remove path inum slot blocks =>
      exact List.mem_append_left _
        (List.mem_cons.mpr (Or.inl (List.mem_singleton.mp hmem)))
  | shrink path inum len =>
      exact List.mem_append_left _
        (List.mem_cons.mpr (Or.inl (List.mem_singleton.mp hmem)))
  | write path inum offset buf mtime fresh =>
      refine List.mem_append_left _ (List.mem_append_right _ ?_)
      exact List.mem_cons.mpr (Or.inl (List.mem_singleton.mp hmem))

/-- A change is visible once its publishing writes are done, whichever of the
others are. -/
theorem Change.shows (hvalid : change.Valid world names)
    {front back : List Effect} (heffects : change.effects world = front ++ back)
    (hpublished : change.published world.disk ⊆ front) :
    change.Shows world.disk (applyAll front world).disk := by
  have honce := Change.effects_once hmount hvalid
  rw [heffects] at honce
  have hwritten : ∀ {b : Nat} {buf : Block},
      Effect.write b buf ∈ change.published world.disk →
      (applyAll front world).disk b = buf := fun hmem =>
    applyAll_disk_of_once honce.front (hpublished hmem)
  have hinode : ∀ {i : Nat} {inode : FsInode},
      Effect.write i inode.encode ∈ change.published world.disk →
      (applyAll front world).disk.inode i = inode := by
    intro i inode hmem
    rw [Disk.inode, hwritten hmem, FsInode.decode_encode]
  refine ⟨?_, ?_, ?_, ?_⟩
  · intro b hmarked hone hkept
    refine applyAll_disk_of_notMem fun buf hmem => ?_
    have hall : Effect.write b buf ∈ change.effects world := by
      rw [heffects]
      exact List.mem_append_left _ hmem
    rcases Change.mem_effects hmount hvalid hall with heq | hrw | hfree
    · exact hone heq
    · exact hkept hrw
    · exact hfree hmarked
  · intro path inum new hview
    apply hinode
    cases change with
    | attributes | shrink | write => cases hview; exact List.mem_cons_self
    | relabel | insert | remove => cases hview
  · intro path inum slot entry hview
    apply hwritten
    cases change with
    | relabel | remove => cases hview; exact List.mem_cons_self
    | insert =>
        cases hview
        exact List.mem_cons_of_mem _ List.mem_cons_self
    | attributes | shrink | write => cases hview
  · cases change with
    | insert path inum slot name inode dirflag blocks =>
        refine ⟨hinode List.mem_cons_self, fun hdir => hwritten ?_⟩
        rw [published, if_pos hdir]
        exact List.mem_append_right _ (List.mem_singleton_self _)
    | attributes | relabel | remove | shrink | write => exact trivial

theorem Change.apply_shows (hvalid : change.Valid world names) :
    change.Shows world.disk (change.apply world).disk :=
  Change.shows hmount hvalid (List.append_nil _).symm published_subset

theorem Change.Shows.superblock (hvalid : change.Valid world names)
    {disk' : Disk} (hshows : change.Shows world.disk disk') :
    disk'.superblock = world.disk.superblock := by
  have hzero : disk' 0 = world.disk 0 := by
    refine hshows.kept 0 (hmount.consistent.reserved 0 (by omega))
      (by omega) fun hrw => ?_
    have hle := Change.two_le_of_rewrites hmount hvalid hrw
    omega
  rw [Disk.superblock, hzero, Disk.superblock]

theorem Change.Shows.diskSize (hvalid : change.Valid world names)
    {disk' : Disk} (hshows : change.Shows world.disk disk') :
    disk'.diskSize = world.disk.diskSize := by
  rw [Disk.diskSize, hshows.superblock hmount hvalid, Disk.diskSize]

theorem Change.inodeRewrite (hvalid : change.Valid world names)
    {disk' : Disk} (hshows : change.Shows world.disk disk')
    {path : List Slot} {inum : Nat} {new : FsInode}
    (hview : change.rewrittenInode world.disk = some (path, inum, new)) :
    Disk.InodeRewrite world.disk disk' path names inum := by
  have hinode := hshows.inode path inum new hview
  have hkept := hshows.kept
  cases change with
  | attributes path' inum' inode =>
      cases hview
      refine hmount.consistent.inodeRewrite hvalid.node
        (fun b hmarked hone hne hdata => hkept b hmarked hone ?_) ?_ ?_
      · rintro (heq | ⟨k, hk⟩)
        · exact hne heq
        · exact hdata k hk
      · rw [hinode, hvalid.isDir]
      · intro _
        rw [hinode, FsInode.ptr, FsInode.ptr, hvalid.ptrs]
  | shrink path' inum' len =>
      cases hview
      have hdir := sIsDir_of_sIsReg hvalid.isReg
      refine hmount.consistent.inodeRewrite hvalid.node
        (fun b hmarked hone hne hdata => hkept b hmarked hone ?_) ?_ ?_
      · rintro (heq | ⟨k, hk⟩)
        · exact hne heq
        · exact hdata k hk
      · rw [hinode]
        rfl
      · intro hisDir
        rw [FsInode.isDir, hdir] at hisDir
        cases hisDir
  | write path' inum' offset buf mtime fresh =>
      cases hview
      have hdir := sIsDir_of_sIsReg hvalid.isReg
      refine hmount.consistent.inodeRewrite hvalid.node
        (fun b hmarked hone hne hdata => hkept b hmarked hone ?_) ?_ ?_
      · rintro (heq | ⟨k, hk⟩)
        · exact hne heq
        · exact hdata k hk
      · rw [hinode]
        rfl
      · intro hisDir
        rw [FsInode.isDir, hdir] at hisDir
        cases hisDir
  | relabel | insert | remove => cases hview

theorem Change.entryRewrite (hvalid : change.Valid world names)
    {disk' : Disk} (hshows : change.Shows world.disk disk')
    {path : List Slot} {inum : Nat} {slot : Slot} {entry : FsDirent}
    (hview : change.rewrittenEntry world.disk =
      some (path, inum, slot, entry)) :
    Disk.EntryRewrite world.disk disk' path names inum slot ∧
      disk'.entries inum =
        Function.update (world.disk.entries inum) slot entry := by
  have hentry := hshows.entry path inum slot entry hview
  have hkept := hshows.kept
  cases change with
  | relabel path' inum' slot' name =>
      cases hview
      exact hmount.consistent.entryRewrite hvalid.1.node hvalid.1.isDir
        hkept hentry
  | insert path' inum' slot' name inode dirflag blocks =>
      cases hview
      exact hmount.consistent.entryRewrite hvalid.node hvalid.isDir
        hkept hentry
  | remove path' inum' slot' blocks =>
      cases hview
      exact hmount.consistent.entryRewrite hvalid.entry.node
        hvalid.entry.isDir hkept hentry
  | attributes | shrink | write => cases hview

/-- The first block of a creation is a free one. -/
theorem InsertOk.child_usable {path : List Slot} {inum : Nat} {slot : Slot}
    {name : Name} {inode : FsInode} {dirflag : Bool} {blocks : List Nat}
    (hok : InsertOk world names path inum slot name inode dirflag blocks) :
    2 < blocks.getD 0 0 ∧ blocks.getD 0 0 < world.disk.diskSize ∧
      ¬ Marked (world.disk 1) (blocks.getD 0 0) := by
  have hlength := (lowestFree_eq_some hok.blocks).1
  cases blocks with
  | nil => cases dirflag <;> cases hlength
  | cons child rest =>
      exact hmount.usable_of_lowestFree hok.blocks child List.mem_cons_self

/-- An entry can hold the number of that block. -/
theorem InsertOk.child_lt {path : List Slot} {inum : Nat} {slot : Slot}
    {name : Name} {inode : FsInode} {dirflag : Bool} {blocks : List Nat}
    (hok : InsertOk world names path inum slot name inode dirflag blocks) :
    blocks.getD 0 0 < 32768 := by
  have hle := hmount.consistent.size_le
  have husable := hok.child_usable hmount
  omega

/-- The entry of a new object leads to its first block. -/
theorem InsertOk.edge {path : List Slot} {inum : Nat} {slot : Slot}
    {name : Name} {inode : FsInode} {dirflag : Bool} {blocks : List Nat}
    (hok : InsertOk world names path inum slot name inode dirflag blocks)
    {disk' : Disk}
    (hrw : Disk.EntryRewrite world.disk disk' path names inum slot)
    (hentries : disk'.entries inum = Function.update
      (world.disk.entries inum) slot
      ((world.disk.entries inum slot).occupied (blocks.getD 0 0) name)) :
    disk'.edge inum slot = some (name, blocks.getD 0 0) := by
  have hlt := hok.child_lt hmount
  have hdirectory := (hmount.consistent.object _ _ _ hok.node).names hok.isDir
  have hself : disk'.entries inum slot =
      (world.disk.entries inum slot).occupied (blocks.getD 0 0) name := by
    rw [hentries, Function.update_self]
  refine Disk.edge_eq_some.mpr ⟨hrw.isDir_eq, ?_, ?_⟩
  · rw [hself]
    rfl
  · have hname := nameString_strncpy
      ((world.disk.entries inum slot).occupied (blocks.getD 0 0) name)
      _ name hok.name.valid (hdirectory.last_zero slot) rfl
    rw [hself, hname]
    simp only [FsDirent.occupied, BitVec.toNat_ofNat]
    rw [Nat.mod_eq_of_lt (by omega)]

/-- A new object is a leaf of the graph, entered under its name. -/
theorem InsertOk.leaf {path : List Slot} {inum : Nat} {slot : Slot}
    {name : Name} {inode : FsInode} {dirflag : Bool} {blocks : List Nat}
    (hok : InsertOk world names path inum slot name inode dirflag blocks)
    {disk' : Disk}
    (hshows : (Change.insert path inum slot name inode dirflag blocks).Shows
      world.disk disk') :
    disk'.edge inum slot = some (name, blocks.getD 0 0) ∧
      ∀ slot', disk'.edge (blocks.getD 0 0) slot' = none := by
  have hvalid : (Change.insert path inum slot name inode dirflag blocks).Valid
      world names := hok
  obtain ⟨hrw, hentries⟩ := Change.entryRewrite hmount hvalid hshows rfl
  obtain ⟨hinode, hzero⟩ := hshows.child
  refine ⟨hok.edge hmount hrw hentries, fun slot' => ?_⟩
  rw [Disk.edge, hinode]
  refine if_neg fun hboth => ?_
  obtain ⟨hdir, hvalid⟩ := hboth
  rw [hok.inode.isDir] at hdir
  rw [Disk.entries, hinode, hok.inode.block hdir, hzero hdir,
    Directory.decode_zeroBlock_valid] at hvalid
  cases hvalid

/-- Who holds what once a change is visible. -/
theorem Change.holder_iff (hvalid : change.Valid world names)
    {disk' : Disk} (hshows : change.Shows world.disk disk')
    (key : List Slot × Role) (b : Nat) :
    disk'.holder key = some b ↔
      (world.disk.holder key = some b ∧ ¬ change.dropped key) ∨
        change.gained world.disk key = some b := by
  cases change with
  | attributes path inum inode =>
      have hrw := Change.inodeRewrite hmount hvalid hshows rfl
      have howned : disk'.owned inum = world.disk.owned inum := by
        funext role
        rw [Disk.owned, hshows.inode path inum inode rfl, FsInode.owned_congr
          inum hvalid.isDir hvalid.isReg hvalid.size hvalid.ptrs]
        rfl
      have hiff := hrw.holder_iff (fun _ => False) (fun _ => none)
        (fun role b => by simp [howned]) key b
      simpa [dropped, gained] using hiff
  | relabel path inum slot name =>
      obtain ⟨hrw, hentries⟩ := Change.entryRewrite hmount hvalid hshows rfl
      have hself := congrFun hentries slot
      rw [Function.update_self] at hself
      rw [hrw.holder_relabel hvalid.1.valid (by rw [hself]; exact
        hvalid.1.valid) (by rw [hself]) key]
      simp [dropped, gained]
  | insert path inum slot name inode dirflag blocks =>
      obtain ⟨hrw, -⟩ := Change.entryRewrite hmount hvalid hshows rfl
      obtain ⟨hedge, hleaf⟩ := InsertOk.leaf hmount hvalid hshows
      rw [hrw.holder_insert hvalid.free hedge hleaf key b, Disk.owned,
        hshows.child.1]
      simp [dropped, gained]
  | remove path inum slot blocks =>
      obtain ⟨hrw, hentries⟩ := Change.entryRewrite hmount hvalid hshows rfl
      have hself := congrFun hentries slot
      rw [Function.update_self] at hself
      rw [hrw.holder_remove (by rw [hself]) key b]
      simp [dropped, gained]
  | shrink path inum len =>
      have hrw := Change.inodeRewrite hmount hvalid hshows rfl
      have hle := hvalid.le
      have hobject := hmount.consistent.object _ _ _ hvalid.node
      have hlen : len < 2147483648 := by
        have hcount := hobject.blockCount_le
        rw [blockCount] at hle
        omega
      have hiff := hrw.holder_iff (Role.Beyond (blockCount len))
        (fun _ => none) (fun role b => by
          rw [Disk.owned, hshows.inode path inum _ rfl,
            FsInode.owned_shrink inum hvalid.isReg hlen hle]
          simp [Disk.owned]) key b
      simpa [dropped, gained] using hiff
  | write path inum offset buf mtime fresh =>
      have hrw := Change.inodeRewrite hmount hvalid hshows rfl
      have hobject := hmount.consistent.object _ _ _ hvalid.node
      have hsize := (hobject.size_range hvalid.isReg).1
      have hfresh := lowestFree_eq_some hvalid.fresh
      have hlimit := hvalid.limit
      have hle := hmount.consistent.size_le
      have hiff := hrw.holder_iff (fun _ => False)
        (freshRole (blockCount (world.disk.inode inum).length) fresh)
        (fun role b => by
          rw [Disk.owned, hshows.inode path inum _ rfl,
            FsInode.owned_extend inum mtime hvalid.isReg hsize hfresh.1
              hvalid.blockCount_le (by omega)
              (fun b hb => by have := (hfresh.2.2 b hb).1; omega)]
          simp [Disk.owned]) key b
      simpa [dropped, gained] using hiff

end

end Fs5600
