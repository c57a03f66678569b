/-
What a change does to the objects of the graph, said in terms of the objects
alone: their inodes, their entries and their bytes.
-/
import Fs5600.SizeLimit

namespace Fs5600

open MachineWord EffectProgram Program LabelledWalk

/-- Inode `j` after a change. -/
def Change.inodeAt (disk : Disk) (change : Change) (j : Nat) : FsInode :=
  match change.rewrittenInode disk with
  | some (_, inum, new) => if j = inum then new else disk.inode j
  | none => disk.inode j

/-- The entries of directory inode `j` after a change. -/
def Change.entriesAt (disk : Disk) (change : Change) (j : Nat) : Directory :=
  match change.rewrittenEntry disk with
  | some (_, inum, slot, entry) =>
      if j = inum then Function.update (disk.entries inum) slot entry
      else disk.entries j
  | none => disk.entries j

/-- The bytes of file inode `j` after a change. -/
def Change.contentAt (disk : Disk) (change : Change) (j : Nat) :
    List UInt8 :=
  let old := fileContent disk (disk.inode j)
  match change with
  | .shrink _ inum len => if j = inum then old.take len else old
  | .write _ inum offset buf _ _ =>
      if j = inum then
        old.take offset ++ buf ++ old.drop (offset + buf.length)
      else old
  | _ => old

/-- The inode that is rewritten, or whose entry is. -/
def Change.inum : Change → Nat
  | .attributes _ inum _ | .relabel _ inum _ _ | .insert _ inum _ _ _ _ _
  | .remove _ inum _ _ | .shrink _ inum _ | .write _ inum _ _ _ _ => inum

def Change.path : Change → List Slot
  | .attributes path _ _ | .relabel path _ _ _ | .insert path _ _ _ _ _ _
  | .remove path _ _ _ | .shrink path _ _ | .write path _ _ _ _ _ => path

theorem Change.Valid.node {world : World} {names : List Name}
    {change : Change} (hvalid : change.Valid world names) :
    world.disk.node change.path = some (names, change.inum) := by
  cases change with
  | attributes => exact AttributesOk.node hvalid
  | relabel => exact hvalid.1.node
  | insert => exact InsertOk.node hvalid
  | remove => exact (RemoveOk.entry hvalid).node
  | shrink => exact ShrinkOk.node hvalid
  | write => exact WriteOk.node hvalid

section

variable {world : World} (hmount : Mounted world) {names : List Name}
  {change : Change} (hvalid : change.Valid world names)

include hmount hvalid

section

variable {disk' : Disk} (hshows : change.Shows world.disk disk')

include hshows

variable {q : List Slot} {names' : List Name} {j : Nat}
  (hq : world.disk.node q = some (names', j))

include hq

theorem Change.inode_eq : disk'.inode j = change.inodeAt world.disk j := by
  have hother : ∀ {path : List Slot} {inum : Nat},
      Disk.InodeRewrite world.disk disk' path names inum → j ≠ inum →
      disk'.inode j = world.disk.inode j := by
    intro path inum hrw hne
    refine hrw.inode_eq hq ?_
    rintro rfl
    exact hne (hrw.eq_inum hq)
  cases change with
  | attributes path inum | shrink path inum | write path inum =>
      simp only [inodeAt, rewrittenInode]
      split
      next heq =>
        rw [heq]
        exact hshows.inode _ _ _ rfl
      next hne =>
        exact hother (Change.inodeRewrite hmount hvalid hshows rfl) hne
  | relabel | insert | remove =>
      exact (Change.entryRewrite hmount hvalid hshows rfl).1.inode_eq hq

theorem Change.entries_eq (hdir : (world.disk.inode j).isDir = true) :
    disk'.entries j = change.entriesAt world.disk j := by
  have hother : ∀ {path : List Slot} {inum : Nat} {slot : Slot},
      Disk.EntryRewrite world.disk disk' path names inum slot → j ≠ inum →
      disk'.entries j = world.disk.entries j := by
    intro path inum slot hrw hne
    refine hrw.entries_eq hq ?_ hdir
    rintro rfl
    have hnode := hrw.node
    rw [hq] at hnode
    cases hnode
    exact hne rfl
  cases change with
  | attributes | shrink | write =>
      exact (Change.inodeRewrite hmount hvalid hshows rfl).entries_eq hq hdir
  | relabel path inum | insert path inum | remove path inum =>
      obtain ⟨hrw, hentries⟩ := Change.entryRewrite hmount hvalid hshows rfl
      simp only [entriesAt, rewrittenEntry]
      split
      next heq =>
        rw [heq]
        exact hentries
      next hne => exact hother hrw hne

end

/-! Bytes. -/

variable {q : List Slot} {names' : List Name} {j : Nat}
  (hq : world.disk.node q = some (names', j))
  (hreg : (world.disk.inode j).isReg = true)

include hq hreg

/-- Only a write of the file itself writes its blocks. -/
theorem Change.data_kept {k : Nat}
    (hk : k < blockCount (world.disk.inode j).length)
    (hother : ∀ path inum offset buf mtime fresh,
      change = .write path inum offset buf mtime fresh → j ≠ inum) :
    (change.apply world).disk ((world.disk.inode j).ptr k) =
      world.disk ((world.disk.inode j).ptr k) := by
  have hdata := Disk.holder_data hq hreg hk
  obtain ⟨hlow, -, hmarked⟩ := hmount.consistent.range _ _ hdata
  have hinode : ∀ {path : List Slot} {i : Nat},
      world.disk.node path = some (names, i) →
      (world.disk.inode j).ptr k ≠ i := fun hnode =>
    hmount.consistent.holder_ne hdata (Disk.holder_inode hnode) (by simp)
  have hentries : ∀ {path : List Slot} {i : Nat},
      world.disk.node path = some (names, i) →
      (world.disk.inode i).isDir = true →
      (world.disk.inode j).ptr k ≠ (world.disk.inode i).ptr 0 :=
    fun hnode hdir => hmount.consistent.holder_ne hdata
      (Disk.holder_entries hnode hdir) (by simp)
  refine applyAll_disk_of_notMem fun buf hmem => ?_
  have hcases := Change.mem_effects hmount hvalid hmem
  cases change with
  | attributes path inum inode =>
      rw [effects, List.mem_singleton, Effect.write.injEq] at hmem
      exact hinode hvalid.node hmem.1
  | shrink path inum len =>
      simp [effects, markEffects] at hmem
      rcases hmem with ⟨heq, -⟩ | ⟨heq, -⟩
      · exact hinode hvalid.node heq
      · omega
  | relabel path inum slot name =>
      rcases hcases with heq | heq | hfree
      · omega
      · exact hentries hvalid.1.node hvalid.1.isDir heq
      · exact hfree hmarked
  | insert path inum slot name inode dirflag blocks =>
      rcases hcases with heq | heq | hfree
      · omega
      · exact hentries hvalid.node hvalid.isDir heq
      · exact hfree hmarked
  | remove path inum slot blocks =>
      rcases hcases with heq | heq | hfree
      · omega
      · exact hentries hvalid.entry.node hvalid.entry.isDir heq
      · exact hfree hmarked
  | write path inum offset wbuf mtime fresh =>
      rcases hcases with heq | (heq | ⟨k', hown⟩) | hfree
      · omega
      · exact hinode hvalid.node heq
      · have hkeys := hmount.consistent.exclusive _ _ _ hdata hown
        cases hkeys
        have hnode := WriteOk.node hvalid
        rw [hq] at hnode
        cases hnode
        exact hother _ _ _ _ _ _ rfl rfl
      · exact hfree hmarked

omit hvalid hreg in
/-- A file that was cut or stretched within its last block: the bytes up to
its new length. -/
theorem ShrinkOk.apply_content {path : List Slot} {len : Nat}
    (hok : ShrinkOk world.disk names path j len) :
    fileContent (Change.apply (.shrink path j len) world).disk
        ((world.disk.inode j).shrink len) =
      (List.range len).map (blockByte fun k =>
        world.disk ((world.disk.inode j).ptr k)) := by
  have hcount := (hmount.consistent.object _ _ _ hq).blockCount_le
  have hle := hok.le
  have hvalid : Change.Valid world names (.shrink path j len) := hok
  rw [fileContent, FsInode.shrink_length _ len
    (by rw [blockCount] at hle; omega)]
  refine List.map_congr_left fun p hp => ?_
  have hblock : p / 4096 < blockCount len :=
    lt_blockCount.mpr (by have := List.mem_range.mp hp; omega)
  rw [blockByte, blockByte, FsInode.shrink_ptr _ len (Or.inl hblock),
    Change.data_kept hmount hvalid hq hok.isReg (by omega) (by simp)]

theorem Change.content_eq
    (hlen : ∀ path inum len, change = .shrink path inum len →
      len ≤ (world.disk.inode inum).length) :
    fileContent (change.apply world).disk (change.inodeAt world.disk j) =
      change.contentAt world.disk j := by
  have hkept : (∀ path inum offset buf mtime fresh,
      change = .write path inum offset buf mtime fresh → j ≠ inum) →
      fileContent (change.apply world).disk (world.disk.inode j) =
        fileContent world.disk (world.disk.inode j) := fun hother =>
    fileContent_congr rfl fun k hk =>
      Change.data_kept hmount hvalid hq hreg hk hother
  cases change with
  | relabel | insert | remove => exact hkept (by simp)
  | attributes path inum inode =>
      simp only [inodeAt, rewrittenInode, contentAt]
      split
      next heq =>
        subst heq
        have hattributes : AttributesOk world.disk names path j inode := hvalid
        refine fileContent_congr ?_ fun k hk => ?_
        · rw [FsInode.length, hattributes.size, FsInode.length]
        · rw [FsInode.ptr, hattributes.ptrs]
          exact Change.data_kept hmount hvalid hq hreg hk (by simp)
      next => exact hkept (by simp)
  | shrink path inum len =>
      simp only [inodeAt, rewrittenInode, contentAt]
      split
      next heq =>
        subst heq
        have hshort := hlen path j len rfl
        have hslice := fileContent_slice (world.disk.inode j) world.disk
          (show 0 + len ≤ (world.disk.inode j).length by omega)
        rw [List.drop_zero] at hslice
        rw [hslice, ShrinkOk.apply_content hmount hq hvalid,
          List.range_eq_range']
      next => exact hkept (by simp)
  | write path inum offset buf mtime fresh =>
      simp only [inodeAt, rewrittenInode, contentAt]
      split
      next heq =>
        subst heq
        exact WriteOk.apply_content hmount hvalid mtime
      next hne =>
        refine hkept fun path' inum' offset' buf' mtime' fresh' hsame => ?_
        cases hsame
        exact hne

end

end Fs5600
