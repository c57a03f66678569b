/-
Every valid change is a transfer of blocks between the objects of the image
and the free blocks, and keeps the image consistent.
-/
import Fs5600.Aftermath

namespace Fs5600

open MachineWord LabelledWalk

/-- What a new object holds. -/
theorem NewInode.owned_iff {inode : FsInode} {dirflag : Bool}
    {blocks : List Nat} (hnew : NewInode inode dirflag blocks) (i : Nat)
    (role : Role) (b : Nat) :
    inode.owned i role = some b ↔
      (role = .inode ∧ b = i) ∨
        (dirflag = true ∧ role = .entries ∧ b = blocks.getD 1 0) := by
  have hdir := hnew.isDir
  have hreg := hnew.isReg
  cases role with
  | inode => simp [FsInode.owned, eq_comm]
  | entries =>
      rw [FsInode.owned, hdir]
      cases hflag : dirflag with
      | false => simp
      | true => simp [hnew.block hflag, eq_comm]
  | data k =>
      rw [FsInode.owned, hreg]
      cases hflag : dirflag with
      | false =>
          have hlength : inode.length = 0 := by
            rw [FsInode.length, hnew.size, hflag]
            rfl
          simp [hlength, blockCount]
      | true => simp

theorem ObjectOk.of_isReg {disk : Disk} {i : Nat}
    (hreg : (disk.inode i).isReg = true)
    (hsize : 0 ≤ (disk.inode i).size.toInt ∧
      (disk.inode i).size.toInt ≤ 4173824) : ObjectOk disk i := by
  refine ⟨Or.inl hreg, fun _ => hsize, fun hdir => ?_⟩
  rw [FsInode.isDir, sIsDir_of_sIsReg hreg] at hdir
  cases hdir

theorem directoryOk_zeroBlock : DirectoryOk (.decode zeroBlock) := by
  have hinvalid : ∀ slot, ¬ (Directory.decode zeroBlock slot).valid := by
    intro slot
    rw [Directory.decode_zeroBlock_valid]
    exact Bool.false_ne_true
  refine ⟨fun slot => Directory.decode_zeroBlock_name slot 27, ?_, ?_, ?_⟩
  · exact fun slot hvalid => absurd hvalid (hinvalid slot)
  · exact fun slot hvalid => absurd hvalid (hinvalid slot)
  · exact fun slot _ hvalid _ _ => absurd hvalid (hinvalid slot)

/-- A new object is in order. -/
theorem NewInode.object {inode : FsInode} {dirflag : Bool}
    {blocks : List Nat} (hnew : NewInode inode dirflag blocks) {disk : Disk}
    {i : Nat} (hinode : disk.inode i = inode)
    (hzero : dirflag = true → disk (blocks.getD 1 0) = zeroBlock) :
    ObjectOk disk i := by
  have hsize := hnew.size
  cases hflag : dirflag with
  | false =>
      rw [hflag] at hsize
      refine ObjectOk.of_isReg ?_ ?_
      · rw [hinode, hnew.isReg, hflag]
        rfl
      · rw [hinode, hsize]
        decide
  | true =>
      rw [hflag] at hsize
      have hdir : inode.isDir = true := hnew.isDir.trans hflag
      refine ⟨Or.inr ⟨hinode.symm ▸ hdir, hinode.symm ▸ hsize⟩, ?_, ?_⟩
      · intro hreg
        rw [hinode, hnew.isReg, hflag] at hreg
        cases hreg
      · intro _
        rw [Disk.entries, hinode, hnew.block hflag, hzero hflag]
        exact directoryOk_zeroBlock

section

variable {world : World} (hmount : Mounted world) {names : List Name}
  {change : Change}

/-! Blocks taken into use. -/

theorem Change.taken_nodup (hvalid : change.Valid world names) :
    change.taken.Nodup := by
  cases change with
  | insert => exact (lowestFree_eq_some hvalid.blocks).2.1
  | write => exact (lowestFree_eq_some hvalid.fresh).2.1
  | attributes | relabel | remove | shrink => exact List.nodup_nil

/-- Every block that is taken is newly held under some key. -/
theorem Change.exists_gained (hvalid : change.Valid world names) {b : Nat}
    (htaken : b ∈ change.taken) :
    ∃ key, change.gained world.disk key = some b := by
  cases change with
  | insert path inum slot name inode dirflag blocks =>
      have howned := hvalid.inode.owned_iff (blocks.getD 0 0)
      have hlength := hvalid.inode.length
      cases dirflag with
      | false =>
          obtain ⟨child, rfl⟩ := List.length_eq_one_iff.mp hlength
          obtain rfl := List.mem_singleton.mp htaken
          exact ⟨(path ++ [slot], .inode),
            (if_pos rfl).trans ((howned _ _).mpr (Or.inl ⟨rfl, rfl⟩))⟩
      | true =>
          obtain ⟨child, block, rfl⟩ := List.length_eq_two.mp hlength
          rcases List.mem_cons.mp htaken with rfl | hrest
          · exact ⟨(path ++ [slot], .inode),
              (if_pos rfl).trans ((howned _ _).mpr (Or.inl ⟨rfl, rfl⟩))⟩
          · obtain rfl := List.mem_singleton.mp hrest
            exact ⟨(path ++ [slot], .entries), (if_pos rfl).trans
              ((howned _ _).mpr (Or.inr ⟨rfl, rfl, rfl⟩))⟩
  | write path inum offset buf mtime fresh =>
      obtain ⟨j, hj, rfl⟩ := List.mem_iff_getElem.mp htaken
      refine ⟨(path,
        .data (blockCount (world.disk.inode inum).length + j)), ?_⟩
      rw [gained, if_pos rfl, freshRole, if_pos (Nat.le_add_right _ _),
        Nat.add_sub_cancel_left]
      exact List.getElem?_eq_getElem hj
  | attributes | relabel | remove | shrink => cases htaken

theorem Change.mem_taken_of_gained (hvalid : change.Valid world names)
    {key : List Slot × Role} {b : Nat}
    (hgained : change.gained world.disk key = some b) :
    b ∈ change.taken := by
  cases change with
  | insert path inum slot name inode dirflag blocks =>
      rw [gained] at hgained
      split at hgained
      next =>
        have hlength := hvalid.inode.length
        have hget : ∀ n, n < blocks.length → blocks.getD n 0 ∈ blocks := by
          intro n hn
          rw [List.getD_eq_getElem _ _ hn]
          exact List.getElem_mem hn
        rcases (hvalid.inode.owned_iff _ _ _).mp hgained with
          ⟨-, rfl⟩ | ⟨hflag, -, rfl⟩
        · apply hget
          split at hlength <;> omega
        · rw [if_pos hflag] at hlength
          exact hget 1 (by omega)
      next => cases hgained
  | write path inum offset buf mtime fresh =>
      rw [gained] at hgained
      split at hgained
      next =>
        obtain ⟨q, role⟩ := key
        cases role with
        | data k =>
            rw [freshRole] at hgained
            split at hgained
            next => exact List.mem_of_getElem? hgained
            next => cases hgained
        | inode => cases hgained
        | entries => cases hgained
      next => cases hgained
  | attributes | relabel | remove | shrink => cases hgained

theorem Change.gained_exclusive (hvalid : change.Valid world names) :
    Ledger.Exclusive (change.gained world.disk) := by
  rintro ⟨q, role⟩ ⟨q', role'⟩ b hfirst hsecond
  have hnodup := taken_nodup hvalid
  cases change with
  | insert path inum slot name inode dirflag blocks =>
      rw [gained] at hfirst hsecond
      split at hfirst
      next hq =>
        split at hsecond
        next hq' =>
          have hsite : q = q' := hq.trans hq'.symm
          have hlength := hvalid.inode.length
          have howned := hvalid.inode.owned_iff (blocks.getD 0 0)
          have hapart : dirflag = true →
              blocks.getD 0 0 ≠ blocks.getD 1 0 := by
            intro hflag
            rw [if_pos hflag] at hlength
            obtain ⟨child, block, rfl⟩ := List.length_eq_two.mp hlength
            simpa [taken] using hnodup
          rcases (howned _ _).mp hfirst with
              ⟨rfl, rfl⟩ | ⟨hflag, rfl, rfl⟩ <;>
            rcases (howned _ _).mp hsecond with
              ⟨rfl, hsame⟩ | ⟨hflag', rfl, hsame⟩
          · rw [hsite]
          · exact absurd hsame (hapart hflag')
          · exact absurd hsame.symm (hapart hflag)
          · rw [hsite]
        next => cases hsecond
      next => cases hfirst
  | write path inum offset buf mtime fresh =>
      have hindex : ∀ {role : Role}, freshRole
          (blockCount (world.disk.inode inum).length) fresh role = some b →
          ∃ j, role = .data (blockCount (world.disk.inode inum).length + j) ∧
            fresh[j]? = some b := by
        intro role hrole
        cases role with
        | data k =>
            rw [freshRole] at hrole
            split at hrole
            next hle =>
              obtain ⟨j, rfl⟩ := Nat.exists_eq_add_of_le hle
              rw [Nat.add_sub_cancel_left] at hrole
              exact ⟨j, rfl, hrole⟩
            next => cases hrole
        | inode => cases hrole
        | entries => cases hrole
      rw [gained] at hfirst hsecond
      split at hfirst
      next hq =>
        split at hsecond
        next hq' =>
          have hsite : q = q' := hq.trans hq'.symm
          obtain ⟨j, rfl, hj⟩ := hindex hfirst
          obtain ⟨j', rfl, hj'⟩ := hindex hsecond
          obtain ⟨hlt, hget⟩ := List.getElem?_eq_some_iff.mp hj
          obtain ⟨hlt', hget'⟩ := List.getElem?_eq_some_iff.mp hj'
          have hsame := (List.Nodup.getElem_inj_iff hnodup).mp
            (hget.trans hget'.symm)
          rw [hsite, hsame]
        next => cases hsecond
      next => cases hfirst
  | attributes | relabel | remove | shrink => cases hfirst

/-- What a change gives back, it drops. -/
theorem Change.released_dropped (hvalid : change.Valid world names) {b : Nat}
    (hreleased : b ∈ change.released world.disk) :
    ∃ key, change.dropped key ∧ world.disk.holder key = some b := by
  cases change with
  | remove path inum slot blocks =>
      obtain ⟨role, hrole⟩ := (hvalid.held b).mp hreleased
      have hedge := Disk.edge_eq_some.mpr
        ⟨hvalid.entry.isDir, hvalid.entry.valid, rfl⟩
      have hnode := Disk.node_behind hvalid.entry.node slot []
      rw [hedge, List.append_nil] at hnode
      refine ⟨(path ++ [slot], role), List.prefix_rfl, ?_⟩
      rw [Disk.holder_of_node hnode]
      exact hrole
  | shrink path inum len =>
      obtain ⟨k, hlow, hhigh, rfl⟩ :=
        (FsInode.mem_dropped _ _).mp hreleased
      exact ⟨(path, .data k), ⟨rfl, hlow⟩,
        Disk.holder_data hvalid.node hvalid.isReg hhigh⟩
  | attributes | relabel | insert | write => cases hreleased

include hmount

theorem Change.taken_free (hvalid : change.Valid world names) {b : Nat}
    (htaken : b ∈ change.taken) :
    2 < b ∧ b < world.disk.diskSize ∧ ¬ Marked (world.disk 1) b := by
  cases change with
  | insert => exact hmount.usable_of_lowestFree hvalid.blocks b htaken
  | write => exact hmount.usable_of_lowestFree hvalid.fresh b htaken
  | attributes | relabel | remove | shrink => cases htaken

theorem Change.marked_map (hvalid : change.Valid world names) (b : Nat) :
    Marked (change.map world.disk) b ↔
      b ∉ change.released world.disk ∧
        (b ∈ change.taken ∨ Marked (world.disk 1) b) := by
  rw [map, marked_bitClearAll, marked_bitSetAll]
  intro i htaken
  exact (taken_free hmount hvalid htaken).2.1.trans_le
    hmount.consistent.size_le

/-- No block is taken and given back at once. -/
theorem Change.taken_not_released (hvalid : change.Valid world names)
    {b : Nat} (htaken : b ∈ change.taken) :
    b ∉ change.released world.disk := by
  intro hreleased
  obtain ⟨key, -, hheld⟩ := released_dropped hvalid hreleased
  exact (taken_free hmount hvalid htaken).2.2
    (hmount.consistent.range key b hheld).2.2

/-- A visible change has passed blocks on as it says. -/
theorem Change.transfer (hvalid : change.Valid world names) {disk' : Disk}
    (hshows : change.Shows world.disk disk') :
    Ledger.Transfer (world.disk.ledger (world.disk 1))
      (disk'.ledger (change.map world.disk)) change.dropped
      (change.gained world.disk) {b | b ∈ change.released world.disk} := by
  refine ⟨Change.holder_iff hmount hvalid hshows, ?_, ?_,
    gained_exclusive hvalid, fun b => released_dropped hvalid⟩
  · intro b
    have hsize := hshows.diskSize hmount hvalid
    change b < disk'.diskSize ∧ Marked (change.map world.disk) b ↔
      ((b < world.disk.diskSize ∧ Marked (world.disk 1) b) ∧
        b ∉ change.released world.disk) ∨ _
    rw [hsize, marked_map hmount hvalid]
    constructor
    · rintro ⟨hlt, hkept, htaken | hmarked⟩
      · exact Or.inr (exists_gained hvalid htaken)
      · exact Or.inl ⟨⟨hlt, hmarked⟩, hkept⟩
    · rintro (⟨⟨hlt, hmarked⟩, hkept⟩ | ⟨key, hgained⟩)
      · exact ⟨hlt, hkept, Or.inr hmarked⟩
      · have htaken := mem_taken_of_gained hvalid hgained
        exact ⟨(taken_free hmount hvalid htaken).2.1,
          taken_not_released hmount hvalid htaken, Or.inl htaken⟩
  · rintro key b hgained ⟨-, hmarked⟩
    exact (taken_free hmount hvalid (mem_taken_of_gained hvalid hgained)).2.2
      hmarked

/-! Objects. -/

/-- The objects of the new graph are old ones or the new one. -/
theorem Change.node_cases (hvalid : change.Valid world names) {disk' : Disk}
    (hshows : change.Shows world.disk disk') {q : List Slot}
    {names' : List Name} {j : Nat} (hq : disk'.node q = some (names', j)) :
    (∃ names'', world.disk.node q = some (names'', j)) ∨
      ∃ inode, change.newInode = some (j, inode) := by
  cases change with
  | attributes | shrink | write =>
      have hrw := Change.inodeRewrite hmount hvalid hshows rfl
      exact Or.inl ⟨names', (hrw.node_eq q).symm.trans hq⟩
  | relabel path inum slot name =>
      obtain ⟨hrw, hentries⟩ := Change.entryRewrite hmount hvalid hshows rfl
      have hself := congrFun hentries slot
      rw [Function.update_self] at hself
      exact Or.inl (hrw.node_relabel hvalid.1.valid (by rw [hself]) hq)
  | insert path inum slot name inode dirflag blocks =>
      obtain ⟨hrw, -⟩ := Change.entryRewrite hmount hvalid hshows rfl
      obtain ⟨hedge, hleaf⟩ := InsertOk.leaf hmount hvalid hshows
      by_cases hsite : path ++ [slot] <+: q
      · obtain ⟨q, rfl⟩ := hsite
        rw [hrw.node_inserted hedge hleaf q] at hq
        split at hq
        · cases hq
          exact Or.inr ⟨inode, rfl⟩
        · cases hq
      · exact Or.inl ⟨names', (hrw.node_eq hsite).symm.trans hq⟩
  | remove path inum slot blocks =>
      obtain ⟨hrw, hentries⟩ := Change.entryRewrite hmount hvalid hshows rfl
      have hself := congrFun hentries slot
      rw [Function.update_self] at hself
      by_cases hsite : path ++ [slot] <+: q
      · rw [hrw.node_removed (by rw [hself]) hsite] at hq
        cases hq
      · exact Or.inl ⟨names', (hrw.node_eq hsite).symm.trans hq⟩

omit hmount in
/-- A new object is in order. -/
theorem Change.newInode_ok (hvalid : change.Valid world names) {disk' : Disk}
    (hshows : change.Shows world.disk disk') {j : Nat} {inode : FsInode}
    (hnew : change.newInode = some (j, inode)) : ObjectOk disk' j := by
  cases change with
  | insert path inum slot name inode' dirflag blocks =>
      cases hnew
      exact (InsertOk.inode hvalid).object hshows.child.1 hshows.child.2
  | attributes | relabel | remove | shrink | write => cases hnew

/-- After a change, every object of the graph is in order. -/
theorem Change.object (hvalid : change.Valid world names) {disk' : Disk}
    (hshows : change.Shows world.disk disk') (q : List Slot)
    (names' : List Name) (j : Nat) (hq : disk'.node q = some (names', j)) :
    ObjectOk disk' j := by
  have hcons := hmount.consistent
  have hnodes : ∀ q names' j, disk'.node q = some (names', j) →
      (∃ names'', world.disk.node q = some (names'', j)) ∨
        ObjectOk disk' j := by
    intro q names' j hq
    rcases Change.node_cases hmount hvalid hshows hq with
      hold | ⟨inode, hnew⟩
    · exact Or.inl hold
    · exact Or.inr (Change.newInode_ok hvalid hshows hnew)
  cases change with
  | attributes path inum inode =>
      have hrw := Change.inodeRewrite hmount hvalid hshows rfl
      have hobject := hcons.object _ _ _ hvalid.node
      have hinode := hshows.inode path inum inode rfl
      refine hrw.object hcons ⟨?_, ?_, ?_⟩ q names' j hq
      · rw [hinode, hvalid.isReg, hvalid.isDir, hvalid.size]
        exact hobject.kind
      · rw [hinode, hvalid.isReg, hvalid.size]
        exact hobject.size_range
      · rw [hinode, hvalid.isDir]
        intro hdir
        rw [hrw.entries_eq hvalid.node hdir]
        exact hobject.names hdir
  | shrink path inum len =>
      have hrw := Change.inodeRewrite hmount hvalid hshows rfl
      have hcount := (hcons.object _ _ _ hvalid.node).blockCount_le
      have hinode := hshows.inode path inum _ rfl
      have hlen : len ≤ 4173824 := by
        have hle := hvalid.le
        rw [blockCount] at hle
        omega
      refine hrw.object hcons (ObjectOk.of_isReg ?_ ?_) q names' j hq
      · rw [hinode]
        exact hvalid.isReg
      · rw [hinode, FsInode.shrink_size _ len (by omega)]
        omega
  | write path inum offset buf mtime fresh =>
      have hrw := Change.inodeRewrite hmount hvalid hshows rfl
      have hobject := hcons.object _ _ _ hvalid.node
      have hlength := hobject.length_le
      have hlimit := hvalid.limit
      have hinode := hshows.inode path inum _ rfl
      refine hrw.object hcons (ObjectOk.of_isReg ?_ ?_) q names' j hq
      · rw [hinode]
        exact hvalid.isReg
      · rw [hinode, FsInode.extend_size _ _ _ _
          (hobject.size_range hvalid.isReg).1 (by omega)]
        omega
  | relabel path inum slot name =>
      obtain ⟨hrw, hentries⟩ := Change.entryRewrite hmount hvalid hshows rfl
      have hdirectory := (hcons.object _ _ _ hvalid.1.node).names hvalid.1.isDir
      refine hrw.object hcons ?_ hnodes q names' j hq
      rw [hentries]
      have hlast : (fun _ => 0 : Fin 28 → UInt8) 27 = 0 := rfl
      exact (hdirectory.update_named slot hlast hvalid.2.valid
        hvalid.2.fresh rfl).2
  | insert path inum slot name inode dirflag blocks =>
      obtain ⟨hrw, hentries⟩ := Change.entryRewrite hmount hvalid hshows rfl
      have hdirectory := (hcons.object _ _ _ hvalid.node).names hvalid.isDir
      refine hrw.object hcons ?_ hnodes q names' j hq
      rw [hentries]
      exact (hdirectory.update_named slot (hdirectory.last_zero slot)
        hvalid.name.valid hvalid.name.fresh rfl).2
  | remove path inum slot blocks =>
      obtain ⟨hrw, hentries⟩ := Change.entryRewrite hmount hvalid hshows rfl
      have hdirectory :=
        (hcons.object _ _ _ hvalid.entry.node).names hvalid.entry.isDir
      refine hrw.object hcons ?_ hnodes q names' j hq
      rw [hentries]
      refine hdirectory.update slot (hdirectory.last_zero slot) fun hfalse =>
        ?_
      cases hfalse

theorem Change.root_dir (hvalid : change.Valid world names) {disk' : Disk}
    (hshows : change.Shows world.disk disk') :
    (disk'.inode 2).isDir = true := by
  have hroot := hmount.consistent.root_dir
  cases change with
  | attributes | shrink | write =>
      have hrw := Change.inodeRewrite hmount hvalid hshows rfl
      rw [hrw.isDir_eq Disk.node_nil]
      exact hroot
  | relabel | insert | remove =>
      obtain ⟨hrw, -⟩ := Change.entryRewrite hmount hvalid hshows rfl
      rw [hrw.inode_eq Disk.node_nil]
      exact hroot

omit hmount in
/-- The root inode is never dropped. -/
theorem Change.root_kept : ¬ change.dropped ([], .inode) := by
  cases change with
  | remove path inum slot blocks =>
      intro hpre
      have hlength := hpre.length_le
      simp at hlength
  | shrink => exact fun hfalse => hfalse.2
  | attributes | relabel | insert | write => exact id

/-- A visible change with its bitmap stored leaves a consistent image. -/
theorem Change.consistent (hvalid : change.Valid world names) {disk' : Disk}
    (hshows : change.Shows world.disk disk')
    (hmap : disk' 1 = change.map world.disk) :
    Consistent disk' world.device.size := by
  have hcons := hmount.consistent
  have htransfer := Change.transfer hmount hvalid hshows
  have hsound := htransfer.sound hcons.sound
  have hsize := hshows.diskSize hmount hvalid
  refine ⟨hsize.trans_le hcons.size_le, hsize.trans_le hcons.size_fits, ?_,
    Change.root_dir hmount hvalid hshows, Change.object hmount hvalid hshows,
    ?_, hsound.exclusive⟩
  · intro b hb
    rw [hmap, Change.marked_map hmount hvalid]
    refine ⟨fun hreleased => ?_, Or.inr (hcons.reserved b hb)⟩
    obtain ⟨key, -, hheld⟩ := Change.released_dropped hvalid hreleased
    have hlow := (hcons.range key b hheld).1
    obtain rfl : b = 2 := by omega
    have hroot : world.disk.holder ([], .inode) = some 2 :=
      Disk.holder_inode Disk.node_nil
    exact htransfer.not_released hcons.sound
      (show (world.disk.ledger (world.disk 1)).hold ([], .inode) = some 2
        from hroot) Change.root_kept hreleased
  · intro key b hkey
    obtain ⟨hlt, hmarked⟩ := hsound.marked key b hkey
    rw [← hmap] at hmarked
    refine ⟨?_, hlt, hmarked⟩
    rcases (Change.holder_iff hmount hvalid hshows key b).mp hkey with
      ⟨hheld, -⟩ | hgained
    · exact (hcons.range key b hheld).1
    · have hfree := Change.taken_free hmount hvalid
        (Change.mem_taken_of_gained hvalid hgained)
      omega

/-- A mounted file system stays mounted. -/
theorem Change.mounted (hvalid : change.Valid world names) :
    Mounted (change.apply world) := by
  have hshows := Change.apply_shows hmount hvalid
  have hmap := Change.apply_bitmap hmount hvalid
  have hglobals : (change.apply world).globals = change.settle world :=
    Change.apply_globals hmount
  refine ⟨?_, ?_, ?_, ?_⟩
  · rw [Change.apply_device.1]
    exact Change.consistent hmount hvalid hshows hmap
  · rw [Change.apply_device.2]
    exact hmount.reads
  · rw [hglobals, hmap, Change.settle]
    cases change.delta world.disk <;> rfl
  · rw [hglobals, hshows.superblock hmount hvalid, ← hmount.superblock,
      Change.settle]
    cases change.delta world.disk <;> rfl

end

end Fs5600
