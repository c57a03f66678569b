/-
How the graph of an image and the ownership of its blocks change when one
inode or one directory entry is rewritten.
-/
import Fs5600.Change

namespace Fs5600

open LabelledWalk

/-- Who holds which block, and the blocks marked in a bitmap. -/
def Disk.ledger (disk : Disk) (map : Block) :
    Ledger (List Slot × Role) Nat where
  hold := disk.holder
  marked := {b | b < disk.diskSize ∧ Marked map b}

section

variable {disk disk' : Disk} {size : Nat} {path : List Slot}
  {names : List Name} {i : Nat}

theorem Consistent.sound (hcons : Consistent disk size) :
    (disk.ledger (disk 1)).Sound :=
  ⟨hcons.exclusive, fun key b hkey => (hcons.range key b hkey).2⟩

theorem ObjectOk.congr {i : Nat} (hobject : ObjectOk disk i)
    (hinode : disk'.inode i = disk.inode i)
    (hentries : (disk.inode i).isDir = true →
      disk'.entries i = disk.entries i) : ObjectOk disk' i := by
  refine ⟨?_, ?_, ?_⟩
  · rw [hinode]
    exact hobject.kind
  · rw [hinode]
    exact hobject.size_range
  · rw [hinode]
    intro hdir
    rw [hentries hdir]
    exact hobject.names hdir

/-- Keys that hold the same block are the same key. -/
theorem Consistent.holder_ne (hcons : Consistent disk size)
    {key key' : List Slot × Role} {b b' : Nat}
    (hkey : disk.holder key = some b) (hkey' : disk.holder key' = some b')
    (hne : key ≠ key') : b ≠ b' := by
  rintro rfl
  exact hne (hcons.exclusive _ _ _ hkey hkey')

/-- Whoever leaves all marked blocks alone but the bitmap, one inode and the
data blocks of that inode, rewrites an inode. -/
theorem Consistent.inodeRewrite (hcons : Consistent disk size)
    (hnode : disk.node path = some (names, i))
    (hagree : ∀ b, Marked (disk 1) b → b ≠ 1 → b ≠ i →
      (∀ k, disk.holder (path, .data k) ≠ some b) → disk' b = disk b)
    (hkind : (disk'.inode i).isDir = (disk.inode i).isDir)
    (hblock : (disk.inode i).isDir = true →
      (disk'.inode i).ptr 0 = (disk.inode i).ptr 0) :
    Disk.InodeRewrite disk disk' path names i := by
  refine ⟨hnode, ?_, hkind, hblock⟩
  intro q role b hkept hholder
  obtain ⟨hlow, -, hmarked⟩ := hcons.range _ _ hholder
  refine hagree b hmarked (by omega) ?_ ?_
  · refine hcons.holder_ne hholder (Disk.holder_inode hnode) ?_
    rintro ⟨rfl, rfl⟩
    simp at hkept
  · intro k hdata
    refine hcons.holder_ne hholder hdata ?_ rfl
    rintro ⟨rfl, rfl⟩
    simp at hkept

/-- Whoever leaves all marked blocks alone but the bitmap and the block of one
directory, and there all entries but one, rewrites an entry. -/
theorem Consistent.entryRewrite (hcons : Consistent disk size)
    (hnode : disk.node path = some (names, i))
    (hdir : (disk.inode i).isDir = true) {slot : Slot} {entry : FsDirent}
    (hagree : ∀ b, Marked (disk 1) b → b ≠ 1 →
      b ≠ (disk.inode i).ptr 0 → disk' b = disk b)
    (hentries : disk' ((disk.inode i).ptr 0) =
      Directory.encode (Function.update (disk.entries i) slot entry)) :
    Disk.EntryRewrite disk disk' path names i slot ∧
      disk'.entries i = Function.update (disk.entries i) slot entry := by
  have hblock := Disk.holder_entries hnode hdir
  have hself := Disk.holder_inode hnode
  have hne : i ≠ (disk.inode i).ptr 0 :=
    hcons.holder_ne hself hblock (by simp)
  obtain ⟨hlow, -, hmarked⟩ := hcons.range _ _ hself
  have hinode : disk'.inode i = disk.inode i :=
    Disk.inode_congr (hagree i hmarked (by omega) hne)
  have hnew : disk'.entries i =
      Function.update (disk.entries i) slot entry := by
    rw [Disk.entries, hinode, hentries, Directory.decode_encode]
  refine ⟨⟨hnode, hdir, ?_, ?_⟩, hnew⟩
  · intro q role b hkept hholder
    obtain ⟨hlow, -, hmarked⟩ := hcons.range _ _ hholder
    refine hagree b hmarked (by omega) ?_
    refine hcons.holder_ne hholder hblock ?_
    rintro ⟨rfl, rfl⟩
    simp at hkept
  · intro slot' hslot
    rw [hnew, Function.update_of_ne hslot]

/-! Rewritten inodes. -/

theorem FsInode.owned_congr {inode inode' : FsInode} (i : Nat)
    (hdir : inode'.isDir = inode.isDir) (hreg : inode'.isReg = inode.isReg)
    (hsize : inode'.size = inode.size) (hptrs : inode'.ptrs = inode.ptrs) :
    inode'.owned i = inode.owned i := by
  have hptr : inode'.ptr = inode.ptr := by
    funext k
    rw [FsInode.ptr, FsInode.ptr, hptrs]
  funext role
  cases role with
  | inode => rfl
  | entries => rw [FsInode.owned, FsInode.owned, hdir, hptr]
  | data k =>
      rw [FsInode.owned, FsInode.owned, hreg, hptr, FsInode.length,
        FsInode.length, hsize]

theorem Disk.InodeRewrite.object
    (hrw : Disk.InodeRewrite disk disk' path names i)
    (hcons : Consistent disk size) (hnew : ObjectOk disk' i) :
    ∀ q names' j, disk'.node q = some (names', j) → ObjectOk disk' j := by
  intro q names' j hq
  rw [hrw.node_eq] at hq
  by_cases hpath : q = path
  · subst hpath
    rw [hrw.eq_inum hq]
    exact hnew
  · exact (hcons.object q names' j hq).congr (hrw.inode_eq hq hpath)
      (hrw.entries_eq hq)

/-- Ownership follows what the rewritten inode holds. -/
theorem Disk.InodeRewrite.holder_iff
    (hrw : Disk.InodeRewrite disk disk' path names i) (drop : Role → Prop)
    (gain : Role → Option Nat)
    (howned : ∀ role b, disk'.owned i role = some b ↔
      (disk.owned i role = some b ∧ ¬ drop role) ∨ gain role = some b)
    (key : List Slot × Role) (b : Nat) :
    disk'.holder key = some b ↔
      (disk.holder key = some b ∧ ¬ (key.1 = path ∧ drop key.2)) ∨
        (if key.1 = path then gain key.2 else none) = some b := by
  obtain ⟨q, role⟩ := key
  by_cases hpath : q = path
  · subst hpath
    rw [hrw.holder_site, Disk.holder_of_node hrw.node, howned]
    simp
  · rw [hrw.holder_eq hpath]
    simp [hpath]

/-- Data blocks from `count` on. -/
def Role.Beyond (count : Nat) : Role → Prop
  | .data k => count ≤ k
  | _ => False

theorem FsInode.owned_shrink {inode : FsInode} (i : Nat) {len : Nat}
    (hreg : inode.isReg = true) (hlen : len < 2147483648)
    (hle : blockCount len ≤ blockCount inode.length) (role : Role) (b : Nat) :
    (inode.shrink len).owned i role = some b ↔
      inode.owned i role = some b ∧ ¬ Role.Beyond (blockCount len) role := by
  have hdir := sIsDir_of_sIsReg hreg
  cases role with
  | inode => simp [FsInode.owned, Role.Beyond]
  | entries =>
      simp only [FsInode.owned, FsInode.isDir, FsInode.shrink_mode, hdir]
      simp
  | data k =>
      simp only [FsInode.owned, FsInode.isReg, FsInode.shrink_mode,
        inode.shrink_length len hlen, Role.Beyond]
      rw [FsInode.isReg] at hreg
      by_cases hk : k < blockCount len
      · rw [inode.shrink_ptr len (Or.inl hk)]
        simp [hreg, hk, hk.trans_le hle]
      · simp [hk]

/-- Fresh data blocks behind the first `count`. -/
def freshRole (count : Nat) (fresh : List Nat) : Role → Option Nat
  | .data k => if count ≤ k then fresh[k - count]? else none
  | _ => none

theorem FsInode.owned_extend {inode : FsInode} (i : Nat)
    {fresh : List Nat} {stop : Nat} (mtime : UInt32)
    (hreg : inode.isReg = true) (hsize : 0 ≤ inode.size.toInt)
    (hlength : fresh.length = blockCount stop - blockCount inode.length)
    (hstop : blockCount stop ≤ 1019) (hlt : stop < 2147483648)
    (hword : ∀ b ∈ fresh, b < 4294967296) (role : Role) (b : Nat) :
    (inode.extend fresh stop mtime).owned i role = some b ↔
      inode.owned i role = some b ∨
        freshRole (blockCount inode.length) fresh role = some b := by
  have hdir := sIsDir_of_sIsReg hreg
  cases role with
  | inode => simp [FsInode.owned, freshRole]
  | entries =>
      simp only [FsInode.owned, FsInode.isDir, FsInode.extend_mode, hdir]
      simp [freshRole]
  | data k =>
      simp only [FsInode.owned, FsInode.isReg, FsInode.extend_mode,
        inode.extend_length fresh stop mtime hsize hlt, freshRole,
        blockCount_max]
      rw [FsInode.isReg] at hreg
      rcases Nat.lt_or_ge k (blockCount inode.length) with hold | hnew
      · rw [inode.extend_ptr fresh stop mtime (Or.inl hold)]
        simp [hreg, hold, Nat.not_le.mpr hold]
      · obtain ⟨j, rfl⟩ := Nat.exists_eq_add_of_le hnew
        rcases Nat.lt_or_ge j fresh.length with hj | hj
        · rw [inode.extend_ptr_fresh fresh stop mtime hj (by omega)
            (hword _ (List.getElem_mem hj)), Nat.add_sub_cancel_left,
            List.getElem?_eq_getElem hj]
          have hin : blockCount inode.length + j < blockCount stop := by omega
          simp [hreg, hin]
        · have hout : ¬ blockCount inode.length + j <
              max (blockCount inode.length) (blockCount stop) := by omega
          rw [Nat.add_sub_cancel_left, List.getElem?_eq_none hj]
          simp [hout]

/-! Rewritten entries. -/

section

variable {slot : Slot} (hrw : Disk.EntryRewrite disk disk' path names i slot)

include hrw

/-- A new name moves no object and no block. -/
theorem Disk.EntryRewrite.holder_relabel
    (hvalid : (disk.entries i slot).valid = true)
    (hvalid' : (disk'.entries i slot).valid = true)
    (hinode : (disk'.entries i slot).inode = (disk.entries i slot).inode)
    (key : List Slot × Role) : disk'.holder key = disk.holder key := by
  obtain ⟨q, role⟩ := key
  by_cases hsite : path ++ [slot] <+: q
  · obtain ⟨q, rfl⟩ := hsite
    have hedge := Disk.edge_eq_some.mpr ⟨hrw.isDir, hvalid, rfl⟩
    have hedge' := Disk.edge_eq_some.mpr ⟨hrw.isDir_eq, hvalid', rfl⟩
    have hold := Disk.node_behind hrw.node slot q
    have hnew := Disk.node_behind hrw.node_path slot q
    rw [hedge, Option.bind_some] at hold
    rw [hedge', Option.bind_some] at hnew
    dsimp only at hold hnew
    rw [hinode, hrw.walk_eq hedge] at hnew
    cases hwalk : walk disk.edge (disk.entries i slot).inode.toNat q with
    | none =>
        rw [hwalk] at hold hnew
        rw [Disk.holder_of_node_none hnew, Disk.holder_of_node_none hold]
    | some tail =>
        rw [hwalk] at hold hnew
        rw [Disk.holder_of_node hnew, Disk.holder_of_node hold, Disk.owned,
          Disk.owned, hrw.inode_eq hold]
  · exact hrw.holder_eq hsite role

/-- An invalid entry takes everything behind it out of the graph. -/
theorem Disk.EntryRewrite.holder_remove
    (hinvalid : (disk'.entries i slot).valid = false)
    (key : List Slot × Role) (b : Nat) :
    disk'.holder key = some b ↔
      disk.holder key = some b ∧ ¬ path ++ [slot] <+: key.1 := by
  obtain ⟨q, role⟩ := key
  by_cases hsite : path ++ [slot] <+: q
  · rw [Disk.holder_of_node_none (hrw.node_removed hinvalid hsite)]
    simp [hsite]
  · rw [hrw.holder_eq hsite]
    simp [hsite]

/-- A new leaf adds what it holds. -/
theorem Disk.EntryRewrite.holder_insert
    (hinvalid : (disk.entries i slot).valid = false) {name : Name}
    {child : Nat} (hedge : disk'.edge i slot = some (name, child))
    (hleaf : ∀ slot', disk'.edge child slot' = none)
    (key : List Slot × Role) (b : Nat) :
    disk'.holder key = some b ↔
      disk.holder key = some b ∨
        (if key.1 = path ++ [slot] then disk'.owned child key.2
          else none) = some b := by
  obtain ⟨q, role⟩ := key
  by_cases hsite : path ++ [slot] <+: q
  · obtain ⟨q, rfl⟩ := hsite
    have hold : disk.node (path ++ [slot] ++ q) = none := by
      rw [Disk.node_behind hrw.node]
      simp [Disk.edge, hinvalid]
    have hnew := hrw.node_inserted hedge hleaf q
    rw [Disk.holder_of_node_none hold]
    by_cases hnil : q = []
    · rw [if_pos hnil] at hnew
      rw [Disk.holder_of_node hnew, hnil]
      simp
    · rw [if_neg hnil] at hnew
      rw [Disk.holder_of_node_none hnew]
      simp [hnil]
  · have hne : q ≠ path ++ [slot] := by
      rintro rfl
      exact hsite List.prefix_rfl
    rw [hrw.holder_eq hsite]
    simp [hne]

theorem Disk.EntryRewrite.node_relabel
    (hvalid : (disk.entries i slot).valid = true)
    (hinode : (disk'.entries i slot).inode = (disk.entries i slot).inode)
    {q : List Slot} {names' : List Name} {j : Nat}
    (hq : disk'.node q = some (names', j)) :
    ∃ names'', disk.node q = some (names'', j) := by
  by_cases hsite : path ++ [slot] <+: q
  · obtain ⟨q, rfl⟩ := hsite
    have hedge := Disk.edge_eq_some.mpr ⟨hrw.isDir, hvalid, rfl⟩
    rw [Disk.node_behind hrw.node_path, Option.bind_eq_some_iff] at hq
    obtain ⟨hop, hhop, htail⟩ := hq
    obtain ⟨-, -, rfl⟩ := Disk.edge_eq_some.mp hhop
    dsimp only at htail
    rw [hinode, hrw.walk_eq hedge] at htail
    obtain ⟨tail, hwalk, htail⟩ := Option.map_eq_some_iff.mp htail
    cases htail
    refine ⟨names ++ (disk.entries i slot).nameString :: tail.1, ?_⟩
    rw [Disk.node_behind hrw.node, hedge, Option.bind_some]
    dsimp only
    rw [hwalk]
    rfl
  · rw [hrw.node_eq hsite] at hq
    exact ⟨names', hq⟩

/-- The objects of the new graph are old ones, or in order by themselves. -/
theorem Disk.EntryRewrite.object (hcons : Consistent disk size)
    (hentries : DirectoryOk (disk'.entries i))
    (hnodes : ∀ q names' j, disk'.node q = some (names', j) →
      (∃ names'', disk.node q = some (names'', j)) ∨ ObjectOk disk' j)
    (q : List Slot) (names' : List Name) (j : Nat)
    (hq : disk'.node q = some (names', j)) : ObjectOk disk' j := by
  rcases hnodes q names' j hq with ⟨names'', hold⟩ | hnew
  · have hobject := hcons.object q names'' j hold
    by_cases hpath : q = path
    · subst hpath
      have hsame := hrw.node
      rw [hold, Option.some.injEq, Prod.mk.injEq] at hsame
      obtain ⟨rfl, rfl⟩ := hsame
      have hinode := hrw.inode_eq hold
      refine ⟨?_, ?_, fun _ => hentries⟩
      · rw [hinode]
        exact hobject.kind
      · rw [hinode]
        exact hobject.size_range
    · exact hobject.congr (hrw.inode_eq hold) (hrw.entries_eq hold hpath)
  · exact hnew

end

/-! Rewritten directories. -/

theorem DirectoryOk.update {dir : Directory} (hdir : DirectoryOk dir)
    (slot : Slot) {entry : FsDirent} (hlast : entry.name 27 = 0)
    (hname : entry.valid = true → ValidName entry.nameString ∧
      ∀ slot', (dir slot').valid = true →
        (dir slot').nameString = entry.nameString → slot' = slot) :
    DirectoryOk (Function.update dir slot entry) := by
  have hself : Function.update dir slot entry slot = entry :=
    Function.update_self _ _ _
  have hother : ∀ slot', slot' ≠ slot →
      Function.update dir slot entry slot' = dir slot' :=
    fun slot' hne => Function.update_of_ne hne _ _
  refine ⟨?_, ?_, ?_, ?_⟩
  · intro slot'
    by_cases heq : slot' = slot
    · rw [heq, hself, hlast]
    · rw [hother slot' heq, hdir.last_zero]
  · intro slot' hvalid
    by_cases heq : slot' = slot
    · rw [heq, hself] at hvalid ⊢
      exact (hname hvalid).1.ne_nil
    · rw [hother slot' heq] at hvalid ⊢
      exact hdir.nonempty slot' hvalid
  · intro slot' hvalid
    by_cases heq : slot' = slot
    · rw [heq, hself] at hvalid ⊢
      exact (hname hvalid).1.slash_free
    · rw [hother slot' heq] at hvalid ⊢
      exact hdir.slash_free slot' hvalid
  · intro first second hfirst hsecond hsame
    by_cases heq₁ : first = slot
    · by_cases heq₂ : second = slot
      · rw [heq₁, heq₂]
      · rw [heq₁, hself] at hfirst hsame
        rw [hother second heq₂] at hsecond hsame
        rw [heq₁, (hname hfirst).2 second hsecond hsame.symm]
    · rw [hother first heq₁] at hfirst hsame
      by_cases heq₂ : second = slot
      · rw [heq₂, hself] at hsecond hsame
        rw [heq₂, (hname hsecond).2 first hfirst hsame]
      · rw [hother second heq₂] at hsecond hsame
        exact hdir.distinct first second hfirst hsecond hsame

/-- An entry that receives a name that no valid entry has. -/
theorem DirectoryOk.update_named {dir : Directory} (hdir : DirectoryOk dir)
    (slot : Slot) {entry : FsDirent} {field : Fin 28 → UInt8} {name : Name}
    (hlast : field 27 = 0) (hvalid : ValidName name)
    (hfresh : firstNamed dir name = none)
    (hentry : entry.name = strncpy field name) :
    entry.nameString = name ∧
      DirectoryOk (Function.update dir slot entry) := by
  have hname := nameString_strncpy entry field name hvalid hlast hentry
  refine ⟨hname, hdir.update slot ?_ fun _ => ?_⟩
  · rw [hentry, strncpy_last, hlast]
  · rw [hname]
    refine ⟨hvalid, fun slot' hvalid' hsame => ?_⟩
    exact absurd hsame (firstNamed_eq_none.mp hfresh slot' hvalid')

end

end Fs5600
