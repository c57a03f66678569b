/-
What overwriting blocks does to the graph of an image.  Blocks that no object
holds are invisible to the graph; rewriting one inode leaves the graph as it
is, and rewriting one entry of one directory moves only what lies behind it.
-/
import Fs5600.Image

namespace Fs5600

open LabelledWalk

namespace Disk

variable {disk disk' : Disk}

theorem holder_eq_some {path : List Slot} {role : Role} {b : Nat} :
    disk.holder (path, role) = some b ↔
      ∃ names i, disk.node path = some (names, i) ∧
        disk.owned i role = some b := by
  rw [holder, LabelledWalk.holder_eq_some]
  simp only [Prod.exists]
  rfl

theorem holder_of_node {path : List Slot} {names : List Name} {i : Nat}
    (hnode : disk.node path = some (names, i)) (role : Role) :
    disk.holder (path, role) = disk.owned i role := by
  simp only [holder, LabelledWalk.holder]
  rw [show walk disk.edge 2 path = some (names, i) from hnode]
  rfl

theorem holder_of_node_none {path : List Slot} {role : Role}
    (hnode : disk.node path = none) : disk.holder (path, role) = none := by
  simp only [holder, LabelledWalk.holder]
  rw [show walk disk.edge 2 path = none from hnode]
  rfl

theorem holder_inode {path : List Slot} {names : List Name} {i : Nat}
    (hnode : disk.node path = some (names, i)) :
    disk.holder (path, .inode) = some i := holder_of_node hnode .inode

theorem holder_entries {path : List Slot} {names : List Name} {i : Nat}
    (hnode : disk.node path = some (names, i))
    (hdir : (disk.inode i).isDir = true) :
    disk.holder (path, .entries) = some ((disk.inode i).ptr 0) := by
  rw [holder_of_node hnode, owned, FsInode.owned, if_pos hdir]

theorem holder_data {path : List Slot} {names : List Name} {i : Nat}
    (hnode : disk.node path = some (names, i))
    (hreg : (disk.inode i).isReg = true) {k : Nat}
    (hk : k < blockCount (disk.inode i).length) :
    disk.holder (path, .data k) = some ((disk.inode i).ptr k) := by
  rw [holder_of_node hnode, owned, FsInode.owned, if_pos ⟨hreg, hk⟩]

@[simp] theorem node_nil : disk.node [] = some ([], 2) := rfl

theorem inode_congr {i : Nat} (hinode : disk' i = disk i) :
    disk'.inode i = disk.inode i := congrArg FsInode.decode hinode

theorem entries_congr {i : Nat}
    (hptr : (disk'.inode i).ptr 0 = (disk.inode i).ptr 0)
    (hentries : disk' ((disk.inode i).ptr 0) =
      disk ((disk.inode i).ptr 0)) :
    disk'.entries i = disk.entries i := by
  rw [entries, hptr, hentries, entries]

theorem edge_congr {i : Nat} {slot : Slot}
    (hdir : (disk'.inode i).isDir = (disk.inode i).isDir)
    (hslot : (disk.inode i).isDir = true →
      disk'.entries i slot = disk.entries i slot) :
    disk'.edge i slot = disk.edge i slot := by
  by_cases hisDir : (disk.inode i).isDir = true
  · rw [edge, edge, hdir, hslot hisDir]
  · rw [edge, edge, hdir, if_neg (fun h => hisDir h.1),
      if_neg (fun h => hisDir h.1)]

theorem edge_eq_some {i : Nat} {slot : Slot} {hop : Name × Nat} :
    disk.edge i slot = some hop ↔
      (disk.inode i).isDir = true ∧ (disk.entries i slot).valid = true ∧
        hop = ((disk.entries i slot).nameString,
          (disk.entries i slot).inode.toNat) := by
  rw [edge]
  split
  next h => simp [h, eq_comm]
  next h =>
    constructor
    · exact fun hfalse => absurd hfalse (by simp)
    · exact fun hall => absurd ⟨hall.1, hall.2.1⟩ h

/-- One more edge is one more slot. -/
theorem node_child {path : List Slot} {names : List Name} {i : Nat}
    (hnode : disk.node path = some (names, i)) {slot : Slot}
    {hop : Name × Nat} (hedge : disk.edge i slot = some hop) :
    disk.node (path ++ [slot]) = some (names ++ [hop.1], hop.2) := by
  rw [node, walk_snoc,
    show walk disk.edge 2 path = some (names, i) from hnode,
    Option.bind_some, hedge, Option.map_some]

/-! Rewriting the inode of one object. -/

section InodeRewrite

variable {path : List Slot} {names : List Name} {i : Nat}

/-- Only the inode at `path`, its data blocks and blocks outside the graph are
rewritten, and the inode keeps its kind and, if it is a directory, its
block. -/
structure InodeRewrite (disk disk' : Disk) (path : List Slot)
    (names : List Name) (i : Nat) : Prop where
  node : disk.node path = some (names, i)
  keeps : ∀ q role b, q ≠ path ∨ role = .entries →
    disk.holder (q, role) = some b → disk' b = disk b
  kind : (disk'.inode i).isDir = (disk.inode i).isDir
  block : (disk.inode i).isDir = true →
    (disk'.inode i).ptr 0 = (disk.inode i).ptr 0

variable (hrw : InodeRewrite disk disk' path names i) {q : List Slot}
  {names' : List Name} {j : Nat}

include hrw

theorem InodeRewrite.inode_eq (hq : disk.node q = some (names', j))
    (hne : q ≠ path) : disk'.inode j = disk.inode j :=
  inode_congr (hrw.keeps q .inode j (Or.inl hne) (holder_inode hq))

theorem InodeRewrite.eq_inum (hq : disk.node path = some (names', j)) :
    j = i := by
  have hnode := hrw.node
  rw [hq, Option.some.injEq] at hnode
  exact congrArg Prod.snd hnode

theorem InodeRewrite.isDir_eq (hq : disk.node q = some (names', j)) :
    (disk'.inode j).isDir = (disk.inode j).isDir := by
  by_cases hpath : q = path
  · subst hpath
    rw [hrw.eq_inum hq, hrw.kind]
  · rw [hrw.inode_eq hq hpath]

theorem InodeRewrite.entries_eq (hq : disk.node q = some (names', j))
    (hdir : (disk.inode j).isDir = true) :
    disk'.entries j = disk.entries j := by
  apply entries_congr
  · by_cases hpath : q = path
    · subst hpath
      rw [hrw.eq_inum hq] at hdir ⊢
      exact hrw.block hdir
    · rw [hrw.inode_eq hq hpath]
  · exact hrw.keeps q .entries _ (Or.inr rfl) (holder_entries hq hdir)

theorem InodeRewrite.node_eq (q : List Slot) :
    disk'.node q = disk.node q := by
  refine walk_congr 2 ?_ q
  rintro q slot ⟨names', j⟩ hq
  refine edge_congr (hrw.isDir_eq hq) fun hdir => ?_
  rw [hrw.entries_eq hq hdir]

theorem InodeRewrite.holder_eq (hne : q ≠ path) (role : Role) :
    disk'.holder (q, role) = disk.holder (q, role) := by
  cases hq : disk.node q with
  | none =>
      rw [holder_of_node_none hq,
        holder_of_node_none ((hrw.node_eq q).trans hq)]
  | some there =>
      obtain ⟨names', j⟩ := there
      rw [holder_of_node hq, holder_of_node ((hrw.node_eq q).trans hq),
        owned, owned, hrw.inode_eq hq hne]

theorem InodeRewrite.holder_site (role : Role) :
    disk'.holder (path, role) = disk'.owned i role :=
  holder_of_node ((hrw.node_eq path).trans hrw.node) role

end InodeRewrite

/-! Rewriting one entry of one directory. -/

/-- What lies behind an entry. -/
theorem node_behind {path : List Slot} {names : List Name} {i : Nat}
    (hnode : disk.node path = some (names, i)) (slot : Slot)
    (q : List Slot) :
    disk.node (path ++ [slot] ++ q) =
      (disk.edge i slot).bind fun hop =>
        (walk disk.edge hop.2 q).map fun tail =>
          (names ++ hop.1 :: tail.1, tail.2) := by
  change walk disk.edge 2 (path ++ [slot] ++ q) = _
  rw [List.append_assoc, walk_append,
    show walk disk.edge 2 path = some (names, i) from hnode,
    Option.bind_some, List.singleton_append, walk_cons]
  cases disk.edge i slot with
  | none => rfl
  | some hop => cases hwalk : walk disk.edge hop.2 q <;> simp [hwalk]

theorem site_not_below (path : List Slot) (slot : Slot) :
    ¬ path ++ [slot] <+: path := by
  intro hpre
  have hlen := hpre.length_le
  simp only [List.length_append, List.length_singleton] at hlen
  omega

section EntryRewrite

variable {path : List Slot} {names : List Name} {i : Nat} {slot : Slot}

/-- Only the directory block at `path` and blocks outside the graph are
rewritten, and in the directory block only the entry `slot`. -/
structure EntryRewrite (disk disk' : Disk) (path : List Slot)
    (names : List Name) (i : Nat) (slot : Slot) : Prop where
  node : disk.node path = some (names, i)
  isDir : (disk.inode i).isDir = true
  keeps : ∀ q role b, q ≠ path ∨ role ≠ .entries →
    disk.holder (q, role) = some b → disk' b = disk b
  others : ∀ slot', slot' ≠ slot →
    disk'.entries i slot' = disk.entries i slot'

variable (hrw : EntryRewrite disk disk' path names i slot) {q : List Slot}
  {names' : List Name} {j : Nat}

include hrw

theorem EntryRewrite.inode_eq (hq : disk.node q = some (names', j)) :
    disk'.inode j = disk.inode j :=
  inode_congr (hrw.keeps q .inode j (Or.inr (by simp))
    (holder_inode hq))

theorem EntryRewrite.entries_eq (hq : disk.node q = some (names', j))
    (hne : q ≠ path) (hdir : (disk.inode j).isDir = true) :
    disk'.entries j = disk.entries j := by
  apply entries_congr
  · rw [hrw.inode_eq hq]
  · exact hrw.keeps q .entries _ (Or.inl hne) (holder_entries hq hdir)

theorem EntryRewrite.edge_eq (hq : disk.node q = some (names', j)) (slot' : Slot)
    (hoff : q = path → slot' ≠ slot) :
    disk'.edge j slot' = disk.edge j slot' := by
  refine edge_congr (by rw [hrw.inode_eq hq]) fun hdir => ?_
  by_cases hpath : q = path
  · subst hpath
    have hnode := hrw.node
    rw [hq, Option.some.injEq, Prod.mk.injEq] at hnode
    obtain ⟨rfl, rfl⟩ := hnode
    exact hrw.others slot' (hoff rfl)
  · rw [hrw.entries_eq hq hpath hdir]

theorem EntryRewrite.node_eq (hoff : ¬ path ++ [slot] <+: q) :
    disk'.node q = disk.node q := by
  refine walk_congr_off 2 (path ++ [slot]) ?_ q hoff
  rintro q slot' ⟨names', j⟩ hnot hq
  refine hrw.edge_eq hq slot' ?_
  rintro rfl rfl
  exact hnot List.prefix_rfl

theorem EntryRewrite.node_path : disk'.node path = some (names, i) :=
  (hrw.node_eq (site_not_below path slot)).trans hrw.node

theorem EntryRewrite.holder_eq (hoff : ¬ path ++ [slot] <+: q)
    (role : Role) : disk'.holder (q, role) = disk.holder (q, role) := by
  cases hq : disk.node q with
  | none =>
      rw [holder_of_node_none hq,
        holder_of_node_none ((hrw.node_eq hoff).trans hq)]
  | some there =>
      obtain ⟨names', j⟩ := there
      rw [holder_of_node hq, holder_of_node ((hrw.node_eq hoff).trans hq),
        owned, owned, hrw.inode_eq hq]

theorem EntryRewrite.isDir_eq : (disk'.inode i).isDir = true := by
  rw [hrw.inode_eq hrw.node, hrw.isDir]

/-- Behind an invalid entry there is nothing. -/
theorem EntryRewrite.node_removed
    (hinvalid : (disk'.entries i slot).valid = false)
    (hsite : path ++ [slot] <+: q) : disk'.node q = none := by
  obtain ⟨q, rfl⟩ := hsite
  rw [node_behind hrw.node_path]
  simp [edge, hinvalid]

/-- Behind an entry that leads to a leaf there is only the leaf. -/
theorem EntryRewrite.node_inserted {name : Name} {child : Nat}
    (hedge : disk'.edge i slot = some (name, child))
    (hleaf : ∀ slot', disk'.edge child slot' = none) (q : List Slot) :
    disk'.node (path ++ [slot] ++ q) =
      if q = [] then some (names ++ [name], child) else none := by
  rw [node_behind hrw.node_path, hedge]
  cases q with
  | nil => simp
  | cons slot' q => simp [walk_cons, hleaf slot']

/-- Behind an entry that changes its name only, the graph stays. -/
theorem EntryRewrite.walk_eq {name : Name} {child : Nat}
    (hedge : disk.edge i slot = some (name, child)) (q : List Slot) :
    walk disk'.edge child q = walk disk.edge child q := by
  refine walk_congr child ?_ q
  rintro q slot' ⟨tail, j⟩ hq
  have hnode : disk.node (path ++ [slot] ++ q) =
      some (names ++ name :: tail, j) := by
    rw [node_behind hrw.node, hedge, Option.bind_some, hq]
    rfl
  refine hrw.edge_eq hnode slot' ?_
  intro hpath
  have hpre : path ++ [slot] <+: path ++ [slot] ++ q :=
    List.prefix_append _ _
  rw [hpath] at hpre
  exact absurd hpre (site_not_below path slot)

end EntryRewrite

end Disk

end Fs5600
