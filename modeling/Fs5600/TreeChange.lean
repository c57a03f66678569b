/-
What a change does to the tree of an image: the changes of one inode put one
object, and the changes of one directory entry put, erase or move what lies
under one name.
-/
import Fs5600.Tree
import Fs5600.Creation
import Fs5600.Deletion
import Fs5600.Truncation

namespace Fs5600

open MachineWord NameTree

/-- Different objects have different inodes. -/
theorem Consistent.node_inj {disk : Disk} {size : Nat}
    (hcons : Consistent disk size) {path path' : List Slot}
    {names names' : List Name} {i : Nat}
    (hnode : disk.node path = some (names, i))
    (hnode' : disk.node path' = some (names', i)) : path = path' :=
  congrArg Prod.fst (hcons.exclusive _ _ i (Disk.holder_inode hnode)
    (Disk.holder_inode hnode'))

/-- Two consistent images with the same nodes and the same objects but at one
path differ in the tree there. -/
theorem Disk.tree_eq_put {disk disk' : Disk} {size size' : Nat}
    (hcons : Consistent disk size) (hcons' : Consistent disk' size')
    {names : List Name} {object : Object}
    (hself : disk'.tree names = some object)
    (hother : ∀ path names' j, names' ≠ names →
      (disk'.node path = some (names', j) ↔
        disk.node path = some (names', j)))
    (hobject : ∀ path names' j, names' ≠ names →
      disk.node path = some (names', j) → disk'.object j = disk.object j) :
    disk'.tree = put disk.tree names object := by
  funext names'
  by_cases hsame : names' = names
  · rw [hsame, hself, put, Function.update_self]
  rw [put, Function.update_of_ne hsame]
  refine Option.ext fun found => ?_
  rw [hcons.tree_eq_some, hcons'.tree_eq_some]
  constructor
  · rintro ⟨path, j, hnode, rfl⟩
    rw [hother path names' j hsame] at hnode
    exact ⟨path, j, hnode, (hobject path names' j hsame hnode).symm⟩
  · rintro ⟨path, j, hnode, rfl⟩
    exact ⟨path, j, (hother path names' j hsame).mpr hnode,
      hobject path names' j hsame hnode⟩

section

variable {world : World} (hmount : Mounted world) {names : List Name}
  {change : Change} (hvalid : change.Valid world names)

include hmount hvalid

/-- A change leaves every object alone whose inode it does not store. -/
theorem Change.object_kept {path : List Slot} {names' : List Name} {j : Nat}
    (hnode : world.disk.node path = some (names', j))
    (hother : ∀ path inum new,
      change.rewrittenInode world.disk = some (path, inum, new) →
        j ≠ inum) :
    (change.apply world).disk.object j = world.disk.object j := by
  have hshows := Change.apply_shows hmount hvalid
  have hinode : (change.apply world).disk.inode j =
      world.disk.inode j := by
    rw [Change.inode_eq hmount hvalid hshows hnode, inodeAt]
    cases hview : change.rewrittenInode world.disk with
    | none => rfl
    | some view =>
        obtain ⟨path', inum, new⟩ := view
        exact if_neg (hother path' inum new hview)
  by_cases hdir : (world.disk.inode j).isDir = true
  · rw [Disk.object_of_isDir hdir, Disk.object_of_isDir (by rw [hinode, hdir]),
      hinode]
  · have hreg :=
      (hmount.consistent.object _ _ _ hnode).isReg_of_not_isDir hdir
    rw [Disk.object_of_not_isDir hdir,
      Disk.object_of_not_isDir (by rw [hinode]; exact hdir), hinode]
    refine congrArg _ (fileContent_congr rfl fun k hk => ?_)
    refine Change.data_kept hmount hvalid hnode hreg hk ?_
    rintro path' inum offset buf mtime fresh rfl
    exact hother _ _ _ rfl

theorem Change.tree_of_inode {path : List Slot} {inum : Nat} {new : FsInode}
    (hview : change.rewrittenInode world.disk = some (path, inum, new)) :
    (change.apply world).disk.tree =
      put world.disk.tree names ((change.apply world).disk.object inum) := by
  have hshows := Change.apply_shows hmount hvalid
  have hmount' := Change.mounted hmount hvalid
  have hrw := Change.inodeRewrite hmount hvalid hshows hview
  have hself := hrw.node
  refine Disk.tree_eq_put hmount.consistent hmount'.consistent ?_ ?_ ?_
  · rw [← hrw.node_eq] at hself
    exact hmount'.consistent.tree_of_node hself
  · intro path' names' j _
    rw [hrw.node_eq]
  · intro path' names' j hne hnode
    refine Change.object_kept hmount hvalid hnode ?_
    intro path'' inum' new' hview' heq
    rw [hview] at hview'
    cases hview'
    subst heq
    obtain rfl := hmount.consistent.node_inj hnode hself
    rw [hself] at hnode
    cases hnode
    exact hne rfl

end

section

variable {world : World} (hmount : Mounted world) {names : List Name}
  {site : List Slot} {inum : Nat} {slot : Slot}

include hmount

/-- A creation puts the new object under its name. -/
theorem InsertOk.tree_eq {name : Name} {inode : FsInode} {dirflag : Bool}
    {blocks : List Nat}
    (hok : InsertOk world names site inum slot name inode dirflag blocks) :
    let disk' := (Change.apply
      (.insert site inum slot name inode dirflag blocks) world).disk
    disk'.tree = put world.disk.tree (names ++ [name])
      (disk'.object (blocks.getD 0 0)) := by
  intro disk'
  have hvalid : Change.Valid world names
    (.insert site inum slot name inode dirflag blocks) := hok
  have hshows := Change.apply_shows hmount hvalid
  have hmount' := Change.mounted hmount hvalid
  have hrw := (Change.entryRewrite hmount hvalid hshows rfl).1
  obtain ⟨hedge, hleaf⟩ := hok.leaf hmount hshows
  refine Disk.tree_eq_put hmount.consistent hmount'.consistent ?_ ?_ ?_
  · rw [Disk.tree_of_resolve (hok.apply_resolve hmount).1]
  · intro path names' j hne
    by_cases hsite : site ++ [slot] <+: path
    · obtain ⟨rest, rfl⟩ := hsite
      have hnone : world.disk.edge inum slot = none := by
        rw [Disk.edge, if_neg]
        rw [hok.free]
        exact fun hboth => Bool.false_ne_true hboth.2
      have hbehind := Disk.node_behind hok.node slot rest
      rw [hnone] at hbehind
      have hnew := hrw.node_inserted hedge hleaf rest
      change disk'.node _ = _ at hnew
      rw [hnew, hbehind]
      refine iff_of_false (fun heq => ?_) (fun heq => by cases heq)
      split at heq
      · cases heq
        exact hne rfl
      · cases heq
    · have hsame : disk'.node path = _ := hrw.node_eq hsite
      rw [hsame]
  · intro path names' j _ hnode
    exact Change.object_kept hmount hvalid hnode (by simp [Change.rewrittenInode])

/-- A new object is empty. -/
theorem InsertOk.apply_object {name : Name} {inode : FsInode}
    {dirflag : Bool} {blocks : List Nat}
    (hok : InsertOk world names site inum slot name inode dirflag blocks) :
    (Change.apply (.insert site inum slot name inode dirflag blocks)
      world).disk.object (blocks.getD 0 0) =
        if dirflag then .branch inode.attributes
        else .leaf inode.attributes [] := by
  have hinode := hok.apply_inode hmount
  have hkind := hok.inode.isDir
  cases dirflag with
  | true => rw [Disk.object_of_isDir (by rw [hinode, hkind]), hinode, if_pos rfl]
  | false =>
      have hdir : ¬ inode.isDir = true := by
        rw [hkind]
        exact Bool.false_ne_true
      have hsize := hok.inode.size
      have hempty : fileContent (Change.apply (.insert site inum slot name
          inode false blocks) world).disk inode = [] := by
        rw [← List.length_eq_zero_iff, length_fileContent, FsInode.length,
          hsize]
        rfl
      rw [Disk.object_of_not_isDir (by rw [hinode]; exact hdir), hinode,
        hempty]
      rfl

/-- A removal erases the entry's name and all below it. -/
theorem Change.tree_of_remove {blocks : List Nat}
    (hvalid : Change.Valid world names (.remove site inum slot blocks)) :
    (Change.apply (.remove site inum slot blocks) world).disk.tree =
      erase world.disk.tree
        (names ++ [(world.disk.entries inum slot).nameString]) := by
  have hmount' := Change.mounted hmount hvalid
  obtain ⟨hparent, hdir, hfree, hgone⟩ :=
    Change.remove_resolve hmount hvalid
  have hrw := (Change.entryRewrite hmount hvalid
    (Change.apply_shows hmount hvalid) rfl).1
  have hmissing := Disk.resolve_gone hparent hdir hgone
  have hentry := hvalid.entry
  have hold := Disk.node_child hentry.node
    (Disk.edge_eq_some.mpr ⟨hentry.isDir, hentry.valid, rfl⟩)
  have hbehind := fun rest => hrw.node_removed hfree
    (List.prefix_append (site ++ [slot]) rest)
  funext names'
  rw [erase]
  by_cases hpre : names ++ [(world.disk.entries inum slot).nameString] <+:
      names'
  · rw [if_pos hpre]
    obtain ⟨rest, rfl⟩ := hpre
    refine hmount'.consistent.tree_wellFormed.below_none ?_ rest
    rw [Disk.tree_eq_none, hmissing]
    rfl
  · rw [if_neg hpre]
    refine Option.ext fun object => ?_
    rw [hmount.consistent.tree_eq_some, hmount'.consistent.tree_eq_some]
    have hkept : ∀ {path : List Slot} {j : Nat},
        world.disk.node path = some (names', j) →
        (Change.apply (.remove site inum slot blocks) world).disk.object j =
          world.disk.object j := fun hnode =>
      Change.object_kept hmount hvalid hnode (by simp [Change.rewrittenInode])
    constructor
    · rintro ⟨path, j, hnode, rfl⟩
      have hsite : ¬ site ++ [slot] <+: path := by
        rintro ⟨rest, rfl⟩
        rw [hbehind rest] at hnode
        cases hnode
      rw [hrw.node_eq hsite] at hnode
      exact ⟨path, j, hnode, (hkept hnode).symm⟩
    · rintro ⟨path, j, hnode, rfl⟩
      have hsite : ¬ site ++ [slot] <+: path := fun hsite =>
        hpre (Disk.names_front hold hnode hsite)
      refine ⟨path, j, ?_, hkept hnode⟩
      rw [hrw.node_eq hsite]
      exact hnode

/-- A renaming moves all that lies at and below the entry's name. -/
theorem Change.tree_of_relabel {name : Name}
    (hvalid : Change.Valid world names (.relabel site inum slot name)) :
    (Change.apply (.relabel site inum slot name) world).disk.tree =
      move world.disk.tree
        (names ++ [(world.disk.entries inum slot).nameString])
        (names ++ [name]) := by
  have hmount' := Change.mounted hmount hvalid
  have hmissing := (Change.relabel_resolve hmount hvalid).2
  have htree : ∀ {names' names'' : List Name},
      (Change.apply (.relabel site inum slot name) world).disk.resolve
        names' = world.disk.resolve names'' →
      (Change.apply (.relabel site inum slot name) world).disk.tree names' =
        world.disk.tree names'' := by
    intro names' names'' hsame
    rw [Disk.tree, Disk.tree, hsame]
    cases hresolve : world.disk.resolve names'' with
    | error status => rfl
    | ok there =>
        have hnode : world.disk.node there.1 = some (names'', there.2) :=
          Disk.node_of_resolve hresolve
        exact congrArg some (Change.object_kept hmount hvalid hnode
          (by simp [Change.rewrittenInode]))
  funext names'
  rw [move]
  by_cases hnew : names ++ [name] <+: names'
  · rw [if_pos hnew]
    obtain ⟨tail, rfl⟩ := hnew
    rw [List.drop_left]
    exact htree (Change.relabel_moved hmount hvalid tail)
  rw [if_neg hnew]
  by_cases hold : names ++ [(world.disk.entries inum slot).nameString] <+:
      names'
  · rw [if_pos hold]
    obtain ⟨tail, rfl⟩ := hold
    refine hmount'.consistent.tree_wellFormed.below_none ?_ tail
    rw [Disk.tree_eq_none, hmissing]
    rfl
  · rw [if_neg hold]
    refine htree (Change.relabel_lookup hmount hvalid Disk.node_nil names'
      fun _ => ⟨hold, hnew⟩)

end

/-! The object that a change of one inode leaves. -/

section

variable {world : World} (hmount : Mounted world) {names : List Name}
  {site : List Slot} {inum : Nat}

include hmount

theorem AttributesOk.apply_object {inode : FsInode}
    (hok : AttributesOk world.disk names site inum inode) :
    (Change.apply (.attributes site inum inode) world).disk.object inum =
      if (world.disk.inode inum).isDir then .branch inode.attributes
      else .leaf inode.attributes
        (fileContent world.disk (world.disk.inode inum)) := by
  have hvalid : Change.Valid world names (.attributes site inum inode) := hok
  have hinode : (Change.apply (.attributes site inum inode)
      world).disk.inode inum = inode :=
    (Change.apply_shows hmount hvalid).inode _ _ _ rfl
  by_cases hdir : (world.disk.inode inum).isDir = true
  · rw [if_pos hdir, Disk.object_of_isDir (by rw [hinode, hok.isDir, hdir]),
      hinode]
  · have hreg :=
      (hmount.consistent.object _ _ _ hok.node).isReg_of_not_isDir hdir
    have hcontent := Change.content_eq hmount hvalid hok.node hreg
      (by simp)
    have hself : Change.inodeAt world.disk (.attributes site inum inode)
        inum = inode := if_pos rfl
    rw [hself] at hcontent
    rw [if_neg hdir, Disk.object_of_not_isDir
      (by rw [hinode, hok.isDir]; exact hdir), hinode, hcontent]
    rfl

omit hmount in
/-- The first `len` values of a longer or shorter list. -/
theorem map_range_split (f : Nat → UInt8) (n len : Nat) :
    (List.range len).map f = ((List.range n).map f).take len ++
      (List.range (len - n)).map fun p => f (n + p) := by
  rw [← List.map_take, List.take_range]
  rcases Nat.le_total len n with hle | hle
  · rw [Nat.min_eq_left hle, Nat.sub_eq_zero_of_le hle, List.range_zero,
      List.map_nil, List.append_nil]
  · rw [Nat.min_eq_right hle]
    obtain ⟨more, rfl⟩ := Nat.exists_eq_add_of_le hle
    rw [Nat.add_sub_cancel_left, List.range_add, List.map_append,
      List.map_map]
    rfl

/-- A file that is cut keeps its first bytes; where it is stretched, bytes of
its last block come into view. -/
theorem ShrinkOk.apply_object {len : Nat}
    (hok : ShrinkOk world.disk names site inum len) :
    (Change.apply (.shrink site inum len) world).disk.object inum =
      .leaf (world.disk.inode inum).attributes
        ((fileContent world.disk (world.disk.inode inum)).take len ++
          (List.range (len - (world.disk.inode inum).length)).map fun p =>
            blockByte (fun k => world.disk ((world.disk.inode inum).ptr k))
              ((world.disk.inode inum).length + p)) := by
  have hinode := hok.apply_inode hmount
  have hdir : ¬ ((world.disk.inode inum).shrink len).isDir = true :=
    Bool.eq_false_iff.mp (sIsDir_of_sIsReg hok.isReg)
  rw [Disk.object_of_not_isDir (by rw [hinode]; exact hdir), hinode,
    hok.apply_content hmount hok.node, map_range_split _
      (world.disk.inode inum).length len]
  rfl

theorem WriteOk.apply_object {offset : Nat} {buf : List UInt8}
    {fresh : List Nat}
    (hok : WriteOk world names site inum offset buf fresh)
    (mtime : UInt32) :
    (Change.apply (.write site inum offset buf mtime fresh)
      world).disk.object inum =
      .leaf { (world.disk.inode inum).attributes with mtime := mtime }
        ((fileContent world.disk (world.disk.inode inum)).take offset ++
          buf ++ (fileContent world.disk (world.disk.inode inum)).drop
            (offset + buf.length)) := by
  have hinode := hok.apply_inode hmount mtime
  have hdir : ¬ ((world.disk.inode inum).extend fresh
      (offset + buf.length) mtime).isDir = true :=
    Bool.eq_false_iff.mp (sIsDir_of_sIsReg hok.isReg)
  rw [Disk.object_of_not_isDir (by rw [hinode]; exact hdir), hinode,
    hok.apply_content hmount]
  rfl

end

end Fs5600
