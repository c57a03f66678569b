/-
What the image reader finds in consistent images, and so in every image that
the file system leaves behind: nothing to complain of, and every object of
the tree once.
-/
import Fs5600.ReadImg
import Fs5600.TreeChange
import Fs5600.Decision

namespace Fs5600

open Scripts Preorder LabelledWalk

/-- The path that is printed for an object. -/
def pathName (names : List Name) : Name :=
  if names = [] then [slash] else names.flatMap (slash :: ·)

theorem FsInode.xblks_eq (inode : FsInode) :
    inode.xblks = blockCount inode.length := by
  rw [xblks, blockCount, FsInode.length,
    Int.fdiv_eq_ediv_of_nonneg _ (by decide)]
  omega

section

variable {disk : Disk} {size : Nat} {path : List Slot} {names : List Name}
  {i : Nat}

/-- Every object on a path has an inode block of its own. -/
theorem Consistent.depth_lt (hcons : Consistent disk size)
    (hnode : disk.node path = some (names, i)) :
    path.length + 3 ≤ disk.diskSize := by
  have hfront : ∀ n : Fin (path.length + 1), ∃ j names',
      disk.node (path.take n.val) = some (names', j) := fun n => by
    obtain ⟨here, hhere, -⟩ :=
      walk_front disk.edge (List.take_prefix n.val path) hnode
    exact ⟨here.2, here.1, hhere⟩
  choose inum names' hinum using hfront
  have hinj : Function.Injective fun n : Fin (path.length + 1) =>
      (⟨inum n - 2, by
        obtain ⟨hlow, hlt, -⟩ := hcons.inode_range (hinum n)
        omega⟩ : Fin (disk.diskSize - 2)) := by
    intro n n' heq
    obtain ⟨hlow, -, -⟩ := hcons.inode_range (hinum n)
    obtain ⟨hlow', -, -⟩ := hcons.inode_range (hinum n')
    have hsame : inum n = inum n' := by
      have := congrArg Fin.val heq
      dsimp only at this
      omega
    have hnode' := hinum n'
    rw [← hsame] at hnode'
    have hpath := congrArg List.length (hcons.node_inj (hinum n) hnode')
    rw [List.length_take, List.length_take] at hpath
    apply Fin.ext
    omega
  have hcard := Fintype.card_le_of_injective _ hinj
  rw [Fintype.card_fin, Fintype.card_fin] at hcard
  omega

end

/-! The graph of the script, in the terms of the image. -/

/-- The slots by which a path goes on. -/
def Disk.slots (disk : Disk) (path : List Slot) : List Slot :=
  (List.finRange 128).filter fun slot => (disk.node (path ++ [slot])).isSome

/-- The node that the script visits for the object at a path of slots. -/
def Disk.visited (disk : Disk) (path : List Slot) : Name × Nat :=
  match disk.node path with
  | some (names, i) => (names.flatMap (slash :: ·), i)
  | none => ([], 0)

theorem Disk.slots_nodup (disk : Disk) (path : List Slot) :
    (disk.slots path).Nodup := (List.nodup_finRange 128).filter _

theorem map_filter_eq {A B : Type} {p : A → Bool} {f : A → B}
    {g : A → Option B} (hg : ∀ value, g value =
      if p value then some (f value) else none) (values : List A) :
    (values.filter p).map f = values.filterMap g := by
  induction values with
  | nil => rfl
  | cons value values ih =>
      cases hp : p value with
      | false => simp [hp, hg, ih]
      | true => simp [hp, hg, ih]

theorem Disk.visited_of_node {disk : Disk} {path : List Slot}
    {names : List Name} {i : Nat}
    (hnode : disk.node path = some (names, i)) :
    disk.visited path = (names.flatMap (slash :: ·), i) := by
  rw [visited, hnode]

/-- The objects one slot below an object. -/
theorem Disk.map_visited_longer {disk : Disk} {path : List Slot}
    {names : List Name} {i : Nat}
    (hnode : disk.node path = some (names, i)) :
    (longer disk.slots path).map disk.visited =
      (List.finRange 128).filterMap fun slot =>
        (disk.edge i slot).map fun hop =>
          (names.flatMap (slash :: ·) ++ slash :: hop.1, hop.2) := by
  rw [longer, List.map_map, slots]
  refine map_filter_eq (fun slot => ?_) _
  have hsnoc := walk_snoc disk.edge 2 path slot
  change disk.node (path ++ [slot]) = _ at hsnoc
  rw [show walk disk.edge 2 path = some (names, i) from hnode,
    Option.bind_some] at hsnoc
  cases hedge : disk.edge i slot with
  | none =>
      rw [hedge] at hsnoc
      simp [hsnoc]
  | some hop =>
      have hchild := node_child hnode hedge
      simp [hchild, visited_of_node hchild]

theorem Disk.isSome_of_longer {disk : Disk} {path there : List Slot}
    (hmem : there ∈ longer disk.slots path) :
    (disk.node there).isSome = true := by
  obtain ⟨slot, hslot, rfl⟩ := List.mem_map.mp hmem
  exact (List.mem_filter.mp hslot).2

theorem Disk.steps_of_node {disk : Disk} {path : List Slot}
    (hsome : (disk.node path).isSome = true) :
    Steps (longer disk.slots) path.length [] path := by
  induction path using List.reverseRecOn with
  | nil => exact .refl []
  | append_singleton path slot ih =>
      obtain ⟨there, hnode⟩ := Option.isSome_iff_exists.mp hsome
      obtain ⟨here, hop, hhere, -⟩ := walk_snoc_eq_some disk.edge hnode
      rw [List.length_append, List.length_singleton]
      refine (ih ?_).snoc (List.mem_map_of_mem (List.mem_filter.mpr
        ⟨List.mem_finRange slot, hsome⟩))
      exact Option.isSome_iff_exists.mpr ⟨here, hhere⟩

section

variable {image : ImageFile} {path : List Slot} {names : List Name} {i : Nat}

theorem ImageFile.children_visited
    (hnode : image.disk.node path = some (names, i))
    (hone : (image.disk.inode i).isDir = true →
      (image.disk.inode i).xblks = 1) :
    image.children (image.disk.visited path) =
      (longer image.disk.slots path).map image.disk.visited := by
  rw [Disk.visited_of_node hnode, Disk.map_visited_longer hnode, children,
    childrenOf]
  dsimp only
  by_cases hdir : (image.disk.inode i).isDir = true
  · rw [if_pos hdir, hone hdir, List.range_one, List.flatMap_singleton,
      directoryChildren]
    refine List.filterMap_congr fun slot _ => ?_
    change (if (image.disk.entries i slot).valid = true then _ else none) = _
    rw [Disk.edge]
    by_cases hvalid : (image.disk.entries i slot).valid = true
    · rw [if_pos hvalid, if_pos ⟨hdir, hvalid⟩]
      rfl
    · rw [if_neg hvalid, if_neg (fun h => hvalid h.2), Option.map_none]
  · rw [if_neg hdir, eq_comm, List.filterMap_eq_nil_iff]
    intro slot _
    rw [Disk.edge, if_neg (fun h => hdir h.1), Option.map_none]

/-- The script goes along a path whose directories have one block each. -/
theorem ImageFile.steps_of_node
    (hone : ∀ front slot names i, front ++ [slot] <+: path →
      image.disk.node front = some (names, i) →
      (image.disk.inode i).isDir = true → (image.disk.inode i).xblks = 1)
    (hsome : (image.disk.node path).isSome = true) :
    Steps image.children path.length ([], 2) (image.disk.visited path) := by
  induction path using List.reverseRecOn with
  | nil => exact .refl _
  | append_singleton path slot ih =>
      obtain ⟨there, hnode⟩ := Option.isSome_iff_exists.mp hsome
      obtain ⟨⟨names, i⟩, hop, hhere, -⟩ :=
        walk_snoc_eq_some image.disk.edge hnode
      have hsteps := ih
        (fun front slot' names i hpre =>
          hone front slot' names i (hpre.trans (List.prefix_append _ _)))
        (Option.isSome_iff_exists.mpr ⟨_, hhere⟩)
      rw [List.length_append, List.length_singleton]
      refine hsteps.snoc ?_
      rw [ImageFile.children_visited hhere
        (hone path slot names i List.prefix_rfl hhere)]
      exact List.mem_map_of_mem (List.mem_map_of_mem
        (List.mem_filter.mpr ⟨List.mem_finRange slot, hsome⟩))

/-- Every directory of the tree has one block, as its size says. -/
def ImageFile.OneBlock (image : ImageFile) : Prop :=
  ∀ path names i, image.disk.node path = some (names, i) →
    (image.disk.inode i).isDir = true → (image.disk.inode i).xblks = 1

section

variable (hone : image.OneBlock)

include hone

theorem ImageFile.OneBlock.children {path : List Slot}
    (hsome : (image.disk.node path).isSome = true) :
    image.children (image.disk.visited path) =
      (longer image.disk.slots path).map image.disk.visited := by
  obtain ⟨⟨names, i⟩, hnode⟩ := Option.isSome_iff_exists.mp hsome
  exact ImageFile.children_visited hnode (hone path names i hnode)

/-- The nodes that the script reaches are those of the tree. -/
theorem ImageFile.OneBlock.of_steps {k : Nat} {node : Name × Nat}
    (hsteps : Steps image.children k ([], 2) node) :
    ∃ path names i, image.disk.node path = some (names, i) ∧
      path.length = k ∧ node = (names.flatMap (slash :: ·), i) := by
  have hroot : image.disk.visited [] = ([], 2) :=
    Disk.visited_of_node Disk.node_nil
  rw [← hroot] at hsteps
  obtain ⟨path, hpath, hsome, rfl⟩ := Steps.of_map
    (fun _ _ _ hmem => Disk.isSome_of_longer hmem)
    (fun _ hsome => hone.children hsome) (u := []) rfl hsteps
  obtain ⟨⟨names, i⟩, hnode⟩ := Option.isSome_iff_exists.mp hsome
  refine ⟨path, names, i, hnode, ?_, Disk.visited_of_node hnode⟩
  rw [hpath.of_longer.2, List.length_nil, Nat.zero_add]

theorem ImageFile.OneBlock.preorder_children (limit : Nat) :
    preorder image.children limit ([], 2) =
      (preorder (longer image.disk.slots) limit []).map
        image.disk.visited := by
  have hroot : image.disk.visited [] = ([], 2) :=
    Disk.visited_of_node Disk.node_nil
  rw [← hroot]
  exact preorder_map (fun _ _ _ hmem => Disk.isSome_of_longer hmem)
    (fun _ hsome => hone.children hsome) rfl

end

end

/-! Consistent images. -/

section

variable {image : ImageFile} (hcons : Consistent image.disk image.nblks)
  {path : List Slot} {names : List Name} {i : Nat}

include hcons

theorem Consistent.oneBlock : image.OneBlock := by
  intro path names i hnode hdir
  rw [FsInode.xblks_eq]
  exact (hcons.object path names i hnode).blockCount_dir hdir

theorem Consistent.blocksMarked
    (hsize : image.disk.diskSize ≤ image.nblks)
    (hnode : image.disk.node path = some (names, i)) :
    BlocksMarked image (image.disk.inode i) := by
  have hobject := hcons.object path names i hnode
  have hheld : ∀ k < (image.disk.inode i).xblks,
      (image.disk.inode i).ptr k < image.disk.diskSize ∧
        Marked (image.disk 1) ((image.disk.inode i).ptr k) := fun k hk => by
    rw [FsInode.xblks_eq] at hk
    exact (hcons.range (path, _) _ ((Disk.holder_of_node hnode _).trans
      (hobject.owned_roleOf hk))).2
  refine ⟨?_, ?_, fun k hk => (hheld k hk).2, fun _ k hk =>
    (hheld k hk).1.trans_le hsize⟩
  · rcases hobject.kind with hreg | ⟨hdir, -⟩
    · exact Or.inl hreg
    · exact Or.inr hdir
  · rw [FsInode.xblks_eq]
    exact hobject.blockCount_le

/-- The script has nothing to say against a consistent image whose size is
that of the file, if its recursion is deep enough. -/
theorem Consistent.wellMarked {limit : Nat} (hodd : image.odd.val = 0)
    (hmagic : image.disk.superblock.magic = 0x30303635)
    (hsize : image.disk.diskSize = image.nblks)
    (hlimit : image.nblks ≤ limit + 2) : WellMarked limit image := by
  refine ⟨hodd, hmagic, hsize, hsize ▸ hcons.size_le, fun k node hsteps => ?_⟩
  obtain ⟨path, names, i, hnode, rfl, rfl⟩ := hcons.oneBlock.of_steps hsteps
  have hdepth := hcons.depth_lt hnode
  obtain ⟨-, hlt, hmarked⟩ := hcons.inode_range hnode
  exact ⟨by omega, hsize ▸ hlt, hmarked, hcons.blocksMarked hsize.le hnode⟩

end

theorem printedName_flatMap (names : List Name) :
    printedName (names.flatMap (slash :: ·)) = pathName names := by
  cases names with
  | nil => rfl
  | cons name names => rfl

/-- The listing of an image: every object of the tree once, under its path. -/
structure Lists (listed : List (Name × Nat)) (disk : Disk) : Prop where
  once : (listed.map Prod.snd).Nodup
  mem : ∀ name i, (name, i) ∈ listed ↔ ∃ names path,
    disk.resolve names = .ok (path, i) ∧ name = pathName names

/-- The paths of the script are those of the tree. -/
theorem Consistent.mem_paths {disk : Disk} {size limit : Nat}
    (hcons : Consistent disk size) (hlimit : size ≤ limit + 2)
    (path : List Slot) :
    path ∈ preorder (longer disk.slots) limit [] ↔
      (disk.node path).isSome = true := by
  rw [mem_preorder]
  constructor
  · rintro ⟨k, -, hsteps⟩
    exact hsteps.keeps (fun _ _ _ hmem => Disk.isSome_of_longer hmem) rfl
  · intro hsome
    obtain ⟨⟨names, i⟩, hnode⟩ := Option.isSome_iff_exists.mp hsome
    have hdepth := hcons.depth_lt hnode
    have hfits := hcons.size_fits
    exact ⟨path.length, by omega, Disk.steps_of_node hsome⟩

/-- What is printed for a consistent image. -/
theorem Consistent.lists {image : ImageFile} {limit : Nat}
    (hcons : Consistent image.disk image.nblks)
    (hwell : WellMarked limit image) (hlimit : image.nblks ≤ limit + 2) :
    Lists (readImg limit image).objects image.disk := by
  have hlisted : (readImg limit image).objects =
      (preorder (longer image.disk.slots) limit []).map fun path =>
        (printedName (image.disk.visited path).1,
          (image.disk.visited path).2) := by
    rw [ReadScript.objects, hwell.printed_readImg, image.objects_listing,
      hcons.oneBlock.preorder_children, List.map_map]
    rfl
  have hmem := hcons.mem_paths hlimit
  rw [hlisted]
  constructor
  · rw [List.map_map]
    refine List.Nodup.map_on ?_ (nodup_preorder_longer
      image.disk.slots_nodup limit [])
    intro path hpath path' hpath' heq
    obtain ⟨⟨names, i⟩, hnode⟩ :=
      Option.isSome_iff_exists.mp ((hmem path).mp hpath)
    obtain ⟨⟨names', i'⟩, hnode'⟩ :=
      Option.isSome_iff_exists.mp ((hmem path').mp hpath')
    simp only [Function.comp_apply, Disk.visited_of_node hnode,
      Disk.visited_of_node hnode'] at heq
    subst heq
    exact hcons.node_inj hnode hnode'
  · intro name i
    simp only [List.mem_map, hmem, Prod.mk.injEq]
    constructor
    · rintro ⟨path, hsome, rfl, rfl⟩
      obtain ⟨⟨names, i⟩, hnode⟩ := Option.isSome_iff_exists.mp hsome
      rw [Disk.visited_of_node hnode, printedName_flatMap]
      exact ⟨names, path, Disk.resolve_of_node hcons.object hnode, rfl⟩
    · rintro ⟨names, path, hresolve, rfl⟩
      have hnode := Disk.node_of_resolve hresolve
      refine ⟨path, Option.isSome_iff_exists.mpr ⟨_, hnode⟩, ?_⟩
      rw [Disk.visited_of_node hnode, printedName_flatMap]
      exact ⟨rfl, rfl⟩

end Fs5600
