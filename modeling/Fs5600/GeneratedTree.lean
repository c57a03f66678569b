/-
The image of a described tree as a graph: the inodes are the objects, the
edges their valid entries, and no path but one leads to an object.
-/
import Fs5600.Generation

namespace Fs5600

open MachineWord LabelledWalk

theorem index_inj {A B : Type} {p : A → Bool} {g : A → B} {values : List A}
    (hdistinct : values.Pairwise fun a b =>
      p a = true → p b = true → g a ≠ g b)
    {i j : Nat} {a b : A} (ha : values[i]? = some a)
    (hb : values[j]? = some b) (hpa : p a = true) (hpb : p b = true)
    (heq : g a = g b) : i = j := by
  obtain ⟨hi, rfl⟩ := List.getElem?_eq_some_iff.mp ha
  obtain ⟨hj, rfl⟩ := List.getElem?_eq_some_iff.mp hb
  rw [List.pairwise_iff_getElem] at hdistinct
  rcases Nat.lt_trichotomy i j with hlt | heq' | hgt
  · exact absurd heq (hdistinct i j hi hj hlt hpa hpb)
  · exact heq'
  · exact absurd heq.symm (hdistinct j i hj hi hgt hpb hpa)

theorem eq_of_nodup_flatMap {A B : Type} {g : A → List B} {values : List A}
    (hnodup : (values.flatMap g).Nodup) {a b : A} (ha : a ∈ values)
    (hb : b ∈ values) {x : B} (hxa : x ∈ g a) (hxb : x ∈ g b) : a = b := by
  have hsymm : Std.Symm (Function.onFun List.Disjoint g) :=
    ⟨fun _ _ hdisjoint => hdisjoint.symm⟩
  by_contra hne
  exact (List.nodup_flatMap.mp hnodup).2.forall ha hb hne hxa hxb

section

variable {objects : List GenObject} {f : GenObject}
  (hobject : ObjectDescribed objects f)

include hobject

theorem ObjectDescribed.blocks_of_dir (hkind : f.kind ≠ .file) :
    f.blocks.length = 1 := by
  rcases f.kind_cases with ⟨hfile, -⟩ | hdir
  · exact absurd hfile hkind
  · rw [hobject.blocks, (hobject.dir _ hdir).2.1]
    rfl

theorem ObjectDescribed.entriesDescribed :
    EntriesDescribed objects f.entries := by
  rcases f.kind_cases with ⟨-, hnone⟩ | hkind
  · rw [hnone]
    exact ⟨by decide, by simp, by simp, List.Pairwise.nil, by simp⟩
  · exact (hobject.dir _ hkind).2.2

end

theorem GenObject.mem_links {f : GenObject} {num : Nat} :
    num ∈ f.links ↔ ∃ (k : Nat) (entry : Bool × Name × Nat),
      f.entries[k]? = some entry ∧ entry.1 = true ∧ entry.2.2 = num := by
  simp only [links, List.mem_map, List.mem_filter]
  constructor
  · rintro ⟨entry, ⟨hmem, hvalid⟩, rfl⟩
    obtain ⟨k, hk⟩ := List.getElem?_of_mem hmem
    exact ⟨k, entry, hk, hvalid, rfl⟩
  · rintro ⟨k, entry, hk, hvalid, rfl⟩
    exact ⟨entry, ⟨List.mem_of_getElem? hk, hvalid⟩, rfl⟩

/-! Objects by number. -/

theorem mem_usedNumbers {objects : List GenObject} {f : GenObject}
    (hf : f ∈ objects) {n : Nat} (hn : n ∈ f.numbers) :
    n ∈ usedNumbers objects :=
  List.mem_cons_of_mem _ (List.mem_cons_of_mem _
    (List.mem_flatMap.mpr ⟨f, hf, hn⟩))

def findObject (objects : List GenObject) (num : Nat) : Option GenObject :=
  objects.find? fun f => f.inum == num

section

variable {objects : List GenObject} {nblocks : Nat}
  (hdrawn : Drawn objects nblocks) {f g : GenObject}

include hdrawn

theorem Drawn.nodup_numbers : (objects.flatMap GenObject.numbers).Nodup :=
  (List.nodup_cons.mp (List.nodup_cons.mp hdrawn.nodup).2).2

/-- A number belongs to one object. -/
theorem Drawn.eq_of_number (hf : f ∈ objects) (hg : g ∈ objects)
    {n : Nat} (hn : n ∈ f.numbers) (hn' : n ∈ g.numbers) : f = g :=
  eq_of_nodup_flatMap hdrawn.nodup_numbers hf hg hn hn'

theorem Drawn.number_range (hf : f ∈ objects) {n : Nat}
    (hn : n ∈ f.numbers) : 2 ≤ n ∧ n < nblocks := by
  refine ⟨?_, hdrawn.below f hf n hn⟩
  obtain ⟨hzero, hrest⟩ := List.nodup_cons.mp hdrawn.nodup
  obtain ⟨hone, -⟩ := List.nodup_cons.mp hrest
  have hmem : n ∈ objects.flatMap GenObject.numbers :=
    List.mem_flatMap.mpr ⟨f, hf, hn⟩
  rcases Nat.lt_or_ge n 2 with hlt | hge
  · interval_cases n
    · exact absurd (List.mem_cons_of_mem 1 hmem) hzero
    · exact absurd hmem hone
  · exact hge

theorem Drawn.findObject_eq (hf : f ∈ objects) :
    findObject objects f.inum = some f := by
  cases hfound : findObject objects f.inum with
  | none =>
      have hall := List.find?_eq_none.mp hfound f hf
      simp at hall
  | some g =>
      have hg := List.mem_of_find?_eq_some hfound
      have hsame : g.inum = f.inum := by simpa using List.find?_some hfound
      rw [hdrawn.eq_of_number hf hg (n := f.inum) List.mem_cons_self
        (by rw [← hsame]; exact List.mem_cons_self)]

end

section

variable {objects : List GenObject} {nblocks : Nat}
  (hdescribed : Described objects nblocks) {f g : GenObject}

include hdescribed

/-- A number is behind one entry of one object. -/
theorem Described.entry_inj (hf : f ∈ objects) (hg : g ∈ objects)
    {k k' : Nat} {entry entry' : Bool × Name × Nat}
    (hentry : f.entries[k]? = some entry) (hvalid : entry.1 = true)
    (hentry' : g.entries[k']? = some entry') (hvalid' : entry'.1 = true)
    (heq : entry.2.2 = entry'.2.2) : f = g ∧ k = k' := by
  have hnodup := (List.nodup_cons.mp hdescribed.links).2
  have hlink : entry.2.2 ∈ f.links :=
    GenObject.mem_links.mpr ⟨k, entry, hentry, hvalid, rfl⟩
  have hlink' : entry.2.2 ∈ g.links :=
    GenObject.mem_links.mpr ⟨k', entry', hentry', hvalid', heq.symm⟩
  obtain rfl := eq_of_nodup_flatMap hnodup hf hg hlink hlink'
  refine ⟨rfl, index_inj (p := Prod.fst) (g := fun entry => entry.2.2) ?_
    hentry hentry' hvalid hvalid' heq⟩
  have hself := (List.nodup_flatMap.mp hnodup).1 f hf
  rw [GenObject.links, List.Nodup, List.pairwise_map,
    List.pairwise_filter] at hself
  exact hself

theorem Described.not_link_root (hf : f ∈ objects) : 2 ∉ f.links :=
  fun hlink => (List.nodup_cons.mp hdescribed.links).1
    (List.mem_flatMap.mpr ⟨f, hf, hlink⟩)

end

/-! The graph. -/

section

variable {randint : Randint} {objects : List GenObject} {nblocks : Nat}
  {disk : Disk} (hdescribed : Described objects nblocks)
  (hgen : Generated randint objects nblocks disk) {f : GenObject}
  (hf : f ∈ objects)

include hdescribed hgen hf

/-- The block of a directory, entry by entry. -/
theorem Generated.entries_eq (hkind : f.kind ≠ .file) (slot : Slot) :
    (disk.entries f.inum slot).name 27 = 0 ∧
      match f.entries[slot.val]? with
      | none => (disk.entries f.inum slot).valid = false
      | some entry =>
          (disk.entries f.inum slot).valid = entry.1 ∧
          (disk.entries f.inum slot).inode = .ofNat 31 entry.2.2 ∧
          (0 ∉ entry.2.1 →
            (disk.entries f.inum slot).nameString = entry.2.1) := by
  have hobject := hdescribed.object f hf
  have hlength := hobject.blocks_of_dir hkind
  obtain ⟨b, hb⟩ : ∃ b, f.blocks[0]? = some b :=
    ⟨_, List.getElem?_eq_getElem (by omega)⟩
  have hentries := hobject.entriesDescribed
  obtain ⟨packed, hpacked, hblock⟩ := hgen.directory_eq hf hkind hb
  rw [Nat.zero_mul, List.drop_zero,
    List.take_of_length_le hentries.length_le] at hpacked
  have hdecoded : disk.entries f.inum = fun slot =>
      packed.getD slot.val emptyDirent := by
    rw [Disk.entries, hgen.ptr hdescribed.drawn hf hb, hblock]
  obtain ⟨hcount, hpack⟩ := packEntries_eq_some hpacked
  have hlast := packEntries_last hpacked rfl hentries.short
  rw [hdecoded]
  dsimp only
  rw [List.getD_eq_getElem?_getD]
  cases hentry : f.entries[slot.val]? with
  | none =>
      rw [List.getElem?_eq_none_iff] at hentry
      rw [List.getElem?_eq_none (by omega), Option.getD_none]
      exact ⟨rfl, rfl⟩
  | some entry =>
      obtain ⟨d, hd, hvalid, hinode, hname⟩ := hpack slot.val entry hentry
      rw [hd, Option.getD_some]
      exact ⟨hlast d (List.mem_of_getElem? hd), hvalid, hinode, hname⟩

/-- The edges of a directory are its valid entries. -/
theorem Generated.edge_eq (slot : Slot) :
    disk.edge f.inum slot = (f.entries[slot.val]?).bind fun entry =>
      if entry.1 then some entry.2 else none := by
  have hobject := hdescribed.object f hf
  have hentries := hobject.entriesDescribed
  have hdir : (disk.inode f.inum).isDir = true ↔ f.kind ≠ .file := by
    rw [hgen.inode f hf]
    exact hobject.drawn.isDir_iff
  rw [Disk.edge]
  rcases f.kind_cases with ⟨hkind, hnone⟩ | hkind
  · rw [if_neg (fun h => hdir.mp h.1 hkind), hnone]
    rfl
  · have hfile : f.kind ≠ .file := by simp [hkind]
    obtain ⟨-, hslot⟩ := hgen.entries_eq hdescribed hf hfile slot
    cases hentry : f.entries[slot.val]? with
    | none =>
        rw [hentry] at hslot
        rw [if_neg (fun h => by rw [hslot] at h; cases h.2), Option.bind_none]
    | some entry =>
        rw [hentry] at hslot
        obtain ⟨hvalid, hinode, hname⟩ := hslot
        have hmem := List.mem_of_getElem? hentry
        rw [Option.bind_some]
        by_cases hval : entry.1 = true
        · have hvalidName := hentries.name entry hmem hval
          obtain ⟨g, hg, hnum⟩ := hentries.target entry hmem hval
          have hlt := hdescribed.below g hg g.inum List.mem_cons_self
          have hfits := hdescribed.nblocks_le
          rw [if_pos ⟨hdir.mpr hfile, hvalid.trans hval⟩, if_pos hval,
            hname hvalidName.nul_free, hinode, BitVec.toNat_ofNat,
            Nat.mod_eq_of_lt (by omega)]
        · rw [if_neg (fun h => hval (hvalid.symm.trans h.2)), if_neg hval]

end

section

variable {randint : Randint} {objects : List GenObject} {nblocks : Nat}
  {disk : Disk} (hdescribed : Described objects nblocks)
  (hgen : Generated randint objects nblocks disk)

include hdescribed hgen

/-- An edge of the graph comes from one valid entry. -/
theorem Generated.of_edge {f : GenObject} (hf : f ∈ objects) {slot : Slot}
    {hop : Name × Nat} (hedge : disk.edge f.inum slot = some hop) :
    ∃ g ∈ objects, g.inum = hop.2 ∧
      f.entries[slot.val]? = some (true, hop) := by
  rw [hgen.edge_eq hdescribed hf, Option.bind_eq_some_iff] at hedge
  obtain ⟨⟨valid, hop'⟩, hentry, hhop⟩ := hedge
  cases valid with
  | false => cases hhop
  | true =>
      cases hhop
      obtain ⟨g, hg, hnum⟩ :=
        (hdescribed.object f hf).entriesDescribed.target _
          (List.mem_of_getElem? hentry) rfl
      exact ⟨g, hg, hnum, hentry⟩

theorem Generated.object_of_node {path : List Slot} {names : List Name}
    {i : Nat} (hnode : disk.node path = some (names, i)) :
    ∃ f ∈ objects, f.inum = i := by
  induction path using List.reverseRecOn generalizing names i with
  | nil =>
      cases hnode
      obtain ⟨root, hroot, hinum, -⟩ := hdescribed.root
      exact ⟨root, hroot, hinum⟩
  | append_singleton path slot ih =>
      obtain ⟨⟨names', i'⟩, hop, hhere, hedge, heq⟩ :=
        walk_snoc_eq_some disk.edge hnode
      cases heq
      obtain ⟨f, hf, rfl⟩ := ih hhere
      obtain ⟨g, hg, hnum, -⟩ := hgen.of_edge hdescribed hf hedge
      exact ⟨g, hg, hnum⟩

/-- A step into an object, from the object that has the entry. -/
theorem Generated.node_snoc {path : List Slot} {slot : Slot}
    {names : List Name} {i : Nat}
    (hnode : disk.node (path ++ [slot]) = some (names, i)) :
    ∃ f ∈ objects, ∃ names' hop, disk.node path = some (names', f.inum) ∧
      f.entries[slot.val]? = some (true, hop) ∧ hop.2 = i := by
  obtain ⟨⟨names', i'⟩, hop, hhere, hedge, heq⟩ :=
    walk_snoc_eq_some disk.edge hnode
  cases heq
  obtain ⟨f, hf, rfl⟩ := hgen.object_of_node hdescribed hhere
  obtain ⟨-, -, -, hentry⟩ := hgen.of_edge hdescribed hf hedge
  exact ⟨f, hf, names', hop, hhere, hentry, rfl⟩

theorem Generated.not_root {path : List Slot} {slot : Slot}
    {names : List Name} :
    disk.node (path ++ [slot]) ≠ some (names, 2) := by
  intro hnode
  obtain ⟨f, hf, _, hop, _, hentry, hnum⟩ := hgen.node_snoc hdescribed hnode
  exact hdescribed.not_link_root hf
    (GenObject.mem_links.mpr ⟨_, _, hentry, rfl, hnum⟩)

/-- One path leads to an object. -/
theorem Generated.node_inj {path path' : List Slot}
    {names names' : List Name} {i : Nat}
    (hnode : disk.node path = some (names, i))
    (hnode' : disk.node path' = some (names', i)) : path = path' := by
  induction path using List.reverseRecOn generalizing path' names names' i with
  | nil =>
      cases hnode
      rcases List.eq_nil_or_concat' path' with rfl | ⟨path', slot, rfl⟩
      · rfl
      · exact absurd hnode' (hgen.not_root hdescribed)
  | append_singleton path slot ih =>
      rcases List.eq_nil_or_concat' path' with rfl | ⟨path', slot', rfl⟩
      · cases hnode'
        exact absurd hnode (hgen.not_root hdescribed)
      · obtain ⟨f, hf, _, hop, hhere, hentry, hnum⟩ :=
          hgen.node_snoc hdescribed hnode
        obtain ⟨g, hg, _, hop', hhere', hentry', hnum'⟩ :=
          hgen.node_snoc hdescribed hnode'
        obtain ⟨rfl, hslot⟩ := hdescribed.entry_inj hf hg hentry rfl hentry'
          rfl (hnum.trans hnum'.symm)
        rw [ih hhere hhere', Fin.ext hslot]

end

/-! Consistency. -/

/-- Where the numbers of an object have the block of a role. -/
def Role.place : Role → Nat
  | .inode => 0
  | .entries => 1
  | .data k => k + 1

section

variable {randint : Randint} {objects : List GenObject} {nblocks : Nat}
  {disk : Disk} (hdescribed : Described objects nblocks)
  (hgen : Generated randint objects nblocks disk)

include hdescribed hgen

/-- The roles of an object and its numbers. -/
theorem Generated.owned_eq_some {f : GenObject} (hf : f ∈ objects)
    {role : Role} {b : Nat} :
    disk.owned f.inum role = some b ↔
      f.numbers[role.place]? = some b ∧
        (role = .entries → f.kind ≠ .file) ∧
        ∀ k, role = .data k → f.kind = .file := by
  have hobject := hdescribed.object f hf
  have hptr : ∀ k, k < f.blocks.length →
      f.blocks[k]? = some ((disk.inode f.inum).ptr k) := fun k hk => by
    have hb := List.getElem?_eq_getElem hk
    rw [hb, hgen.ptr hdescribed.drawn hf hb]
  rw [Disk.owned]
  cases role with
  | inode => simp [FsInode.owned, Role.place, GenObject.numbers]
  | entries =>
      rw [FsInode.owned, hgen.inode f hf]
      by_cases hkind : f.kind = .file
      · have hdir : ¬ f.record.isDir = true :=
          fun h => hobject.drawn.isDir_iff.mp h hkind
        rw [if_neg hdir]
        simp [hkind]
      · have hb := hptr 0 (by rw [hobject.blocks_of_dir hkind]; decide)
        rw [if_pos (hobject.drawn.isDir_iff.mpr hkind), ← hgen.inode f hf]
        simp [Role.place, GenObject.numbers, hb, hkind]
  | data k =>
      rw [FsInode.owned, hgen.inode f hf]
      by_cases hkind : f.kind = .file
      · have hreg := hobject.drawn.isReg_iff.mpr hkind
        rw [hobject.drawn.record_length, ← hobject.blocks, ← hgen.inode f hf]
        by_cases hk : k < f.blocks.length
        · rw [if_pos ⟨by rw [hgen.inode f hf]; exact hreg, hk⟩]
          simp [Role.place, GenObject.numbers, hptr k hk, hkind]
        · rw [if_neg (fun h => hk h.2)]
          simp [Role.place, GenObject.numbers, hk]
      · have hreg : ¬ f.record.isReg = true :=
          fun h => hkind (hobject.drawn.isReg_iff.mp h)
        rw [if_neg (fun h => hreg h.1)]
        simp [hkind]

theorem Generated.of_holder {path : List Slot} {role : Role} {b : Nat}
    (hholder : disk.holder (path, role) = some b) :
    ∃ f ∈ objects, ∃ names, disk.node path = some (names, f.inum) ∧
      disk.owned f.inum role = some b ∧ b ∈ f.numbers := by
  obtain ⟨names, i, hnode, howned⟩ := Disk.holder_eq_some.mp hholder
  obtain ⟨f, hf, rfl⟩ := hgen.object_of_node hdescribed hnode
  exact ⟨f, hf, names, hnode, howned, List.mem_of_getElem?
    ((hgen.owned_eq_some hdescribed hf).mp howned).1⟩

theorem Generated.exclusive : Ledger.Exclusive disk.holder := by
  rintro ⟨path, role⟩ ⟨path', role'⟩ b hholder hholder'
  obtain ⟨f, hf, names, hnode, howned, hmem⟩ :=
    hgen.of_holder hdescribed hholder
  obtain ⟨g, hg, names', hnode', howned', hmem'⟩ :=
    hgen.of_holder hdescribed hholder'
  obtain rfl := hdescribed.drawn.eq_of_number hf hg hmem hmem'
  obtain rfl := hgen.node_inj hdescribed hnode hnode'
  obtain ⟨hplace, hentries, hdata⟩ :=
    (hgen.owned_eq_some hdescribed hf).mp howned
  obtain ⟨hplace', hentries', hdata'⟩ :=
    (hgen.owned_eq_some hdescribed hf).mp howned'
  have hsame : role.place = role'.place := by
    obtain ⟨hlt, hget⟩ := List.getElem?_eq_some_iff.mp hplace
    obtain ⟨hlt', hget'⟩ := List.getElem?_eq_some_iff.mp hplace'
    exact ((List.nodup_flatMap.mp hdescribed.drawn.nodup_numbers).1 f
      hf).getElem_inj_iff.mp
      (hget.trans hget'.symm)
  rw [Prod.mk.injEq]
  refine ⟨rfl, ?_⟩
  cases role <;> cases role' <;> simp_all [Role.place]

theorem Generated.of_valid {f : GenObject} (hf : f ∈ objects)
    (hkind : f.kind ≠ .file) {slot : Slot}
    (hvalid : (disk.entries f.inum slot).valid = true) :
    ∃ entry, f.entries[slot.val]? = some entry ∧ entry.1 = true ∧
      (disk.entries f.inum slot).nameString = entry.2.1 ∧
      ValidName entry.2.1 := by
  have hentries := (hdescribed.object f hf).entriesDescribed
  obtain ⟨-, hslot⟩ := hgen.entries_eq hdescribed hf hkind slot
  cases hentry : f.entries[slot.val]? with
  | none =>
      rw [hentry] at hslot
      dsimp only at hslot
      rw [hvalid] at hslot
      cases hslot
  | some entry =>
      rw [hentry] at hslot
      obtain ⟨hsame, -, hname⟩ := hslot
      have hval := hsame.symm.trans hvalid
      have hok := hentries.name entry (List.mem_of_getElem? hentry) hval
      exact ⟨entry, rfl, hval, hname hok.nul_free, hok⟩

theorem Generated.directoryOk {f : GenObject} (hf : f ∈ objects)
    (hkind : f.kind ≠ .file) : DirectoryOk (disk.entries f.inum) where
  last_zero slot := (hgen.entries_eq hdescribed hf hkind slot).1
  nonempty slot hvalid := by
    obtain ⟨entry, -, -, hname, hok⟩ :=
      hgen.of_valid hdescribed hf hkind hvalid
    rw [hname]
    exact hok.ne_nil
  slash_free slot hvalid := by
    obtain ⟨entry, -, -, hname, hok⟩ :=
      hgen.of_valid hdescribed hf hkind hvalid
    rw [hname]
    exact hok.slash_free
  distinct slot slot' hvalid hvalid' heq := by
    obtain ⟨entry, hentry, hval, hname, -⟩ :=
      hgen.of_valid hdescribed hf hkind hvalid
    obtain ⟨entry', hentry', hval', hname', -⟩ :=
      hgen.of_valid hdescribed hf hkind hvalid'
    rw [hname, hname'] at heq
    exact Fin.ext (index_inj (p := Prod.fst) (g := fun entry => entry.2.1)
      (hdescribed.object f hf).entriesDescribed.distinct hentry hentry' hval
      hval' heq)

theorem Generated.objectOk {f : GenObject} (hf : f ∈ objects) :
    ObjectOk disk f.inum := by
  have hobject := hdescribed.object f hf
  refine ⟨?_, fun _ => ?_, fun hdir => ?_⟩
  · rw [hgen.inode f hf, hobject.drawn.record_size]
    rcases f.kind_cases with ⟨hkind, -⟩ | hkind
    · exact Or.inl (hobject.drawn.isReg_iff.mpr hkind)
    · exact Or.inr ⟨hobject.drawn.isDir_iff.mpr (by simp [hkind]),
        (hobject.dir _ hkind).2.1⟩
  · rw [hgen.inode f hf, hobject.drawn.record_size]
    exact hobject.size
  · rw [hgen.inode f hf] at hdir
    exact hgen.directoryOk hdescribed hf (hobject.drawn.isDir_iff.mp hdir)

/-- The image of a described tree is consistent. -/
theorem Generated.consistent : Consistent disk nblocks := by
  have hfits := hdescribed.nblocks_le
  obtain ⟨root, hroot, hinum, hkind⟩ := hdescribed.root
  refine ⟨?_, (hgen.diskSize hdescribed.drawn).le, fun b hb => ?_, ?_,
    fun path names i hnode => ?_, ?_, hgen.exclusive hdescribed⟩
  · rw [hgen.diskSize hdescribed.drawn]
    omega
  · rw [hgen.marked]
    interval_cases b
    · exact List.mem_cons_self
    · exact List.mem_cons_of_mem _ List.mem_cons_self
    · exact hinum ▸ mem_usedNumbers hroot List.mem_cons_self
  · rw [← hinum, hgen.inode root hroot]
    exact (hdescribed.object root hroot).drawn.isDir_iff.mpr hkind
  · obtain ⟨f, hf, rfl⟩ := hgen.object_of_node hdescribed hnode
    exact hgen.objectOk hdescribed hf
  · rintro ⟨path, role⟩ b hholder
    obtain ⟨f, hf, names, -, -, hmem⟩ := hgen.of_holder hdescribed hholder
    obtain ⟨hlow, hlt⟩ := hdescribed.drawn.number_range hf hmem
    rw [hgen.diskSize hdescribed.drawn, hgen.marked]
    exact ⟨hlow, hlt, mem_usedNumbers hf hmem⟩

/-- Every object is in the graph. -/
theorem Generated.node_of_reached {num : Nat} (hreached : Reached objects num) :
    ∃ path names, disk.node path = some (names, num) := by
  induction hreached with
  | root => exact ⟨[], [], Disk.node_nil⟩
  | @entry f num hf _ hnum ih =>
      obtain ⟨path, names, hnode⟩ := ih
      obtain ⟨k, entry, hentry, hvalid, rfl⟩ := GenObject.mem_links.mp hnum
      obtain ⟨hk, -⟩ := List.getElem?_eq_some_iff.mp hentry
      have hfits := (hdescribed.object f hf).entriesDescribed.length_le
      have hedge := hgen.edge_eq hdescribed hf ⟨k, by omega⟩
      rw [hentry, Option.bind_some, if_pos hvalid] at hedge
      exact ⟨_, _, Disk.node_child hnode hedge⟩

/-- Nothing is marked but the reserved blocks and the numbers of objects, and
every number is held. -/
theorem Generated.noLeak : NoLeak disk := by
  intro b
  rw [hgen.marked, hgen.diskSize hdescribed.drawn]
  constructor
  · rintro ⟨-, hused⟩
    rw [usedNumbers, List.mem_cons, List.mem_cons, List.mem_flatMap] at hused
    rcases hused with rfl | rfl | ⟨f, hf, hmem⟩
    · exact Or.inl (Or.inl rfl)
    · exact Or.inl (Or.inr rfl)
    · right
      obtain ⟨path, names, hnode⟩ :=
        hgen.node_of_reached hdescribed (hdescribed.reached f hf)
      have hheld : ∀ role, disk.owned f.inum role = some b →
          disk.Held b := fun role howned =>
        ⟨(path, role), (Disk.holder_of_node hnode role).trans howned⟩
      obtain ⟨k, hk⟩ := List.getElem?_of_mem hmem
      cases k with
      | zero =>
          exact hheld .inode ((hgen.owned_eq_some hdescribed hf).mpr
            ⟨hk, by simp, by simp⟩)
      | succ k =>
          by_cases hkind : f.kind = .file
          · exact hheld (.data k) ((hgen.owned_eq_some hdescribed hf).mpr
              ⟨hk, by simp, fun _ _ => hkind⟩)
          · have hone := (hdescribed.object f hf).blocks_of_dir hkind
            obtain ⟨hlt, -⟩ := List.getElem?_eq_some_iff.mp hk
            rw [GenObject.numbers, List.length_cons, hone] at hlt
            obtain rfl : k = 0 := by omega
            exact hheld .entries ((hgen.owned_eq_some hdescribed hf).mpr
              ⟨hk, fun _ => hkind, by simp⟩)
  · have htwo := hdescribed.drawn.two_lt
    rintro ((rfl | rfl) | ⟨⟨path, role⟩, hholder⟩)
    · exact ⟨by omega, List.mem_cons_self⟩
    · exact ⟨by omega, List.mem_cons_of_mem _ List.mem_cons_self⟩
    · obtain ⟨f, hf, names, -, -, hmem⟩ := hgen.of_holder hdescribed hholder
      exact ⟨(hdescribed.drawn.number_range hf hmem).2,
        mem_usedNumbers hf hmem⟩

end

/-! The tree. -/

def GenObject.attributes (f : GenObject) : Attributes where
  mode := .ofNat f.mode
  uid := .ofNat f.uid
  gid := .ofNat f.gid
  ctime := .ofNat f.ctime
  mtime := .ofNat f.mtime

/-- The letters of a file, up to its size. -/
def GenObject.content (randint : Randint) (f : GenObject) : List UInt8 :=
  (List.range f.size.toNat).map
    (blockByte fun k j => genChars ((randint f.name k j).castSucc))

def GenObject.shown (randint : Randint) (f : GenObject) : Object :=
  match f.kind with
  | .file => .leaf f.attributes (f.content randint)
  | .dir _ => .branch f.attributes

/-- The valid entry under a name. -/
def GenObject.entryNamed (f : GenObject) (name : Name) :
    Option (Bool × Name × Nat) :=
  f.entries.find? fun entry => entry.1 && entry.2.1 == name

def followNames (objects : List GenObject) :
    GenObject → List Name → Option GenObject
  | f, [] => some f
  | f, name :: names => do
      let entry ← f.entryNamed name
      let g ← findObject objects entry.2.2
      followNames objects g names

/-- The tree that a description is about. -/
def describedTree (randint : Randint) (objects : List GenObject) : FileTree :=
  fun names => do
    let root ← findObject objects 2
    let f ← followNames objects root names
    some (f.shown randint)

section

variable {randint : Randint} {objects : List GenObject} {nblocks : Nat}
  {disk : Disk} (hdescribed : Described objects nblocks)

include hdescribed

variable (hgen : Generated randint objects nblocks disk)

include hgen

/-- A search of the directory block finds what the description has. -/
theorem Generated.firstNamed_eq {f : GenObject} (hf : f ∈ objects)
    (hkind : f.kind ≠ .file) (name : Name) :
    match f.entryNamed name with
    | none => firstNamed (disk.entries f.inum) name = none
    | some entry => ∃ slot, firstNamed (disk.entries f.inum) name =
        some slot ∧ ∃ g ∈ objects, g.inum = entry.2.2 ∧
          (disk.entries f.inum slot).inode.toNat = g.inum := by
  have hentries := (hdescribed.object f hf).entriesDescribed
  cases hfound : f.entryNamed name with
  | none =>
      refine firstNamed_eq_none.mpr fun slot hvalid heq => ?_
      obtain ⟨entry, hentry, hval, hname, -⟩ :=
        hgen.of_valid hdescribed hf hkind hvalid
      have hnone := List.find?_eq_none.mp hfound entry
        (List.mem_of_getElem? hentry)
      rw [hname] at heq
      simp [hval, heq] at hnone
  | some entry =>
      have hmem := List.mem_of_find?_eq_some hfound
      obtain ⟨hval, hname⟩ : entry.1 = true ∧ entry.2.1 = name := by
        simpa using List.find?_some hfound
      obtain ⟨k, hentry⟩ := List.getElem?_of_mem hmem
      obtain ⟨hk, -⟩ := List.getElem?_eq_some_iff.mp hentry
      have hfits := hentries.length_le
      have hedge := hgen.edge_eq hdescribed hf ⟨k, by omega⟩
      rw [hentry, Option.bind_some, if_pos hval] at hedge
      obtain ⟨-, hvalid, hhop⟩ := Disk.edge_eq_some.mp hedge
      obtain ⟨g, hg, hnum⟩ := hentries.target entry hmem hval
      have hstored : (disk.entries f.inum ⟨k, by omega⟩).nameString =
          name := by rw [← hname, hhop]
      refine ⟨⟨k, by omega⟩, ?_, g, hg, hnum, ?_⟩
      · rw [← hstored]
        exact firstNamed_of_entry (hgen.directoryOk hdescribed hf hkind)
          hvalid
      · rw [hnum, hhop]

theorem Generated.resolveFrom_eq {f : GenObject} (hf : f ∈ objects)
    (names : List Name) :
    match followNames objects f names with
    | none => ∃ status, disk.resolveFrom f.inum names = .error status
    | some g => g ∈ objects ∧
        ∃ path, disk.resolveFrom f.inum names = .ok (path, g.inum) := by
  induction names generalizing f with
  | nil => exact ⟨hf, [], rfl⟩
  | cons name names ih =>
      have hobject := hdescribed.object f hf
      rw [followNames, Disk.resolveFrom]
      have hdir : (disk.inode f.inum).isDir = true ↔ f.kind ≠ .file := by
        rw [hgen.inode f hf]
        exact hobject.drawn.isDir_iff
      by_cases hkind : f.kind = .file
      · have hnone : f.entryNamed name = none := by
          rw [GenObject.entryNamed, GenObject.entries, hkind]
          rfl
        rw [hnone, if_neg fun h => hdir.mp h hkind]
        exact ⟨_, rfl⟩
      · have hfirst := hgen.firstNamed_eq hdescribed hf hkind name
        rw [if_pos (hdir.mpr hkind)]
        cases hentry : f.entryNamed name with
        | none =>
            rw [hentry] at hfirst
            dsimp only at hfirst
            rw [hfirst]
            exact ⟨_, rfl⟩
        | some entry =>
            rw [hentry] at hfirst
            obtain ⟨slot, hslot, g, hg, hnum, hinode⟩ := hfirst
            have hrest := ih hg
            simp only [hslot, hinode, Option.bind_eq_bind, Option.bind_some,
              ← hnum, hdescribed.drawn.findObject_eq hg]
            cases hfollow : followNames objects g names with
            | none =>
                rw [hfollow] at hrest
                obtain ⟨status, hstatus⟩ := hrest
                rw [hstatus]
                exact ⟨status, rfl⟩
            | some last =>
                rw [hfollow] at hrest
                obtain ⟨hlast, path, hpath⟩ := hrest
                rw [hpath]
                exact ⟨hlast, _, rfl⟩

/-- An object is shown as it is described. -/
theorem Generated.object_eq {f : GenObject} (hf : f ∈ objects) :
    disk.object f.inum = f.shown randint := by
  have hobject := hdescribed.object f hf
  have hinode := hgen.inode f hf
  rw [GenObject.shown]
  rcases f.kind_cases with ⟨hkind, -⟩ | hkind
  · have hdir : ¬ (disk.inode f.inum).isDir = true := by
      rw [hinode]
      exact fun h => hobject.drawn.isDir_iff.mp h hkind
    rw [Disk.object_of_not_isDir hdir, hkind, fileContent, hinode,
      hobject.drawn.record_length]
    dsimp only
    congr 1
    refine List.map_congr_left fun o ho => ?_
    rw [List.mem_range] at ho
    have hk : o / 4096 < f.blocks.length := by
      rw [hobject.blocks, blockCount]
      omega
    have hb := List.getElem?_eq_getElem hk
    have hdata := hgen.data f hf _ _ hb
    rw [GenObject.block, hkind, Option.some.injEq] at hdata
    have hptr := hgen.ptr hdescribed.drawn hf hb
    rw [hinode] at hptr
    rw [blockByte, blockByte, hptr, ← hdata]
  · have hdir : (disk.inode f.inum).isDir = true := by
      rw [hinode]
      exact hobject.drawn.isDir_iff.mpr (by simp [hkind])
    rw [Disk.object_of_isDir hdir, hkind, hinode]
    rfl

/-- The image shows the tree that the description is about. -/
theorem Generated.tree_eq : disk.tree = describedTree randint objects := by
  funext names
  obtain ⟨root, hroot, hinum, -⟩ := hdescribed.root
  have hfound := hdescribed.drawn.findObject_eq hroot
  have hresolve := hgen.resolveFrom_eq hdescribed hroot names
  rw [hinum] at hfound hresolve
  rw [Disk.tree, describedTree, hfound, Disk.resolve, Option.bind_eq_bind,
    Option.bind_some]
  cases hfollow : followNames objects root names with
  | none =>
      rw [hfollow] at hresolve
      obtain ⟨status, hstatus⟩ := hresolve
      rw [hstatus]
      rfl
  | some f =>
      rw [hfollow] at hresolve
      obtain ⟨hf, path, hpath⟩ := hresolve
      rw [hpath]
      exact congrArg some (hgen.object_eq hdescribed hf)

end

/-- `gen-disk.py` makes of a described tree, without a complaint, an image of
the size asked for that is consistent, leaks no block, shows that tree, and
passes `read-img.py`. -/
theorem genDisk_shows (randint : Randint) {files dirs : List GenObject}
    {nblocks : Nat} (hdescribed : Described (files ++ dirs) nblocks)
    {limit : Nat} (hlimit : nblocks ≤ limit + 2) :
    ∃ image, genDisk randint files dirs nblocks = some (image, []) ∧
      Consistent (imageDisk image) image.length ∧ NoLeak (imageDisk image) ∧
      (imageDisk image).tree = describedTree randint (files ++ dirs) ∧
      Quiet (readImg limit (.whole (imageDisk image) image.length)) := by
  obtain ⟨image, hrun, hlength, hgen⟩ :=
    hdescribed.drawn.genDisk_generated randint
  have hcons : Consistent (imageDisk image) image.length := by
    rw [hlength]
    exact hgen.consistent hdescribed
  have hwell : WellMarked limit (.whole (imageDisk image) image.length) :=
    hcons.wellMarked rfl (congrArg FsSuper.magic hgen.superblock)
      ((hgen.diskSize hdescribed.drawn).trans hlength.symm)
      (hlength.trans_le hlimit)
  exact ⟨image, hrun, hcons, hgen.noLeak hdescribed,
    hgen.tree_eq hdescribed, quiet_readImg.mpr hwell⟩

namespace Sample

/-! A root directory with the file `a` of 5000 bytes, between two unused
entries, and the directory `d`. -/

def genA : GenObject :=
  ⟨.file, 4, [47, 97], 500, 500, 0o100666, 7, 8, 5000, [5, 6]⟩

def genTop : GenObject :=
  ⟨.dir [(false, [110], 0), (true, nameA, 4), (false, [110], 0),
    (true, nameD, 7)], 2, [47], 0, 0, 0o040777, 7, 7, 4096, [3]⟩

def genD : GenObject :=
  ⟨.dir [], 7, [47, 100], 0, 0, 0o040777, 7, 7, 4096, [8]⟩

theorem objectDescribed_a (objects : List GenObject) :
    ObjectDescribed objects genA :=
  ⟨by decide, by decide, fun _ => by decide, fun _ hkind => by cases hkind⟩

theorem objectDescribed_d (objects : List GenObject) :
    ObjectDescribed objects genD := by
  refine ⟨by decide, by decide, fun hkind => (by cases hkind),
    fun entries hkind => ?_⟩
  cases hkind
  exact ⟨by decide, by decide, by decide, by simp, by simp,
    List.Pairwise.nil, by simp⟩

theorem objectDescribed_top : ObjectDescribed [genA, genTop, genD] genTop := by
  refine ⟨by decide, by decide, fun hkind => (by cases hkind),
    fun entries hkind => ?_⟩
  cases hkind
  refine ⟨by decide, by decide, by decide, by decide, ?_, by decide, ?_⟩
  · simp [validName_a, validName_d]
  · simp [genA, genTop, genD]

theorem genDescribed : Described [genA, genTop, genD] 16 := by
  have hroot : Reached [genA, genTop, genD] genTop.inum := .root
  have htop : genTop ∈ [genA, genTop, genD] := by simp
  refine ⟨by decide, by decide, by decide, ?_,
    ⟨genTop, htop, rfl, by simp [genTop]⟩, by decide, ?_⟩
  · simp only [List.forall_mem_cons, List.not_mem_nil, false_implies,
      implies_true, and_true]
    exact ⟨objectDescribed_a _, objectDescribed_top, objectDescribed_d _⟩
  · simp only [List.forall_mem_cons, List.not_mem_nil, false_implies,
      implies_true, and_true]
    exact ⟨.entry htop hroot (by decide), hroot,
      .entry htop hroot (by decide)⟩

end Sample

theorem genDisk_shows_sample :
    ∃ image, genDisk (fun _ _ _ => 0) [Sample.genA]
        [Sample.genTop, Sample.genD] 16 = some (image, []) ∧
      Consistent (imageDisk image) image.length ∧ NoLeak (imageDisk image) ∧
      (imageDisk image).tree = describedTree (fun _ _ _ => 0)
        ([Sample.genA] ++ [Sample.genTop, Sample.genD]) ∧
      Quiet (readImg 1000 (.whole (imageDisk image) image.length)) :=
  genDisk_shows (fun _ _ _ => 0) Sample.genDescribed (by decide)

end Fs5600
