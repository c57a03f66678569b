/-
A block write that fails in the middle of a call: what the image and the two
bitmaps then say about the blocks in use.
-/
import Fs5600.SampleImage

namespace Fs5600

open MachineWord EffectProgram Program LabelledWalk

/-- Every block held in the graph of a disk is marked in a bitmap. -/
def Covers (map : Block) (disk : Disk) : Prop :=
  ∀ key b, disk.holder key = some b → Marked map b

/-- Neither the stored nor the loaded bitmap offers a block in use. -/
def Guarded (world : World) : Prop :=
  Covers (world.disk 1) world.disk ∧ Covers world.globals.bitmap world.disk

theorem Covers.mono {map map' : Block} {disk : Disk}
    (hcovers : Covers map disk) (hle : ∀ b, Marked map b → Marked map' b) :
    Covers map' disk :=
  fun key b hheld => hle b (hcovers key b hheld)

theorem Mounted.guarded {world : World} (hmount : Mounted world) :
    Guarded world := by
  have hcovers : Covers (world.disk 1) world.disk := fun key b hheld =>
    (hmount.consistent.range key b hheld).2.2
  refine ⟨hcovers, ?_⟩
  rw [hmount.bitmap]
  exact hcovers

/-- Whoever leaves all marked blocks alone but the bitmap changes no
ownership. -/
theorem Consistent.holder_congr {disk disk' : Disk} {size : Nat}
    (hcons : Consistent disk size)
    (hagree : ∀ b, Marked (disk 1) b → b ≠ 1 → disk' b = disk b) :
    disk'.holder = disk.holder := by
  have hroot : disk.node [] = some ([], 2) := Disk.node_nil
  have hinode : disk'.inode 2 = disk.inode 2 :=
    Disk.inode_congr (hagree 2 (hcons.reserved 2 (by omega)) (by omega))
  have hrw := hcons.inodeRewrite hroot
    (fun b hmarked hone _ _ => hagree b hmarked hone)
    (congrArg FsInode.isDir hinode)
    (fun _ => congrArg (fun inode => FsInode.ptr inode 0) hinode)
  funext ⟨path, role⟩
  by_cases hpath : path = []
  · subst hpath
    rw [hrw.holder_site, Disk.holder_of_node hroot, Disk.owned, hinode,
      Disk.owned]
  · exact hrw.holder_eq hpath role

theorem applyAll_markEffects (map : Block) (world : World) :
    applyAll (markEffects map) world =
      (world.modify (Globals.setBitmap map)).issued.put 1 map := rfl

/-- Effects that store one bitmap only. -/
def StoresMap (map : Block) (effects : List Effect) : Prop :=
  ∀ effect ∈ effects, match effect with
    | .write b buf => b = 1 → buf = map
    | .modify change => ∀ globals, (change globals).bitmap = globals.bitmap ∨
        (change globals).bitmap = map

theorem StoresMap.front {map : Block} {front back : List Effect}
    (hstores : StoresMap map (front ++ back)) : StoresMap map front :=
  fun effect hmem => hstores effect (List.mem_append_left _ hmem)

theorem StoresMap.back {map : Block} {front back : List Effect}
    (hstores : StoresMap map (front ++ back)) : StoresMap map back :=
  fun effect hmem => hstores effect (List.mem_append_right _ hmem)

/-- Both bitmaps are the old or the new one. -/
theorem StoresMap.applyAll {map : Block} {effects : List Effect}
    (hstores : StoresMap map effects) (world : World) :
    ((applyAll effects world).disk 1 = world.disk 1 ∨
      (applyAll effects world).disk 1 = map) ∧
    ((applyAll effects world).globals.bitmap = world.globals.bitmap ∨
      (applyAll effects world).globals.bitmap = map) := by
  induction effects generalizing world with
  | nil => exact ⟨Or.inl rfl, Or.inl rfl⟩
  | cons effect effects ih =>
      have hhead := hstores effect List.mem_cons_self
      have hrest : StoresMap map effects := fun effect' hmem =>
        hstores effect' (List.mem_cons_of_mem effect hmem)
      obtain ⟨hdisk, hbitmap⟩ := ih hrest (effect.apply world)
      rw [applyAll_cons]
      cases effect with
      | write b buf =>
          refine ⟨?_, hbitmap⟩
          rcases hdisk with hdisk | hdisk
          · by_cases hone : b = 1
            · subst hone
              rw [hdisk, ← hhead rfl]
              refine Or.inr ?_
              rw [Effect.apply, World.put_disk, Function.update_self]
            · rw [hdisk]
              exact Or.inl (Function.update_of_ne (Ne.symm hone) _ _)
          · exact Or.inr hdisk
      | modify change =>
          refine ⟨hdisk, ?_⟩
          rcases hbitmap with hbitmap | hbitmap
          · rw [hbitmap]
            exact hhead world.globals
          · exact Or.inr hbitmap

/-- With the old bitmaps and the new one covering the graph, whichever is
stored by now does. -/
theorem StoresMap.guarded {map : Block} {effects : List Effect}
    (hstores : StoresMap map effects) {world : World}
    (hdisk : Covers (world.disk 1) (Fs5600.applyAll effects world).disk)
    (hbitmap : Covers world.globals.bitmap
      (Fs5600.applyAll effects world).disk)
    (hmap : Covers map (Fs5600.applyAll effects world).disk) :
    Guarded (Fs5600.applyAll effects world) := by
  obtain ⟨hstored, hloaded⟩ := hstores.applyAll world
  refine ⟨?_, ?_⟩
  · rcases hstored with hstored | hstored
    · rw [hstored]
      exact hdisk
    · rw [hstored]
      exact hmap
  · rcases hloaded with hloaded | hloaded
    · rw [hloaded]
      exact hbitmap
    · rw [hloaded]
      exact hmap

section

variable {world : World} (hmount : Mounted world) {names : List Name}
  {change : Change}

include hmount

theorem Change.modify_cases {settle : Globals → Globals}
    (hmem : Effect.modify settle ∈ change.effects world) :
    (∃ delta, settle = Globals.addFree delta) ∨
      settle = Globals.setBitmap (change.map world.disk) := by
  cases change with
  | attributes path inum inode =>
      cases List.mem_singleton.mp hmem
  | relabel path inum slot name =>
      cases List.mem_singleton.mp hmem
  | insert path inum slot name inode dirflag blocks =>
      rw [effects, hmount.bitmap] at hmem
      simp only [markEffects, Disk.setEntry, List.mem_append, List.mem_cons,
        List.not_mem_nil, or_false, reduceCtorEq, false_or,
        Effect.modify.injEq] at hmem
      rcases hmem with hzero | hfree | hmark
      · split at hzero
        · cases List.mem_singleton.mp hzero
        · cases hzero
      · exact Or.inl ⟨_, hfree⟩
      · exact Or.inr hmark
  | remove path inum slot blocks =>
      rw [effects, hmount.bitmap] at hmem
      simp only [markEffects, Disk.setEntry, List.mem_append, List.mem_cons,
        List.not_mem_nil, or_false, reduceCtorEq, false_or,
        Effect.modify.injEq] at hmem
      rcases hmem with hmark | hfree
      · exact Or.inr hmark
      · exact Or.inl ⟨_, hfree⟩
  | shrink path inum len =>
      rw [effects, hmount.bitmap] at hmem
      simp only [markEffects, List.mem_append, List.mem_cons,
        List.not_mem_nil, or_false, reduceCtorEq, false_or,
        Effect.modify.injEq] at hmem
      rcases hmem with hmark | hfree
      · exact Or.inr hmark
      · exact Or.inl ⟨_, hfree⟩
  | write path inum offset buf mtime fresh =>
      rw [effects, hmount.bitmap] at hmem
      simp only [List.mem_append, List.mem_cons, List.not_mem_nil, or_false,
        reduceCtorEq, false_or, Effect.modify.injEq] at hmem
      rcases hmem with (hmark | hdata) | hfree
      · split at hmark
        · cases hmark
        · simp only [markEffects, List.mem_cons, List.not_mem_nil, or_false,
            reduceCtorEq, Effect.modify.injEq] at hmark
          exact Or.inr hmark
      · obtain ⟨k, -, heq⟩ := List.mem_map.mp hdata
        cases heq
      · exact Or.inl ⟨_, hfree⟩

theorem Change.storesMap (hvalid : change.Valid world names) :
    StoresMap (change.map world.disk) (change.effects world) := by
  intro effect hmem
  cases effect with
  | write b buf =>
      rintro rfl
      rw [← Change.apply_bitmap hmount hvalid]
      exact (applyAll_disk_of_once (Change.effects_once hmount hvalid)
        hmem).symm
  | modify settle =>
      intro globals
      rcases Change.modify_cases hmount hmem with ⟨delta, rfl⟩ | rfl
      · exact Or.inl (Globals.addFree_bitmap delta globals)
      · exact Or.inr (Globals.setBitmap_bitmap _ globals)

/-- A visible change is covered by its own bitmap. -/
theorem Change.covers (hvalid : change.Valid world names) {disk' : Disk}
    (hshows : change.Shows world.disk disk') :
    Covers (change.map world.disk) disk' := fun key b hheld =>
  (((Change.transfer hmount hvalid hshows).sound
    hmount.consistent.sound).marked key b hheld).2

/-! Where a change can stop. -/

variable {front back : List Effect} {b : Nat} {buf : Block}
  (hvalid : change.Valid world names)
  (heffects : change.effects world = front ++ .write b buf :: back)

include hvalid heffects

/-- Nothing of the graph is written yet, and no mark is taken off. -/
theorem Change.guarded_before (hkept : change.released world.disk = [])
    (hunpublished : ∀ b' buf', Effect.write b' buf' ∈ front →
      b' = 1 ∨ ¬ Marked (world.disk 1) b') :
    Guarded (applyAll front world) := by
  have hstores := Change.storesMap hmount hvalid
  rw [heffects] at hstores
  have hcovers : Covers (world.disk 1) (applyAll front world).disk := by
    have hholder : (applyAll front world).disk.holder = world.disk.holder := by
      refine hmount.consistent.holder_congr fun b' hmarked hone =>
        applyAll_disk_of_notMem fun buf' hmem => ?_
      rcases hunpublished b' buf' hmem with heq | hfree
      · exact hone heq
      · exact hfree hmarked
    intro key b' hheld
    rw [hholder] at hheld
    exact hmount.guarded.1 key b' hheld
  have hmap : Covers (change.map world.disk) (applyAll front world).disk := by
    refine hcovers.mono fun b' hmarked => ?_
    rw [Change.marked_map hmount hvalid, hkept]
    exact ⟨List.not_mem_nil, Or.inr hmarked⟩
  refine hstores.front.guarded hcovers ?_ hmap
  rw [hmount.bitmap]
  exact hcovers

/-- The change is visible, and no mark is missing. -/
theorem Change.guarded_after (htaken : change.taken = [])
    (hpublished : change.published world.disk ⊆ front) :
    Guarded (applyAll front world) := by
  have hstores := Change.storesMap hmount hvalid
  rw [heffects] at hstores
  have hmap := Change.covers hmount hvalid
    (Change.shows hmount hvalid heffects hpublished)
  have hcovers : Covers (world.disk 1) (applyAll front world).disk := by
    refine hmap.mono fun b' hmarked => ?_
    rw [Change.marked_map hmount hvalid, htaken] at hmarked
    rcases hmarked.2 with hnew | hold
    · cases hnew
    · exact hold
  refine hstores.front.guarded hcovers ?_ hmap
  rw [hmount.bitmap]
  exact hcovers

end

/-- The changes that enter a new object. -/
def Change.Enters : Change → Prop
  | .insert _ _ _ _ _ _ _ => True
  | _ => False

section

variable {world : World} (hmount : Mounted world) {names : List Name}
  {change : Change} {front back : List Effect} {b : Nat} {buf : Block}
  (hvalid : change.Valid world names)
  (heffects : change.effects world = front ++ .write b buf :: back)

include hmount hvalid heffects

/-- A write marks its fresh blocks before it stores the inode. -/
theorem Change.write_guarded {path : List Slot} {inum offset : Nat}
    {data : List UInt8} {mtime : UInt32} {fresh : List Nat}
    (hchange : change = .write path inum offset data mtime fresh)
    (hfresh : fresh ≠ []) : Guarded (applyAll front world) := by
  subst hchange
  have hstores := Change.storesMap hmount hvalid
  rw [heffects] at hstores
  have hmarking : ∀ effects : List Effect, effects ⊆
      markEffects (bitSetAll world.globals.bitmap fresh) →
      front = effects → Guarded (applyAll front world) := by
    intro effects hsubset hfront
    refine Change.guarded_before hmount hvalid heffects rfl ?_
    intro b' buf' hmem
    rw [hfront] at hmem
    exact Or.inl (mem_markEffects (hsubset hmem)).1
  have horder := heffects
  rw [effects, if_neg hfresh, List.append_assoc] at horder
  rcases List.append_eq_append_iff.mp horder with
    ⟨rest, hfront, hrest⟩ | ⟨rest, hmarks, -⟩
  · rcases List.cons_eq_append_iff.mp hrest with ⟨hnil, -⟩ |
      ⟨tail, htail, -⟩
    · rw [hnil, List.append_nil] at hfront
      exact hmarking _ (List.Subset.refl _) hfront
    · have hmap := Change.covers hmount hvalid
        (Change.shows hmount hvalid heffects (by
          rw [hfront, htail, published]
          exact List.cons_subset.mpr
            ⟨List.mem_append_right _ List.mem_cons_self,
              List.nil_subset _⟩))
      rw [hfront] at hstores
      have hmarks : bitSetAll world.globals.bitmap fresh =
          Change.map world.disk (.write path inum offset data mtime fresh) :=
        congrArg (bitSetAll · fresh) hmount.bitmap
      have hmarked : ∀ map', map' = bitSetAll world.globals.bitmap fresh →
          Covers map' (applyAll (markEffects (bitSetAll world.globals.bitmap
            fresh) ++ rest) world).disk := by
        rintro map' rfl
        rw [← hfront, hmarks]
        exact hmap
      rw [hfront, applyAll_append] at hmap ⊢
      rw [applyAll_append] at hmarked
      refine hstores.front.back.guarded (hmarked _ ?_) (hmarked _ ?_) hmap
      · rw [applyAll_markEffects, World.put_disk, Function.update_self]
      · rw [applyAll_markEffects, World.put_globals, World.issued_globals,
          World.modify_globals, Globals.setBitmap_bitmap]
  · refine hmarking front ?_ rfl
    rw [hmarks]
    exact List.subset_append_left front rest

/-- Once the entry of a creation is written, the new inode is in the graph
and, with the bitmap written last, unmarked. -/
theorem Change.insert_exposed {path : List Slot} {inum : Nat}
    {slot : Slot} {name : Name} {inode : FsInode} {dirflag : Bool}
    {blocks : List Nat}
    (hchange : change = .insert path inum slot name inode dirflag blocks)
    (hstored : world.disk.setEntry inum slot
      ((world.disk.entries inum slot).occupied (blocks.getD 0 0) name) ∈
        front) : ¬ Guarded (applyAll front world) := by
  subst hchange
  have hok : InsertOk world names path inum slot name inode dirflag blocks :=
    hvalid
  have honce := Change.effects_once hmount hvalid
  rw [heffects] at honce
  have hlast : Effect.write 1 (bitSetAll world.globals.bitmap blocks) ∈
      Effect.write b buf :: back := by
    have hend := congrArg List.getLast? heffects
    rw [effects, List.getLast?_append_of_ne_nil _ (by simp),
      List.getLast?_append_of_ne_nil _ (by simp)] at hend
    exact List.mem_of_getLast? hend.symm
  have hmap : (applyAll front world).disk 1 = world.disk 1 := by
    refine applyAll_disk_of_notMem fun buf' hmem => ?_
    rw [WritesOnce, List.filterMap_append] at honce
    exact (List.nodup_append.mp honce).2.2 1
      (mem_targets.mpr ⟨buf', hmem⟩) 1 (mem_targets.mpr ⟨_, hlast⟩) rfl
  have hagree : ∀ b', Marked (world.disk 1) b' → b' ≠ 1 →
      b' ≠ (world.disk.inode inum).ptr 0 →
      (applyAll front world).disk b' = world.disk b' := by
    intro b' hmarked hone hother
    refine applyAll_disk_of_notMem fun buf' hmem => ?_
    have hall : Effect.write b' buf' ∈ Change.effects world
        (.insert path inum slot name inode dirflag blocks) := by
      rw [heffects]
      exact List.mem_append_left _ hmem
    rcases Change.mem_effects hmount hvalid hall with heq | hrw | hnew
    · exact hone heq
    · exact hother hrw
    · exact hnew hmarked
  obtain ⟨hrw, hentries⟩ := hmount.consistent.entryRewrite hok.node hok.isDir
    hagree (applyAll_disk_of_once honce.front hstored)
  have hnode := Disk.node_behind hrw.node_path slot []
  rw [hok.edge hmount hrw hentries] at hnode
  rintro ⟨hcovers, -⟩
  have hmarked := hcovers _ _ (Disk.holder_inode hnode)
  rw [hmap] at hmarked
  exact (hok.child_usable hmount).2.2 hmarked

/-- A creation may stop before its entry is written, not after. -/
theorem Change.insert_guarded_iff {path : List Slot} {inum : Nat}
    {slot : Slot} {name : Name} {inode : FsInode} {dirflag : Bool}
    {blocks : List Nat}
    (hchange : change = .insert path inum slot name inode dirflag blocks) :
    Guarded (applyAll front world) ↔ writeCount front < 2 := by
  subst hchange
  have hok : InsertOk world names path inum slot name inode dirflag blocks :=
    hvalid
  have horder := heffects
  rw [effects, List.append_assoc] at horder
  rcases List.cons_eq_append_iff.mp horder with ⟨hnil, -⟩ |
    ⟨rest, hfront, hrest⟩
  · rw [hnil]
    exact iff_of_true hmount.guarded Nat.two_pos
  rcases List.cons_eq_append_iff.mp hrest with ⟨hnil, -⟩ |
    ⟨rest', hrest', -⟩
  · rw [hnil] at hfront
    refine iff_of_true
      (Change.guarded_before hmount hvalid heffects rfl ?_) ?_
    · intro b' buf' hmem
      rw [hfront, List.mem_singleton, Effect.write.injEq] at hmem
      rw [hmem.1]
      exact Or.inr (hok.child_usable hmount).2.2
    · rw [hfront]
      exact Nat.one_lt_two
  · rw [hrest'] at hfront
    refine iff_of_false ?_ ?_
    · refine Change.insert_exposed hmount hvalid heffects rfl ?_
      rw [hfront]
      exact List.mem_cons_of_mem _ List.mem_cons_self
    · rw [hfront]
      simp [writeCount, Effect.target, Disk.setEntry]

theorem Change.stop_guarded (henters : ¬ change.Enters) :
    Guarded (applyAll front world) := by
  have hstart : front = [] → Guarded (applyAll front world) := by
    rintro rfl
    exact hmount.guarded
  cases change with
  | attributes path inum inode =>
      rcases List.cons_eq_append_iff.mp heffects with ⟨hnil, -⟩ |
        ⟨rest, -, hrest⟩
      · exact hstart hnil
      · simp at hrest
  | relabel path inum slot name =>
      rcases List.cons_eq_append_iff.mp heffects with ⟨hnil, -⟩ |
        ⟨rest, -, hrest⟩
      · exact hstart hnil
      · simp at hrest
  | insert path inum slot name inode dirflag blocks =>
      exact absurd trivial henters
  | remove path inum slot blocks =>
      rcases List.cons_eq_append_iff.mp heffects with ⟨hnil, -⟩ |
        ⟨rest, hfront, -⟩
      · exact hstart hnil
      · refine Change.guarded_after hmount hvalid heffects rfl ?_
        rw [hfront]
        exact List.cons_subset_cons _ (List.nil_subset rest)
  | shrink path inum len =>
      rcases List.cons_eq_append_iff.mp heffects with ⟨hnil, -⟩ |
        ⟨rest, hfront, -⟩
      · exact hstart hnil
      · refine Change.guarded_after hmount hvalid heffects rfl ?_
        rw [hfront]
        exact List.cons_subset_cons _ (List.nil_subset rest)
  | write path inum offset data mtime fresh =>
      by_cases hfresh : fresh = []
      · have horder := heffects
        rw [effects, if_pos hfresh] at horder
        rcases List.cons_eq_append_iff.mp horder with ⟨hnil, -⟩ |
          ⟨rest, hfront, -⟩
        · exact hstart hnil
        · refine Change.guarded_after hmount hvalid heffects hfresh ?_
          rw [hfront]
          exact List.cons_subset_cons _ (List.nil_subset rest)
      · exact Change.write_guarded hmount hvalid heffects rfl hfresh

end

/-- Only a creation that stops between its entry and its bitmap leaves a block
in use unmarked. -/
theorem Change.commit_guarded_iff {world : World} (hmount : Mounted world)
    {names : List Name} {change : Change}
    (hvalid : change.Valid world names) {k : Nat}
    (hfails : world.device.writeFails = failsAt k) :
    Guarded (commit (change.effects world) world).2 ↔
      ¬ (change.Enters ∧ 2 ≤ k ∧ k < writeCount (change.effects world)) := by
  rcases commit_failsAt (change.effects world) hfails with
    ⟨hle, hall⟩ | ⟨front, b, buf, back, heffects, hcount, hstop⟩
  · rw [hall]
    refine iff_of_true (Change.mounted hmount hvalid).guarded ?_
    rintro ⟨-, -, hlt⟩
    exact absurd hle (not_le.mpr hlt)
  · have hlt : k < writeCount (change.effects world) := by
      rw [heffects, ← hcount, writeCount, writeCount, List.filterMap_append,
        List.length_append]
      exact Nat.lt_add_of_pos_right Nat.succ_pos'
    rw [hstop]
    change Guarded (applyAll front world) ↔ _
    by_cases henters : change.Enters
    · cases change with
      | insert path inum slot name inode dirflag blocks =>
          rw [Change.insert_guarded_iff hmount hvalid heffects rfl, hcount]
          constructor
          · rintro hearly ⟨-, hlate, -⟩
            exact absurd hearly (not_lt.mpr hlate)
          · intro hnot
            exact not_le.mp fun hlate => hnot ⟨henters, hlate, hlt⟩
      | attributes | relabel | remove | shrink | write => cases henters
    · exact iff_of_true (Change.stop_guarded hmount hvalid heffects henters)
        fun hexposed => henters hexposed.1

theorem Change.writeCount_insert (world : World) (path : List Slot)
    (inum : Nat) (slot : Slot) (name : Name) (inode : FsInode)
    (dirflag : Bool) (blocks : List Nat) :
    writeCount (Change.effects world
      (.insert path inum slot name inode dirflag blocks)) =
        if dirflag then 4 else 3 := by
  cases dirflag <;> rfl

/-- A creation gets past its checks: the parent is a directory, the name is
new there, an entry is unused, and so many blocks are free. -/
def World.Admits (world : World) (path : CString) (count : Nat) : Prop :=
  ∃ site inum,
    world.disk.resolve (parse path).dropLast = .ok (site, inum) ∧
    (world.disk.inode inum).isDir = true ∧
    (∀ slot, (world.disk.entries inum slot).valid = true →
      (world.disk.entries inum slot).nameString ≠ leaf path) ∧
    (∃ slot, (world.disk.entries inum slot).valid = false) ∧
    count ≤ freeCount (world.disk 1) world.disk.diskSize

/-- The failing write comes after the entry of a new object is written and
before its blocks are marked in the stored bitmap. -/
def Exposes (world : World) (call : Call) (k : Nat) : Prop :=
  match call with
  | .create path _ => world.Admits path 1 ∧ k = 2
  | .mkdir path _ => world.Admits path 2 ∧ (k = 2 ∨ k = 3)
  | _ => False

theorem Mounted.planCreate_isOk_iff {world : World} (hmount : Mounted world)
    (ctx : Context) (path : CString) (mode : UInt32) (dirflag : Bool) :
    (∃ change, world.planCreate ctx path mode dirflag = .ok change) ↔
      world.Admits path (if dirflag then 2 else 1) := by
  rw [World.Admits, ← hmount.bitmap]
  constructor
  · rintro ⟨change, hplan⟩
    obtain ⟨site, inum, slot, blocks, hresolve, hdir, hnew, hslot, hblocks,
      -⟩ := World.planCreate_eq_ok.mp hplan
    refine ⟨site, inum, hresolve, hdir, firstNamed_eq_none.mp hnew,
      ⟨slot, firstInvalid_eq_some hslot⟩, not_lt.mp fun hfew => ?_⟩
    rw [← lowestFree_eq_none, hblocks] at hfew
    cases hfew
  · rintro ⟨site, inum, hresolve, hdir, hnew, ⟨slot, hslot⟩, hfits⟩
    cases hinvalid : firstInvalid (world.disk.entries inum) 0 with
    | none =>
        have hvalid := firstInvalid_eq_none.mp hinvalid slot
        rw [hslot] at hvalid
        cases hvalid
    | some slot' =>
        cases hblocks : lowestFree world.globals.bitmap
            world.disk.diskSize (if dirflag then 2 else 1) with
        | none =>
            have hfew := lowestFree_eq_none.mp hblocks
            exact absurd hfits (not_le.mpr hfew)
        | some blocks =>
            exact ⟨_, World.planCreate_eq_ok.mpr ⟨site, inum, slot', blocks,
              hresolve, hdir, firstNamed_eq_none.mpr hnew, hinvalid, hblocks,
              rfl⟩⟩

/-- Exposing a block in terms of the plan. -/
theorem Mounted.exposes_iff {world : World} (hmount : Mounted world)
    (request : Request) (k : Nat) :
    Exposes world request.call k ↔
      ∃ change, request.plan world = .ok change ∧ change.Enters ∧
        2 ≤ k ∧ k < writeCount (change.effects world) := by
  obtain ⟨ctx, call⟩ := request
  have hother : ∀ call' : Call, (∀ change, call'.Makes change →
      ¬ change.Enters) → ¬ ∃ change,
        (Request.mk ctx call').plan world = .ok change ∧ change.Enters ∧
          2 ≤ k ∧ k < writeCount (change.effects world) := by
    rintro call' hmakes ⟨change, hplan, henters, -⟩
    exact hmakes change (Request.plan_makes hplan) henters
  have hcreate : ∀ path mode dirflag,
      (∃ change, world.planCreate ctx path mode dirflag = .ok change ∧
        change.Enters ∧ 2 ≤ k ∧ k < writeCount (change.effects world)) ↔
      world.Admits path (if dirflag then 2 else 1) ∧
        2 ≤ k ∧ k < if dirflag then 4 else 3 := by
    intro path mode dirflag
    rw [← hmount.planCreate_isOk_iff ctx path mode dirflag]
    constructor
    · rintro ⟨change, hplan, -, hlow, hhigh⟩
      obtain ⟨_, _, _, _, _, _, rfl⟩ := World.planCreate_makes hplan
      rw [Change.writeCount_insert] at hhigh
      exact ⟨⟨_, hplan⟩, hlow, hhigh⟩
    · rintro ⟨⟨change, hplan⟩, hlow, hhigh⟩
      obtain ⟨_, _, _, _, _, _, rfl⟩ := World.planCreate_makes hplan
      refine ⟨_, hplan, trivial, hlow, ?_⟩
      rw [Change.writeCount_insert]
      exact hhigh
  cases call with
  | create path mode =>
      refine Iff.trans ?_ (hcreate path mode false).symm
      refine and_congr_right fun _ => ?_
      rw [if_neg Bool.false_ne_true]
      omega
  | mkdir path mode =>
      refine Iff.trans ?_ (hcreate path mode true).symm
      refine and_congr_right fun _ => ?_
      rw [if_pos rfl]
      omega
  | unlink | rmdir | rename | chmod | utime | truncate | write | init
  | getattr | readdir | read | statfs =>
      refine iff_of_false id (hother _ fun change hmakes henters => ?_)
      cases change <;> first | exact henters | exact hmakes

theorem Mounted.carryOut_guarded_iff {world : World} (hmount : Mounted world)
    {request : Request} (hcontract : request.call.Contract) {k : Nat}
    (hfails : world.device.writeFails = failsAt k) :
    Guarded (world.carryOut (request.plan world)).2 ↔
      ¬ Exposes world request.call k := by
  rw [hmount.exposes_iff request k]
  cases hplan : request.plan world with
  | error status =>
      refine iff_of_true hmount.guarded ?_
      rintro ⟨change, hok, -⟩
      cases hok
  | ok change =>
      obtain ⟨names, hvalid, -⟩ := Request.plan_valid hmount hcontract hplan
      refine (Change.commit_guarded_iff hmount hvalid hfails).trans
        (not_congr ?_)
      constructor
      · exact fun hexposed => ⟨change, rfl, hexposed⟩
      · rintro ⟨change', hsame, hexposed⟩
        cases hsame
        exact hexposed

/-- The world on a device whose write `k` is the next to fail. -/
def World.failing (world : World) (k : Nat) : World :=
  { world with device := { world.device with writeFails := failsAt k } }

theorem Mounted.failing {world : World} (hmount : Mounted world) (k : Nat) :
    Mounted (world.failing k) :=
  ⟨hmount.consistent, hmount.reads, hmount.bitmap, hmount.superblock⟩

/-- After a write failed, every block in use is marked on the disk and in
memory, unless the call is a creation that failed behind its entry. -/
theorem failed_write_guarded_iff {world : World} (hreach : Reachable world)
    {request : Request} (hmut : request.call.Mutates)
    (hcontract : request.call.Contract) (k : Nat) :
    ∃ reply world',
      run request.perform (world.failing k) = some (reply, world') ∧
      (Guarded world' ↔ ¬ Exposes world request.call k) := by
  have hmount := hreach.steady.toMounted.failing k
  exact ⟨_, _, hmount.run_perform hmut hcontract,
    hmount.carryOut_guarded_iff hcontract rfl⟩

theorem failed_write_guarded_iff_sample :
    ∃ reply world',
      run (Sample.request (.truncate Sample.pathA 100)).perform
          ((Sample.world 400 zeroBlock).boot.failing 1) =
        some (reply, world') ∧
      (Guarded world' ↔
        ¬ Exposes (Sample.world 400 zeroBlock).boot
          (.truncate Sample.pathA 100) 1) :=
  failed_write_guarded_iff
    (Sample.reachable 400 zeroBlock (by decide) (by decide))
    (show (Call.truncate Sample.pathA 100).Mutates from trivial)
    (by decide) 1

/-- A file is created in the sample, and the write of the bitmap fails: the
new inode is in the graph and its block is free. -/
theorem failed_write_exposes :
    ¬ ∀ world (request : Request) k reply world', Reachable world →
      request.call.Mutates → request.call.Contract →
      run request.perform (world.failing k) = some (reply, world') →
      Guarded world' := by
  intro hall
  have hreach := Sample.reachable 16 zeroBlock (by decide) (by decide)
  have hmount := hreach.steady.toMounted.failing 2
  have hmut : (Sample.request (.create Sample.pathC 0o100644)).call.Mutates :=
    trivial
  have hcontract :
      (Sample.request (.create Sample.pathC 0o100644)).call.Contract := by
    decide
  have hguarded := hall _ _ 2 _ _ hreach hmut hcontract
    (hmount.run_perform hmut hcontract)
  refine (hmount.carryOut_guarded_iff hcontract rfl).mp hguarded ⟨?_, rfl⟩
  have hentries := Sample.entries_root 16 zeroBlock
  refine ⟨[], 2, by decide, ?_, ?_, ⟨2, ?_⟩, ?_⟩
  · exact hmount.consistent.root_dir
  · change ∀ slot, ((Sample.disk 16 zeroBlock).entries 2 slot).valid = true →
      ((Sample.disk 16 zeroBlock).entries 2 slot).nameString ≠ _
    rw [hentries]
    decide +kernel
  · change ((Sample.disk 16 zeroBlock).entries 2 2).valid = false
    rw [hentries]
    decide
  · change 1 ≤ freeCount ((Sample.disk 16 zeroBlock) 1)
      (Sample.disk 16 zeroBlock).diskSize
    rw [Sample.diskSize]
    decide +kernel

end Fs5600
