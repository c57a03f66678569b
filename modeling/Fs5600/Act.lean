/-
The writing half of a call in small acts that say how the world changes and
not what it becomes: blocks are marked and cleared, counters moved, and block
1 stored from the bitmap in memory.  Acts of different calls can be exchanged
where they touch different blocks.
-/
import Fs5600.Reachability

namespace Fs5600

open MachineWord EffectProgram Program

inductive Act where
  | put (b : Nat) (buf : Block)
  | mark (blocks : List Nat)
  | clear (blocks : List Nat)
  | count (delta : Int)
  | sync

/-- Set or clear bits of the bitmap in memory. -/
def World.remap (world : World) (change : Block → Block) : World :=
  world.modify fun globals => globals.setBitmap (change globals.bitmap)

def Act.apply : Act → World → World
  | .put b buf, world => world.put b buf
  | .mark blocks, world => world.remap (bitSetAll · blocks)
  | .clear blocks, world => world.remap (bitClearAll · blocks)
  | .count delta, world => world.modify (Globals.addFree delta)
  | .sync, world => world.put 1 world.globals.bitmap

def applyActs (acts : List Act) (world : World) : World :=
  acts.foldl (fun world act => act.apply world) world

/-- The block that an act stores. -/
def Act.target : Act → Option Nat
  | .put b _ => some b
  | .sync => some 1
  | _ => none

/-- The act changes the bitmap in memory. -/
def Act.remaps : Act → Bool
  | .mark _ | .clear _ => true
  | _ => false

/-- Behind the reservation of its blocks a write stores the inode and the data
blocks. -/
def storeActs (disk : Disk) (inum : Nat) (inode : FsInode)
    (count offset : Nat) (buf : List UInt8) : List Act :=
  .put inum inode.encode ::
    (List.range' (offset / 4096)
      (blockCount (offset + buf.length) - offset / 4096)).map (fun k =>
        .put (inode.ptr k) (mergedBlock disk inode count offset buf k)) ++
    [.count (count - (blockCount (offset + buf.length) : Nat))]

/-- The acts of creating, removing and writing, in the order of the source. -/
def Change.acts (disk : Disk) : Change → List Act
  | .insert _ inum slot name inode dirflag blocks =>
      [.put (blocks.getD 0 0) inode.encode,
        .put ((disk.inode inum).ptr 0) (Directory.encode
          (Function.update (disk.entries inum) slot
            ((disk.entries inum slot).occupied (blocks.getD 0 0) name)))] ++
      (if dirflag then [.put (blocks.getD 1 0) zeroBlock] else []) ++
      [.count (-blocks.length), .mark blocks, .sync]
  | .remove _ inum slot blocks =>
      [.put ((disk.inode inum).ptr 0) (Directory.encode
        (Function.update (disk.entries inum) slot
          { disk.entries inum slot with valid := false })),
        .clear blocks, .sync, .count blocks.length]
  | .write _ inum offset buf mtime fresh =>
      let old := disk.inode inum
      (if fresh = [] then [] else [.mark fresh, .sync]) ++
        storeActs disk inum (old.extend fresh (offset + buf.length) mtime)
          (blockCount old.length) offset buf
  | _ => []

/-- The effect of an act in a call that changes the bitmap `old` to `new`. -/
def Act.effect (old new : Block) : Act → Effect
  | .put b buf => .write b buf
  | .mark blocks => .modify (Globals.setBitmap (bitSetAll old blocks))
  | .clear blocks => .modify (Globals.setBitmap (bitClearAll old blocks))
  | .count delta => .modify (Globals.addFree delta)
  | .sync => .write 1 new

/-- The kinds of changes that have acts. -/
def Change.Acting : Change → Prop
  | .insert _ _ _ _ _ _ _ | .remove _ _ _ _ | .write _ _ _ _ _ _ => True
  | _ => False

theorem Change.effects_eq {world : World} {change : Change}
    (hacting : change.Acting) :
    change.effects world = (change.acts world.disk).map
      (Act.effect world.globals.bitmap
        (bitClearAll (bitSetAll world.globals.bitmap change.taken)
          (change.released world.disk))) := by
  cases change with
  | insert path inum slot name inode dirflag blocks =>
      cases dirflag <;> rfl
  | remove path inum slot blocks => rfl
  | write path inum offset buf mtime fresh =>
      by_cases hnil : fresh = []
      · simp [effects, acts, storeActs, hnil, Act.effect, dataEffects,
          Function.comp_def]
      · simp [effects, acts, storeActs, hnil, Act.effect, dataEffects,
          markEffects, Function.comp_def, taken, released]
        rfl
  | attributes | relabel | shrink => cases hacting

/-! What acts leave alone. -/

/-- The same device with, perhaps, other contents. -/
structure World.Beside (world other : World) : Prop where
  size : other.device.size = world.device.size
  reads : other.device.readFails = world.device.readFails
  writes : other.device.writeFails = world.device.writeFails
  superblock : other.globals.superblock = world.globals.superblock

theorem World.Beside.trans {first second third : World}
    (hfirst : first.Beside second) (hsecond : second.Beside third) :
    first.Beside third :=
  ⟨hsecond.size.trans hfirst.size, hsecond.reads.trans hfirst.reads,
    hsecond.writes.trans hfirst.writes,
    hsecond.superblock.trans hfirst.superblock⟩

theorem World.Beside.refl (world : World) : world.Beside world :=
  ⟨rfl, rfl, rfl, rfl⟩

theorem Act.apply_beside (act : Act) (world : World) :
    world.Beside (act.apply world) := by
  cases act <;> exact ⟨rfl, rfl, rfl, rfl⟩

section

variable (act : Act) (acts others : List Act) (world : World)

@[simp] theorem applyActs_nil : applyActs [] world = world := rfl

@[simp] theorem applyActs_cons : applyActs (act :: acts) world =
    applyActs acts (act.apply world) := rfl

theorem applyActs_append : applyActs (acts ++ others) world =
    applyActs others (applyActs acts world) := by
  simp only [applyActs, List.foldl_append]

theorem applyActs_beside : world.Beside (applyActs acts world) := by
  induction acts generalizing world with
  | nil => exact .refl world
  | cons act acts ih => exact (act.apply_beside world).trans (ih _)

/-- Only the bitmap acts change the bitmap in memory. -/
theorem applyActs_bitmap (hkeeps : ∀ act ∈ acts, act.remaps = false) :
    (applyActs acts world).globals.bitmap = world.globals.bitmap := by
  induction acts generalizing world with
  | nil => rfl
  | cons act acts ih =>
      rw [applyActs_cons, ih _ fun other hmem =>
        hkeeps other (List.mem_cons_of_mem act hmem)]
      have hact := hkeeps act List.mem_cons_self
      cases act with
      | put | count | sync => rfl
      | mark | clear => cases hact

end

/-- Away from block 1 a block holds what it did, or what was put there. -/
theorem applyActs_disk {b : Nat} (hone : b ≠ 1) (acts : List Act)
    (world : World) :
    (applyActs acts world).disk b = world.disk b ∨
      ∃ buf, .put b buf ∈ acts ∧ (applyActs acts world).disk b = buf := by
  induction acts generalizing world with
  | nil => exact Or.inl rfl
  | cons act acts ih =>
      rw [applyActs_cons]
      rcases ih (act.apply world) with hsame | ⟨buf, hmem, heq⟩
      · rw [hsame]
        cases act with
        | put b' buf =>
            by_cases hb : b = b'
            · subst hb
              exact Or.inr ⟨buf, List.mem_cons_self,
                Function.update_self _ _ _⟩
            · exact Or.inl (Function.update_of_ne hb _ _)
        | sync => exact Or.inl (Function.update_of_ne hone _ _)
        | mark | clear | count => exact Or.inl rfl
      · exact Or.inr ⟨buf, List.mem_cons_of_mem act hmem, heq⟩

theorem applyActs_disk_of_notMem {b : Nat} (hone : b ≠ 1) {acts : List Act}
    (hnot : ∀ buf, .put b buf ∉ acts) (world : World) :
    (applyActs acts world).disk b = world.disk b := by
  rcases applyActs_disk hone acts world with hsame | ⟨buf, hmem, -⟩
  · exact hsame
  · exact absurd hmem (hnot buf)

/-- Acts that do not touch the bitmap are their effects. -/
theorem applyActs_eq_applyAll (old new : Block) {acts : List Act}
    (hplain : ∀ act ∈ acts, act.remaps = false ∧ act ≠ .sync)
    {world : World} (hnever : world.device.writeFails = never) :
    applyActs acts world =
      applyAll (acts.map (Act.effect old new)) world := by
  induction acts generalizing world with
  | nil => rfl
  | cons act acts ih =>
      have hhead := hplain act List.mem_cons_self
      have htail := fun other hmem =>
        hplain other (List.mem_cons_of_mem act hmem)
      rw [List.map_cons, applyAll_cons, applyActs_cons]
      cases act with
      | put b buf =>
          rw [Act.effect, Effect.apply, World.issued_eq_self world hnever]
          exact ih htail hnever
      | count delta => exact ih htail hnever
      | mark | clear => cases hhead.1
      | sync => exact absurd rfl hhead.2

theorem storeActs_plain {disk : Disk} {inum : Nat} {inode : FsInode}
    {count offset : Nat} {buf : List UInt8} :
    ∀ act ∈ storeActs disk inum inode count offset buf,
      act.remaps = false ∧ act ≠ .sync := by
  intro act hmem
  rw [storeActs, List.mem_append, List.mem_cons, List.mem_singleton] at hmem
  rcases hmem with (rfl | hmem) | rfl
  · exact ⟨rfl, Act.noConfusion⟩
  · obtain ⟨k, -, rfl⟩ := List.mem_map.mp hmem
    exact ⟨rfl, Act.noConfusion⟩
  · exact ⟨rfl, Act.noConfusion⟩

/-- The acts of a change make the change. -/
theorem Change.applyActs_acts {change : Change} (hacting : change.Acting)
    {world : World} (hnever : world.device.writeFails = never) :
    applyActs (change.acts world.disk) world = change.apply world := by
  rw [apply, effects_eq hacting]
  cases change with
  | insert path inum slot name inode dirflag blocks =>
      rcases world with ⟨⟨disk, size, readFails, writeFails⟩, globals⟩
      subst hnever
      cases dirflag <;> rfl
  | remove path inum slot blocks =>
      rcases world with ⟨⟨disk, size, readFails, writeFails⟩, globals⟩
      subst hnever
      rfl
  | write path inum offset buf mtime fresh =>
      rw [acts, List.map_append, applyActs_append, applyAll_append]
      by_cases hnil : fresh = []
      · rw [if_pos hnil]
        exact applyActs_eq_applyAll _ _ storeActs_plain hnever
      · have hreserve := World.issued_eq_self
          (world.remap (bitSetAll · fresh)) hnever
        rw [if_neg hnil]
        simp only [List.map_cons, List.map_nil, applyActs_cons,
          applyActs_nil, applyAll_cons, applyAll_nil, Act.effect,
          Effect.apply, Act.apply, taken, released, bitClearAll,
          List.foldl_nil]
        rw [show (world.modify (Globals.setBitmap (bitSetAll
          world.globals.bitmap fresh))).issued = _ from hreserve]
        exact applyActs_eq_applyAll _ _ storeActs_plain hnever
  | attributes | relabel | shrink => cases hacting

/-! The acts of a valid change. -/

/-- The keys under which the blocks are held that a change rewrites. -/
def Change.Touches : Change → List Slot × Role → Prop
  | .attributes path _ _, key | .shrink path _ _, key
  | .write path _ _ _ _ _, key => key.1 = path ∧ key.2 ≠ .entries
  | .relabel path _ _ _, key | .insert path _ _ _ _ _ _, key
  | .remove path _ _ _, key => key = (path, .entries)

/-- Every change of the bitmap is followed by a store of the bitmap. -/
def Tidy : List Act → Prop
  | [] => True
  | act :: acts => (act.remaps = true → .sync ∈ acts) ∧ Tidy acts

theorem Tidy.of_plain {acts : List Act}
    (hplain : ∀ act ∈ acts, act.remaps = false) : Tidy acts := by
  induction acts with
  | nil => trivial
  | cons act acts ih =>
      refine ⟨fun hremaps => ?_, ih fun other hmem =>
        hplain other (List.mem_cons_of_mem act hmem)⟩
      rw [hplain act List.mem_cons_self] at hremaps
      cases hremaps

theorem Tidy.back {front back : List Act} (htidy : Tidy (front ++ back)) :
    Tidy back := by
  induction front with
  | nil => exact htidy
  | cons act front ih => exact ih htidy.2

/-- Unless a store of the bitmap is still to come, block 1 ends up as the
bitmap in memory. -/
theorem Tidy.synced {acts others : List Act} (htidy : Tidy (acts ++ others))
    (hnone : .sync ∉ others) {world : World}
    (hstart : .sync ∈ acts ∨ world.disk 1 = world.globals.bitmap)
    (hput : ∀ buf, Act.put 1 buf ∉ acts) :
    (applyActs acts world).disk 1 = (applyActs acts world).globals.bitmap := by
  induction acts generalizing world with
  | nil =>
      rcases hstart with hmem | hsame
      · cases hmem
      · exact hsame
  | cons act acts ih =>
      have hrest := fun buf hmem => hput buf (List.mem_cons_of_mem act hmem)
      rw [applyActs_cons]
      refine ih htidy.2 ?_ hrest
      cases act with
      | sync =>
          refine Or.inr ?_
          rw [Act.apply, World.put_disk, Function.update_self,
            World.put_globals]
      | mark | clear =>
          rcases List.mem_append.mp (htidy.1 rfl) with hmem | hmem
          · exact Or.inl hmem
          · exact absurd hmem hnone
      | put b buf =>
          have hne : (1 : Nat) ≠ b := by
            rintro rfl
            exact hput buf List.mem_cons_self
          exact (hstart.imp_left fun hmem => by simpa using hmem).imp_right
            (Function.update_of_ne hne _ _).trans
      | count delta =>
          exact hstart.imp_left fun hmem => by simpa using hmem

section

variable {world : World} (hmount : Mounted world) {names : List Name}
  {change : Change} (hvalid : change.Valid world names)

include hvalid

/-- What a change rewrites is held in the graph. -/
theorem Change.rewrites_held {b : Nat}
    (hrw : change.Rewrites world.disk b) :
    ∃ key, change.Touches key ∧ world.disk.holder key = some b := by
  cases change with
  | attributes path inum =>
      rcases hrw with rfl | ⟨k, hdata⟩
      · exact ⟨(path, .inode), ⟨rfl, Role.noConfusion⟩,
          Disk.holder_inode hvalid.node⟩
      · exact ⟨(path, .data k), ⟨rfl, Role.noConfusion⟩, hdata⟩
  | shrink path inum =>
      rcases hrw with rfl | ⟨k, hdata⟩
      · exact ⟨(path, .inode), ⟨rfl, Role.noConfusion⟩,
          Disk.holder_inode hvalid.node⟩
      · exact ⟨(path, .data k), ⟨rfl, Role.noConfusion⟩, hdata⟩
  | write path inum =>
      rcases hrw with rfl | ⟨k, hdata⟩
      · exact ⟨(path, .inode), ⟨rfl, Role.noConfusion⟩,
          Disk.holder_inode hvalid.node⟩
      · exact ⟨(path, .data k), ⟨rfl, Role.noConfusion⟩, hdata⟩
  | relabel path inum =>
      exact ⟨_, rfl, hrw ▸ Disk.holder_entries hvalid.1.node hvalid.1.isDir⟩
  | insert path inum =>
      exact ⟨_, rfl, hrw ▸ Disk.holder_entries hvalid.node hvalid.isDir⟩
  | remove path inum =>
      exact ⟨_, rfl, hrw ▸ Disk.holder_entries hvalid.entry.node
        hvalid.entry.isDir⟩

theorem Change.mark_taken {blocks : List Nat}
    (hmem : .mark blocks ∈ change.acts world.disk) :
    blocks = change.taken ∧ change.taken ≠ [] := by
  cases change with
  | insert path inum slot name inode dirflag fresh =>
      have hlength := (lowestFree_eq_some hvalid.blocks).1
      have hne : fresh ≠ [] := by
        rintro rfl
        cases dirflag <;> cases hlength
      refine ⟨?_, hne⟩
      cases dirflag <;> simpa [acts, taken] using hmem
  | remove path inum slot fresh => simp [acts] at hmem
  | write path inum offset wbuf mtime fresh =>
      rcases List.mem_append.mp hmem with hmark | hstore
      · split at hmark
        next => cases hmark
        next hne => exact ⟨by simpa [taken] using hmark, hne⟩
      · cases (storeActs_plain _ hstore).1
  | attributes | relabel | shrink => cases hmem

include hmount

/-- A change stores what it takes into use and what it rewrites. -/
theorem Change.put_cases {b : Nat} {buf : Block}
    (hmem : .put b buf ∈ change.acts world.disk) :
    b ∈ change.taken ∨ change.Rewrites world.disk b ∧
      ∀ path inum slot entry,
        change.rewrittenEntry world.disk = some (path, inum, slot, entry) →
        buf = Directory.encode
          (Function.update (world.disk.entries inum) slot entry) := by
  cases change with
  | insert path inum slot name inode dirflag blocks =>
      have hlength := (lowestFree_eq_some hvalid.blocks).1
      cases dirflag with
      | false =>
          obtain ⟨child, rfl⟩ := List.length_eq_one_iff.mp hlength
          simp [acts] at hmem
          rcases hmem with ⟨rfl, -⟩ | ⟨rfl, rfl⟩
          · exact Or.inl (by simp [taken])
          · refine Or.inr ⟨rfl, fun _ _ _ _ hview => ?_⟩
            cases hview
            rfl
      | true =>
          obtain ⟨child, block, rfl⟩ := List.length_eq_two.mp hlength
          simp [acts] at hmem
          rcases hmem with ⟨rfl, -⟩ | ⟨rfl, rfl⟩ | ⟨rfl, -⟩
          · exact Or.inl (by simp [taken])
          · refine Or.inr ⟨rfl, fun _ _ _ _ hview => ?_⟩
            cases hview
            rfl
          · exact Or.inl (by simp [taken])
  | remove path inum slot blocks =>
      simp [acts] at hmem
      obtain ⟨rfl, rfl⟩ := hmem
      refine Or.inr ⟨rfl, fun _ _ _ _ hview => ?_⟩
      cases hview
      rfl
  | write path inum offset wbuf mtime fresh =>
      rw [acts, List.mem_append, storeActs, List.mem_append, List.mem_cons]
        at hmem
      rcases hmem with hmark | (hinode | hdata) | hcount
      · split at hmark <;> simp at hmark
      · cases hinode
        exact Or.inr ⟨Or.inl rfl, fun _ _ _ _ hview => by cases hview⟩
      · obtain ⟨k, hk, heq⟩ := List.mem_map.mp hdata
        rw [List.mem_range'_1] at hk
        cases heq
        rcases hmount.extend_ptr_cases hvalid.blockCount_le hvalid.fresh
          mtime (show k < _ by omega) with ⟨hold, heq⟩ | hfresh
        · rw [heq]
          exact Or.inr ⟨Or.inr ⟨k, Disk.holder_data hvalid.node hvalid.isReg
            hold⟩, fun _ _ _ _ hview => by cases hview⟩
        · exact Or.inl hfresh
      · simp at hcount
  | attributes | relabel | shrink => cases hmem

/-- The blocks that a change stores lie behind the reserved ones. -/
theorem Change.put_ne_one {b : Nat} {buf : Block}
    (hmem : .put b buf ∈ change.acts world.disk) : b ≠ 1 := by
  rcases put_cases hmount hvalid hmem with htaken | ⟨hrw, -⟩
  · have hlow := (taken_free hmount hvalid htaken).1
    omega
  · have hlow := two_le_of_rewrites hmount hvalid hrw
    omega

omit hmount hvalid

theorem Change.clear_released {blocks : List Nat}
    (hmem : .clear blocks ∈ change.acts world.disk) :
    blocks = change.released world.disk ∧ change.taken = [] := by
  cases change with
  | insert path inum slot name inode dirflag fresh =>
      cases dirflag <;> simp [acts] at hmem
  | remove path inum slot fresh =>
      exact ⟨by simpa [acts, released] using hmem, rfl⟩
  | write path inum offset wbuf mtime fresh =>
      rcases List.mem_append.mp hmem with hmark | hstore
      · split at hmark <;> simp at hmark
      · cases (storeActs_plain _ hstore).1
  | attributes | relabel | shrink => cases hmem

theorem storeActs_countP {disk : Disk} {inum : Nat} {inode : FsInode}
    {count offset : Nat} {buf : List UInt8} :
    (storeActs disk inum inode count offset buf).countP Act.remaps = 0 :=
  List.countP_eq_zero.mpr fun act hmem => by
    simp [(storeActs_plain act hmem).1]

/-- A change updates the bitmap at most once. -/
theorem Change.acts_once (disk : Disk) :
    (change.acts disk).countP Act.remaps ≤ 1 := by
  cases change with
  | insert path inum slot name inode dirflag fresh =>
      cases dirflag <;> exact le_refl 1
  | remove path inum slot fresh => exact le_refl 1
  | write path inum offset wbuf mtime fresh =>
      rw [acts, List.countP_append, storeActs_countP]
      split
      · exact Nat.zero_le 1
      · exact le_refl 1
  | attributes | relabel | shrink => exact Nat.zero_le 1

theorem Change.acts_tidy (disk : Disk) : Tidy (change.acts disk) := by
  cases change with
  | insert path inum slot name inode dirflag fresh =>
      cases dirflag <;> simp [acts, Tidy, Act.remaps]
  | remove path inum slot fresh => simp [acts, Tidy, Act.remaps]
  | write path inum offset wbuf mtime fresh =>
      have hstore : Tidy (storeActs disk inum
          ((disk.inode inum).extend fresh (offset + wbuf.length) mtime)
          (blockCount (disk.inode inum).length) offset wbuf) :=
        .of_plain fun act hmem => (storeActs_plain act hmem).1
      rw [acts]
      split
      · exact hstore
      · exact ⟨fun _ => List.mem_cons_self, Bool.noConfusion, hstore⟩
  | attributes | relabel | shrink => trivial

/-- No block is put twice. -/
theorem Change.acts_apart (hmount : Mounted world)
    (hvalid : change.Valid world names) (hacting : change.Acting)
    {did todo : List Act} (hacts : did ++ todo = change.acts world.disk)
    {b : Nat} {buf buf' : Block} (hput : .put b buf ∈ todo) :
    Act.put b buf' ∉ did := by
  intro hdid
  have honce := effects_once hmount hvalid
  have htarget : Effect.target ∘ Act.effect world.globals.bitmap
      (bitClearAll (bitSetAll world.globals.bitmap change.taken)
        (change.released world.disk)) = Act.target := by
    funext act
    cases act <;> rfl
  rw [WritesOnce, effects_eq hacting, List.filterMap_map, htarget, ← hacts,
    List.filterMap_append] at honce
  exact List.disjoint_of_nodup_append honce
    (List.mem_filterMap.mpr ⟨_, hdid, rfl⟩)
    (List.mem_filterMap.mpr ⟨_, hput, rfl⟩)

end

end Fs5600
