/-
Acts that touch different blocks can be exchanged.  Block 1 is left out of
account: each store of it overwrites the one before with the bitmap in memory.
-/
import Fs5600.Act

namespace Fs5600

open MachineWord EffectProgram Program

/-! Bitmaps and counters. -/

theorem bitSetAll_comm (map : Block) {blocks others : List Nat}
    (hblocks : ∀ b ∈ blocks, b < 32768) (hothers : ∀ b ∈ others, b < 32768) :
    bitSetAll (bitSetAll map blocks) others =
      bitSetAll (bitSetAll map others) blocks := by
  apply bitmap_ext
  intro i
  rw [marked_bitSetAll _ _ _ hothers, marked_bitSetAll _ _ _ hblocks,
    marked_bitSetAll _ _ _ hblocks, marked_bitSetAll _ _ _ hothers]
  exact or_left_comm

theorem bitClearAll_comm (map : Block) (blocks others : List Nat) :
    bitClearAll (bitClearAll map blocks) others =
      bitClearAll (bitClearAll map others) blocks := by
  apply bitmap_ext
  intro i
  simp only [marked_bitClearAll]
  exact and_left_comm

theorem bitSetAll_bitClearAll (map : Block) {blocks others : List Nat}
    (hothers : ∀ b ∈ others, b < 32768) (hapart : blocks.Disjoint others) :
    bitSetAll (bitClearAll map blocks) others =
      bitClearAll (bitSetAll map others) blocks := by
  apply bitmap_ext
  intro i
  rw [marked_bitSetAll _ _ _ hothers, marked_bitClearAll,
    marked_bitClearAll, marked_bitSetAll _ _ _ hothers]
  constructor
  · rintro (hmem | ⟨hnot, hmarked⟩)
    · exact ⟨fun hblock => hapart hblock hmem, Or.inl hmem⟩
    · exact ⟨hnot, Or.inr hmarked⟩
  · rintro ⟨hnot, hmem | hmarked⟩
    · exact Or.inl hmem
    · exact Or.inr ⟨hnot, hmarked⟩

/-! Worlds without regard to block 1. -/

def World.sansMap (world : World) : World := world.put 1 zeroBlock

section

variable {world world' : World}

theorem World.put_put (b : Nat) (buf buf' : Block) :
    (world.put b buf).put b buf' = world.put b buf' := by
  simp only [put, World.disk, Function.update_idem]

theorem World.put_comm {b b' : Nat} (hne : b ≠ b') (buf buf' : Block) :
    (world.put b buf).put b' buf' = (world.put b' buf').put b buf := by
  simp only [put, World.disk, Function.update_comm hne]

@[simp] theorem World.sansMap_sansMap :
    world.sansMap.sansMap = world.sansMap := World.put_put 1 _ _

theorem World.modify_sansMap (change : Globals → Globals) :
    (world.modify change).sansMap = world.sansMap.modify change := rfl

theorem Act.sansMap_apply (act : Act) (world : World) :
    (act.apply world).sansMap = (act.apply world.sansMap).sansMap := by
  cases act with
  | put b buf =>
      simp only [apply, World.sansMap]
      by_cases hone : b = 1
      · simp only [hone, World.put_put]
      · rw [World.put_comm hone buf zeroBlock, World.put_comm hone buf,
          World.put_put]
  | sync => simp only [apply, World.sansMap, World.put_put]
  | mark | clear =>
      simp only [apply, World.remap, World.modify_sansMap,
        World.sansMap_sansMap]
  | count =>
      simp only [apply, World.modify_sansMap, World.sansMap_sansMap]

theorem applyActs_sansMap (acts : List Act)
    (hsame : world.sansMap = world'.sansMap) :
    (applyActs acts world).sansMap = (applyActs acts world').sansMap := by
  induction acts generalizing world world' with
  | nil => exact hsame
  | cons act acts ih =>
      apply ih
      rw [act.sansMap_apply, hsame, ← act.sansMap_apply]

theorem World.globals_of_sansMap (hsame : world.sansMap = world'.sansMap) :
    world.globals = world'.globals := by
  have hglobals : world.sansMap.globals = world'.sansMap.globals := by
    rw [hsame]
  exact hglobals

theorem World.beside_of_sansMap (hsame : world.sansMap = world'.sansMap) :
    world'.Beside world := by
  have hbeside : world'.sansMap.Beside world.sansMap := by
    rw [hsame]
    exact .refl _
  exact ⟨hbeside.size, hbeside.reads, hbeside.writes, hbeside.superblock⟩

theorem World.disk_of_sansMap (hsame : world.sansMap = world'.sansMap)
    {b : Nat} (hone : b ≠ 1) : world.disk b = world'.disk b := by
  have hdisk := congrFun (congrArg World.disk hsame) b
  rw [sansMap, sansMap, put_disk, put_disk, Function.update_of_ne hone,
    Function.update_of_ne hone] at hdisk
  exact hdisk

/-- Worlds that agree but for block 1, and there as well, are equal. -/
theorem World.eq_of_sansMap (hsame : world.sansMap = world'.sansMap)
    (hone : world.disk 1 = world'.disk 1) : world = world' := by
  have hback : ∀ world : World, world.sansMap.put 1 (world.disk 1) = world :=
    fun world => by
      rw [sansMap, put_put, put, Function.update_eq_self]
  rw [← hback world, ← hback world', hsame, hone]

end

/-! Exchanging acts. -/

/-- The acts touch a common block. -/
def Act.Clashes : Act → Act → Prop
  | .put b _, .put b' _ => b = b'
  | .mark blocks, .clear blocks' => ¬ blocks'.Disjoint blocks
  | .clear blocks, .mark blocks' => ¬ blocks.Disjoint blocks'
  | _, _ => False

/-- The bits that an act sets are bits of the array. -/
def Act.Fits : Act → Prop
  | .mark blocks => ∀ b ∈ blocks, b < 32768
  | _ => True

theorem Act.apply_comm {act act' : Act} (hapart : ¬ act.Clashes act')
    (hfits : act.Fits) (hfits' : act'.Fits) (world : World) :
    (act.apply (act'.apply world)).sansMap =
      (act'.apply (act.apply world)).sansMap := by
  have hremap : ∀ change change' : Block → Block,
      change (change' world.globals.bitmap) =
        change' (change world.globals.bitmap) →
      ((world.remap change').remap change).sansMap =
        ((world.remap change).remap change').sansMap := by
    intro change change' hcomm
    simp only [World.remap, World.modify, Globals.setBitmap_bitmap, hcomm]
    rfl
  have hsync : ∀ other : Act,
      (other.apply (Act.sync.apply world)).sansMap =
        (Act.sync.apply (other.apply world)).sansMap := by
    intro other
    have hleft : (Act.sync.apply world).sansMap = world.sansMap :=
      World.put_put 1 _ _
    have hright : (Act.sync.apply (other.apply world)).sansMap =
        (other.apply world).sansMap := World.put_put 1 _ _
    rw [hright, other.sansMap_apply, hleft, ← other.sansMap_apply]
  cases act with
  | sync => exact (hsync act').symm
  | put b buf =>
      cases act' with
      | put b' buf' => exact congrArg _ (World.put_comm (Ne.symm hapart) _ _)
      | sync => exact hsync _
      | mark | clear | count => rfl
  | mark blocks =>
      cases act' with
      | mark blocks' =>
          exact hremap (bitSetAll · blocks) (bitSetAll · blocks')
            (bitSetAll_comm _ hfits' hfits)
      | clear blocks' =>
          exact hremap (bitSetAll · blocks) (bitClearAll · blocks')
            (bitSetAll_bitClearAll _ hfits (not_not.mp hapart))
      | sync => exact hsync _
      | put | count => rfl
  | clear blocks =>
      cases act' with
      | mark blocks' =>
          exact hremap (bitClearAll · blocks) (bitSetAll · blocks')
            (bitSetAll_bitClearAll _ hfits' (not_not.mp hapart)).symm
      | clear blocks' =>
          exact hremap (bitClearAll · blocks) (bitClearAll · blocks')
            (bitClearAll_comm _ _ _)
      | sync => exact hsync _
      | put | count => rfl
  | count delta =>
      cases act' with
      | count delta' =>
          simp only [apply, World.modify, Globals.addFree_comm _ delta']
      | sync => exact hsync _
      | put | mark | clear => rfl

/-- An act can be done before a list of acts that it does not clash with. -/
theorem applyActs_comm {act : Act} {acts : List Act}
    (hapart : ∀ other ∈ acts, ¬ act.Clashes other) (hfits : act.Fits)
    (hall : ∀ other ∈ acts, other.Fits) (world : World) :
    (act.apply (applyActs acts world)).sansMap =
      (applyActs acts (act.apply world)).sansMap := by
  induction acts generalizing world with
  | nil => rfl
  | cons other acts ih =>
      have hother := List.mem_cons_self (a := other) (l := acts)
      rw [applyActs_cons, ih
        (fun rest hmem => hapart rest (List.mem_cons_of_mem other hmem))
        (fun rest hmem => hall rest (List.mem_cons_of_mem other hmem))]
      exact applyActs_sansMap acts
        (Act.apply_comm (hapart other hother) hfits (hall other hother)
          world)

/-- Two lists of acts without a clash can be exchanged. -/
theorem applyActs_exchange {acts others : List Act}
    (hapart : ∀ act ∈ acts, ∀ other ∈ others, ¬ act.Clashes other)
    (hacts : ∀ act ∈ acts, act.Fits) (hothers : ∀ act ∈ others, act.Fits)
    (world : World) :
    (applyActs acts (applyActs others world)).sansMap =
      (applyActs others (applyActs acts world)).sansMap := by
  induction acts generalizing world with
  | nil => rfl
  | cons act acts ih =>
      have hself := List.mem_cons_self (a := act) (l := acts)
      rw [applyActs_cons, applyActs_cons, ← ih
        (fun rest hmem => hapart rest (List.mem_cons_of_mem act hmem))
        (fun rest hmem => hacts rest (List.mem_cons_of_mem act hmem))]
      exact applyActs_sansMap acts
        (applyActs_comm (hapart act hself) (hacts act hself) hothers world)

end Fs5600
