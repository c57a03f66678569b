/-
The block bitmap: the bit functions of `homework.c` over the 4096 bytes of
block 1, and what setting or clearing a list of bits does to the marked set
and to the number of clear bits.
-/
import Fs5600.Format
import Mathlib.Data.Finset.Card
import Mathlib.Data.Finset.Range

namespace Fs5600

open MachineWord

/-! The bit functions, for `i` inside the array. -/

def bitSet (map : Block) (i : Nat) : Block := fun k =>
  if k.val = i / 8 then setBit (map k) (i % 8) else map k

def bitClear (map : Block) (i : Nat) : Block := fun k =>
  if k.val = i / 8 then clearBit (map k) (i % 8) else map k

def bitTest (map : Block) (i : Nat) : UInt8 :=
  if hbyte : i / 8 < 4096 then testBit (map ⟨i / 8, hbyte⟩) (i % 8) else 0

/-- Block `i` is in use. -/
def Marked (map : Block) (i : Nat) : Prop := bitTest map i ≠ 0

instance (map : Block) (i : Nat) : Decidable (Marked map i) :=
  inferInstanceAs (Decidable (bitTest map i ≠ 0))

/-- A bitmap is given by its marked blocks. -/
theorem bitmap_ext {map map' : Block}
    (hmarked : ∀ i, Marked map i ↔ Marked map' i) : map = map' := by
  funext k
  apply byte_ext
  intro j hj
  have hbit := hmarked (8 * k.val + j)
  have hdiv : (8 * k.val + j) / 8 = k.val := by omega
  have hmod : (8 * k.val + j) % 8 = j := by omega
  simpa only [Marked, bitTest, hdiv, hmod, k.isLt, ↓reduceDIte, Fin.eta]
    using hbit

theorem marked_bitSet (map : Block) {i j : Nat} (hi : i < 32768) :
    Marked (bitSet map i) j ↔ j = i ∨ Marked map j := by
  unfold Marked bitTest
  by_cases hj : j / 8 < 4096
  · simp only [dif_pos hj, bitSet]
    by_cases hbyte : j / 8 = i / 8
    · rw [if_pos hbyte, testBit_setBit _ (by omega) (by omega)]
      constructor
      · rintro (hbit | hold)
        · exact Or.inl (by omega)
        · exact Or.inr hold
      · rintro (rfl | hold)
        · exact Or.inl rfl
        · exact Or.inr hold
    · rw [if_neg hbyte]
      constructor
      · exact Or.inr
      · rintro (rfl | hold)
        · exact absurd rfl hbyte
        · exact hold
  · simp only [dif_neg hj]
    constructor
    · exact fun hfalse => absurd rfl hfalse
    · rintro (rfl | hfalse)
      · omega
      · exact hfalse

theorem marked_bitClear (map : Block) {i j : Nat} :
    Marked (bitClear map i) j ↔ j ≠ i ∧ Marked map j := by
  unfold Marked bitTest
  by_cases hj : j / 8 < 4096
  · simp only [dif_pos hj, bitClear]
    by_cases hbyte : j / 8 = i / 8
    · rw [if_pos hbyte, testBit_clearBit _ (by omega) (by omega)]
      constructor
      · rintro ⟨hbit, hold⟩
        exact ⟨fun heq => hbit (by rw [heq]), hold⟩
      · rintro ⟨hne, hold⟩
        exact ⟨fun hbit => hne (by omega), hold⟩
    · rw [if_neg hbyte]
      constructor
      · exact fun hold => ⟨fun heq => hbyte (by rw [heq]), hold⟩
      · exact And.right
  · simp only [dif_neg hj]
    constructor
    · exact fun hfalse => absurd rfl hfalse
    · exact And.right

/-- Set every listed bit, as the loop of the bitmap update does. -/
def bitSetAll (map : Block) (blocks : List Nat) : Block :=
  blocks.foldl bitSet map

def bitClearAll (map : Block) (blocks : List Nat) : Block :=
  blocks.foldl bitClear map

theorem marked_bitSetAll (map : Block) (blocks : List Nat) (j : Nat)
    (hlt : ∀ i ∈ blocks, i < 32768) :
    Marked (bitSetAll map blocks) j ↔ j ∈ blocks ∨ Marked map j := by
  induction blocks generalizing map with
  | nil => simp [bitSetAll]
  | cons i blocks ih =>
      have htail : ∀ k ∈ blocks, k < 32768 := fun k hk =>
        hlt k (List.mem_cons_of_mem i hk)
      have hhead : i < 32768 := hlt i List.mem_cons_self
      rw [bitSetAll, List.foldl_cons, ← bitSetAll, ih _ htail,
        marked_bitSet map hhead, List.mem_cons]
      tauto

theorem marked_bitClearAll (map : Block) (blocks : List Nat) (j : Nat) :
    Marked (bitClearAll map blocks) j ↔ j ∉ blocks ∧ Marked map j := by
  induction blocks generalizing map with
  | nil => simp [bitClearAll]
  | cons i blocks ih =>
      rw [bitClearAll, List.foldl_cons, ← bitClearAll, ih,
        marked_bitClear map, List.mem_cons]
      tauto

/-- The number of clear bits below `n`. -/
def freeCount (map : Block) (n : Nat) : Nat :=
  (List.range n).countP fun i => bitTest map i = 0

theorem freeCount_eq_card (map : Block) (n : Nat) :
    freeCount map n = ((Finset.range n).filter fun i => ¬ Marked map i).card := by
  rw [freeCount, List.countP_eq_length_filter, Finset.card_def]
  simp only [Finset.filter_val, Finset.range_val, Multiset.range]
  rw [Multiset.filter_coe, Multiset.coe_card]
  congr 1
  apply List.filter_congr
  intro i _
  simp [Marked]

theorem freeCount_le (map : Block) (n : Nat) : freeCount map n ≤ n := by
  rw [freeCount]
  exact List.countP_le_length.trans (List.length_range).le

/-- Setting clear bits uses up as many of them. -/
theorem freeCount_bitSetAll (map : Block) {blocks : List Nat} {n : Nat}
    (hn : n ≤ 32768) (hnodup : blocks.Nodup)
    (hclear : ∀ i ∈ blocks, i < n ∧ ¬ Marked map i) :
    freeCount (bitSetAll map blocks) n + blocks.length = freeCount map n := by
  rw [freeCount_eq_card, freeCount_eq_card,
    ← List.toFinset_card_of_nodup hnodup]
  have hlt : ∀ i ∈ blocks, i < 32768 := fun i hi =>
    (hclear i hi).1.trans_le hn
  rw [← Finset.card_union_of_disjoint]
  · congr 1
    ext i
    simp only [Finset.mem_union, Finset.mem_filter, Finset.mem_range,
      marked_bitSetAll map blocks i hlt, List.mem_toFinset, not_or]
    constructor
    · rintro (⟨hi, -, hfree⟩ | hmem)
      · exact ⟨hi, hfree⟩
      · exact hclear i hmem
    · rintro ⟨hi, hfree⟩
      by_cases hmem : i ∈ blocks
      · exact Or.inr hmem
      · exact Or.inl ⟨hi, hmem, hfree⟩
  · rw [Finset.disjoint_left]
    intro i hi hmem
    simp only [Finset.mem_filter, marked_bitSetAll map blocks i hlt,
      not_or] at hi
    exact hi.2.1 (List.mem_toFinset.mp hmem)

/-- Clearing marked bits gives as many back. -/
theorem freeCount_bitClearAll (map : Block) {blocks : List Nat} {n : Nat}
    (hnodup : blocks.Nodup)
    (hset : ∀ i ∈ blocks, i < n ∧ Marked map i) :
    freeCount (bitClearAll map blocks) n =
      freeCount map n + blocks.length := by
  rw [freeCount_eq_card, freeCount_eq_card,
    ← List.toFinset_card_of_nodup hnodup]
  rw [← Finset.card_union_of_disjoint]
  · congr 1
    ext i
    simp only [Finset.mem_union, Finset.mem_filter, Finset.mem_range,
      marked_bitClearAll, List.mem_toFinset, not_and_or, not_not]
    constructor
    · rintro ⟨hi, hmem | hfree⟩
      · exact Or.inr hmem
      · exact Or.inl ⟨hi, hfree⟩
    · rintro (⟨hi, hfree⟩ | hmem)
      · exact ⟨hi, Or.inr hfree⟩
      · exact ⟨(hset i hmem).1, Or.inl hmem⟩
  · rw [Finset.disjoint_left]
    intro i hi hmem
    simp only [Finset.mem_filter] at hi
    exact hi.2 (hset i (List.mem_toFinset.mp hmem)).2

end Fs5600
