/-
The bitmap of `diskfmt.py`, 1024 words of 32 bits, beside the bitmap of
`homework.c`, 4096 bytes.  The image tools and the file system read and write
the same bits of block 1.
-/
import Fs5600.Bitmap
import Mathlib.Logic.Function.Basic

namespace Fs5600

open MachineWord

/-- Class `bitmap` of `diskfmt.py`. -/
structure DiskfmtBitmap where
  vals : Fin 1024 → UInt32

/-- `bitmap()`: all fields zero. -/
def DiskfmtBitmap.empty : DiskfmtBitmap := ⟨fun _ => 0⟩

/-- The structure laid over a block. -/
def DiskfmtBitmap.fromBlock (block : Block) : DiskfmtBitmap := ⟨block.word⟩

/-- `bytearray(blockmap)`. -/
def DiskfmtBitmap.toBlock (map : DiskfmtBitmap) : Block := .ofWords map.vals

/-- `get`; an index outside `vals` raises `IndexError`. -/
def DiskfmtBitmap.get (map : DiskfmtBitmap) (i : Nat) : Option Bool :=
  if hword : i / 32 < 1024 then
    let n := (map.vals ⟨i / 32, hword⟩).toNat
    let mask := 1 <<< (i % 32)
    some (n &&& mask != 0)
  else none

/-- `set`; the store into `vals` keeps 32 bits. -/
def DiskfmtBitmap.set (map : DiskfmtBitmap) (i : Nat) (val : Bool) :
    Option DiskfmtBitmap :=
  if hword : i / 32 < 1024 then
    let mask := 1 <<< (i % 32)
    let n := (map.vals ⟨i / 32, hword⟩).toNat
    let n := if val then n ||| mask else n &&& (mask ^^^ 0xffffffff)
    some ⟨Function.update map.vals ⟨i / 32, hword⟩ (.ofNat n)⟩
  else none

theorem Block.testBit_word (block : Block) (w : Fin 1024) {j : Nat}
    (hj : j < 32) :
    (block.word w).toNat.testBit j = true ↔
      Marked block (32 * w.val + j) := by
  have hbyte : (32 * w.val + j) / 8 < 4096 := by omega
  have hmod : (32 * w.val + j) % 8 = j % 8 := by omega
  have hplace : 4 * w.val + j / 8 = (32 * w.val + j) / 8 := by omega
  rw [Block.word, testBit_wordOfBytes _ hj, Marked, bitTest, dif_pos hbyte,
    testBit_ne_zero_iff_toNat _ (Nat.mod_lt _ (by decide)), hmod]
  simp only [hplace]

theorem bitTest_eq_of_iff {map map' : Block} {i : Nat}
    (hiff : Marked map i ↔ Marked map' i) : bitTest map i = bitTest map' i := by
  unfold Marked bitTest at hiff
  unfold bitTest
  by_cases hbyte : i / 8 < 4096
  · simp only [dif_pos hbyte] at hiff ⊢
    have hk : i % 8 < 8 := Nat.mod_lt i (by decide)
    rw [testBit_eq_ite (map _) hk, testBit_eq_ite (map' _) hk]
    simp only [hiff]
  · simp only [dif_neg hbyte]

theorem not_marked_of_le {map : Block} {i : Nat} (hi : 32768 ≤ i) :
    ¬ Marked map i := by
  have hbyte : ¬ i / 8 < 4096 := by omega
  simp [Marked, bitTest, hbyte]

/-- The marked blocks of a structure, in terms of its words. -/
theorem DiskfmtBitmap.marked_toBlock (map : DiskfmtBitmap) (i : Nat) :
    Marked map.toBlock i ↔ ∃ hword : i / 32 < 1024,
      (map.vals ⟨i / 32, hword⟩).toNat.testBit (i % 32) = true := by
  by_cases hword : i / 32 < 1024
  · have hsplit : 32 * (i / 32) + i % 32 = i := Nat.div_add_mod i 32
    have hbit := map.toBlock.testBit_word ⟨i / 32, hword⟩
      (Nat.mod_lt i (by decide))
    rw [hsplit, toBlock, Block.word_ofWords] at hbit
    rw [toBlock, ← hbit]
    exact ⟨fun h => ⟨hword, h⟩, fun ⟨_, h⟩ => h⟩
  · constructor
    · exact fun h => absurd h (not_marked_of_le (by omega))
    · exact fun ⟨h, _⟩ => absurd h hword

@[simp] theorem DiskfmtBitmap.toBlock_fromBlock (block : Block) :
    (fromBlock block).toBlock = block := by
  apply bitmap_ext
  intro i
  rw [marked_toBlock]
  by_cases hword : i / 32 < 1024
  · have hbit := block.testBit_word ⟨i / 32, hword⟩
      (Nat.mod_lt i (by decide))
    rw [Nat.div_add_mod i 32] at hbit
    rw [← hbit]
    exact ⟨fun ⟨_, h⟩ => h, fun h => ⟨hword, h⟩⟩
  · constructor
    · exact fun ⟨h, _⟩ => absurd h hword
    · exact fun h => absurd h (not_marked_of_le (by omega))

/-- A masked word is nonzero exactly when the bit under the mask is set. -/
theorem and_one_shiftLeft_bne (n k : Nat) :
    (n &&& 1 <<< k != 0) = n.testBit k := by
  rw [Nat.one_shiftLeft, Nat.and_two_pow]
  cases n.testBit k <;> simp

theorem DiskfmtBitmap.get_eq (map : DiskfmtBitmap) {i : Nat}
    (hi : i < 32768) :
    map.get i = some (decide (Marked map.toBlock i)) := by
  have hword : i / 32 < 1024 := by omega
  simp only [get, dif_pos hword, and_one_shiftLeft_bne]
  rw [Option.some.injEq, Bool.eq_iff_iff, decide_eq_true_iff, marked_toBlock]
  exact ⟨fun h => ⟨hword, h⟩, fun ⟨_, h⟩ => h⟩

theorem DiskfmtBitmap.eq_of_get {map : DiskfmtBitmap} {i : Nat}
    {val : Bool} (hget : map.get i = some val) :
    val = decide (Marked map.toBlock i) := by
  by_cases hi : i < 32768
  · rw [map.get_eq hi] at hget
    cases hget
    rfl
  · have hword : ¬ i / 32 < 1024 := by omega
    simp [get, hword] at hget

/-- A word in which bit `k` has been set, or cleared through the xor mask. -/
theorem testBit_masked {n k j : Nat} (hj : j < 32)
    (val : Bool) :
    (if val then n ||| 1 <<< k
      else n &&& (1 <<< k ^^^ 0xffffffff)).testBit j =
        if j = k then val else n.testBit j := by
  have hones : (0xffffffff : Nat) = 2 ^ 32 - 1 := rfl
  cases val with
  | true =>
      rw [if_pos rfl, Nat.one_shiftLeft, Nat.testBit_or, Nat.testBit_two_pow]
      by_cases hjk : j = k
      · simp [hjk]
      · simp [hjk, Ne.symm hjk]
  | false =>
      rw [if_neg (by decide), hones, Nat.one_shiftLeft, Nat.testBit_and,
        Nat.testBit_xor, Nat.testBit_two_pow, Nat.testBit_two_pow_sub_one]
      by_cases hjk : j = k
      · subst hjk
        simp [hj]
      · simp [hjk, Ne.symm hjk, hj]

theorem masked_lt {n k : Nat} (hn : n < 2 ^ 32) (hk : k < 32) (val : Bool) :
    (if val then n ||| 1 <<< k
      else n &&& (1 <<< k ^^^ 0xffffffff)) < 2 ^ 32 := by
  cases val with
  | true =>
      refine Nat.or_lt_two_pow hn ?_
      rw [Nat.one_shiftLeft]
      exact Nat.pow_lt_pow_right (by decide) hk
  | false => exact lt_of_le_of_lt Nat.and_le_left hn

/-- What `set` does to the marked blocks. -/
theorem DiskfmtBitmap.set_eq (map : DiskfmtBitmap) {i : Nat}
    (hi : i < 32768) (val : Bool) :
    ∃ map', map.set i val = some map' ∧ ∀ j,
      Marked map'.toBlock j ↔
        if j = i then val = true else Marked map.toBlock j := by
  have hword : i / 32 < 1024 := by omega
  refine ⟨_, by rw [set, dif_pos hword], ?_⟩
  intro j
  rw [marked_toBlock, marked_toBlock]
  by_cases hj : j / 32 < 1024
  · have hbit : j % 32 < 32 := Nat.mod_lt j (by decide)
    have hlt := masked_lt (map.vals ⟨i / 32, hword⟩).toNat_lt
      (Nat.mod_lt i (by decide : 0 < 32)) val
    simp only [hj, exists_true_left]
    by_cases hsame : j / 32 = i / 32
    · simp only [hsame, Function.update_self, UInt32.toNat_ofNat',
        Nat.mod_eq_of_lt hlt, testBit_masked hbit]
      by_cases hji : j = i
      · simp [hji]
      · have hmod : j % 32 ≠ i % 32 := by omega
        simp [hji, hmod]
    · have hji : j ≠ i := fun heq => hsame (by rw [heq])
      rw [Function.update_of_ne (by simpa using hsame), if_neg hji]
  · have hji : j ≠ i := by omega
    simp [hj, hji]

/-- Setting a bit of the words is `bit_set` on the bytes, and clearing it is
`bit_clear`. -/
theorem DiskfmtBitmap.set_toBlock (map : DiskfmtBitmap) {i : Nat}
    (hi : i < 32768) (val : Bool) :
    (map.set i val).map toBlock =
      some (if val then bitSet map.toBlock i else bitClear map.toBlock i) := by
  obtain ⟨map', hset, hmarked⟩ := map.set_eq hi val
  rw [hset, Option.map_some]
  congr 1
  apply bitmap_ext
  intro j
  rw [hmarked]
  cases val with
  | true =>
      rw [if_pos rfl, marked_bitSet _ hi]
      by_cases hji : j = i <;> simp [hji]
  | false =>
      rw [if_neg Bool.false_ne_true, marked_bitClear]
      by_cases hji : j = i <;> simp [hji]

/-- The image tools and the file system agree on every bitmap block. -/
theorem bitmapFormats_agree (map : Block) (i : Nat) (hi : i < 32768) :
    let view := DiskfmtBitmap.fromBlock map
    (view.get i = some true ↔ bitTest map i ≠ 0) ∧
      (view.get i = some false ↔ bitTest map i = 0) ∧
      (view.set i true).map DiskfmtBitmap.toBlock = some (bitSet map i) ∧
      (view.set i false).map DiskfmtBitmap.toBlock = some (bitClear map i) ∧
      ∀ j, j ≠ i →
        (bitTest (bitSet map i) j = bitTest map j) ∧
        (bitTest (bitClear map i) j = bitTest map j) ∧
        ∀ val, (view.set i val).bind (·.get j) = view.get j := by
  intro view
  have hview : view.toBlock = map := DiskfmtBitmap.toBlock_fromBlock map
  have hget := view.get_eq hi
  rw [hview] at hget
  have htrue := view.set_toBlock hi true
  have hfalse := view.set_toBlock hi false
  rw [hview] at htrue hfalse
  refine ⟨?_, ?_, htrue, hfalse, ?_⟩
  · rw [hget, Option.some.injEq, decide_eq_true_iff, Marked]
  · rw [hget, Option.some.injEq, decide_eq_false_iff_not, Marked, not_not]
  intro j hji
  refine ⟨?_, ?_, ?_⟩
  · exact bitTest_eq_of_iff (by rw [marked_bitSet map hi]; simp [hji])
  · exact bitTest_eq_of_iff (by rw [marked_bitClear map]; simp [hji])
  · intro val
    obtain ⟨map', hset, hmarked⟩ := view.set_eq hi val
    rw [hset, Option.bind_some]
    by_cases hj : j < 32768
    · have hbit := hmarked j
      rw [if_neg hji] at hbit
      rw [map'.get_eq hj, view.get_eq hj]
      simp only [hbit]
    · have hword : ¬ j / 32 < 1024 := by omega
      simp only [DiskfmtBitmap.get, dif_neg hword]

theorem bitmapFormats_agree_last :
    let map := bitSet (bitSet zeroBlock 5) 32767
    let view := DiskfmtBitmap.fromBlock map
    view.get 32767 = some true ∧ view.get 32766 = some false ∧
      (view.set 32766 true).map DiskfmtBitmap.toBlock =
        some (bitSet map 32766) ∧
      (view.set 32767 false).map DiskfmtBitmap.toBlock =
        some (bitClear map 32767) ∧
      (view.set 32767 false).bind (·.get 5) = some true := by
  intro map view
  obtain ⟨hset, -, -, hclear, hother⟩ :=
    bitmapFormats_agree map 32767 (by decide)
  obtain ⟨-, hunset, hmark, -⟩ := bitmapFormats_agree map 32766 (by decide)
  have hkept := (hother 5 (by decide)).2.2 false
  have hfive := (bitmapFormats_agree map 5 (by decide)).1
  exact ⟨hset.mpr (by decide), hunset.mpr (by decide), hmark, hclear,
    hkept.trans (hfive.mpr (by decide))⟩

end Fs5600
