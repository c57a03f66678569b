/-
Machine words as C code uses them: little-endian words in byte arrays, single
bits of a byte, and the conversions between integer types.
-/
import Mathlib.Data.Nat.Bitwise

namespace MachineWord

/-! Little-endian words. -/

def wordOfBytes (byte : Fin 4 → UInt8) : UInt32 :=
  .ofNat ((byte 0).toNat + 256 * (byte 1).toNat + 65536 * (byte 2).toNat +
    16777216 * (byte 3).toNat)

def byteOfWord (word : UInt32) : Fin 4 → UInt8
  | 0 => .ofNat word.toNat
  | 1 => .ofNat (word.toNat / 256)
  | 2 => .ofNat (word.toNat / 65536)
  | 3 => .ofNat (word.toNat / 16777216)

@[simp] theorem byteOfWord_wordOfBytes (byte : Fin 4 → UInt8) :
    byteOfWord (wordOfBytes byte) = byte := by
  have h0 := (byte 0).toNat_lt
  have h1 := (byte 1).toNat_lt
  have h2 := (byte 2).toNat_lt
  have h3 := (byte 3).toNat_lt
  funext place
  apply UInt8.toNat_inj.mp
  have hcases : place = 0 ∨ place = 1 ∨ place = 2 ∨ place = 3 := by omega
  rcases hcases with rfl | rfl | rfl | rfl
  all_goals
    simp only [wordOfBytes, byteOfWord, UInt32.toNat_ofNat',
      UInt8.toNat_ofNat']
    omega

@[simp] theorem wordOfBytes_byteOfWord (word : UInt32) :
    wordOfBytes (byteOfWord word) = word := by
  have hlt := word.toNat_lt
  apply UInt32.toNat_inj.mp
  simp only [wordOfBytes, byteOfWord, UInt32.toNat_ofNat', UInt8.toNat_ofNat']
  omega

/-- Bit `j` of a little-endian word is bit `j % 8` of byte `j / 8`. -/
theorem testBit_wordOfBytes (byte : Fin 4 → UInt8) {j : Nat} (hj : j < 32) :
    (wordOfBytes byte).toNat.testBit j =
      (byte ⟨j / 8, by omega⟩).toNat.testBit (j % 8) := by
  have h0 := (byte 0).toNat_lt
  have h1 := (byte 1).toNat_lt
  have h2 := (byte 2).toNat_lt
  have h3 := (byte 3).toNat_lt
  have hword : (wordOfBytes byte).toNat =
      2 ^ 8 * (2 ^ 8 * (2 ^ 8 * (byte 3).toNat + (byte 2).toNat) +
        (byte 1).toNat) + (byte 0).toNat := by
    simp only [wordOfBytes, UInt32.toNat_ofNat']
    omega
  rw [hword, Nat.testBit_two_pow_mul_add _ h0]
  split
  next hlow =>
    have hdiv : j / 8 = 0 := by omega
    simp only [hdiv, Nat.mod_eq_of_lt hlow]
    rfl
  rw [Nat.testBit_two_pow_mul_add _ h1]
  split
  next hlow =>
    have hdiv : j / 8 = 1 := by omega
    have hmod : j - 8 = j % 8 := by omega
    simp only [hdiv, hmod]
    rfl
  rw [Nat.testBit_two_pow_mul_add _ h2]
  split
  next hlow =>
    have hdiv : j / 8 = 2 := by omega
    have hmod : j - 8 - 8 = j % 8 := by omega
    simp only [hdiv, hmod]
    rfl
  next hhigh =>
    have hdiv : j / 8 = 3 := by omega
    have hmod : j - 8 - 8 - 8 = j % 8 := by omega
    simp only [hdiv, hmod]
    rfl

/-! Bits of a byte: `b |= 1 << k`, `b &= ~(1 << k)` and `b & (1 << k)`. -/

def bit (k : Nat) : UInt8 := 1 <<< UInt8.ofNat k

def setBit (byte : UInt8) (k : Nat) : UInt8 := byte ||| bit k

def clearBit (byte : UInt8) (k : Nat) : UInt8 := byte &&& ~~~bit k

def testBit (byte : UInt8) (k : Nat) : UInt8 := byte &&& bit k

theorem bit_toBitVec {k : Nat} (hk : k < 8) :
    (bit k).toBitVec = BitVec.twoPow 8 k := by
  simp [bit, BitVec.twoPow_eq, Nat.mod_eq_of_lt hk]

theorem testBit_ne_zero_iff (byte : UInt8) {k : Nat} (hk : k < 8) :
    testBit byte k ≠ 0 ↔ byte.toBitVec.getLsbD k = true := by
  rw [ne_eq, ← UInt8.toBitVec_inj, testBit, UInt8.toBitVec_and,
    bit_toBitVec hk, BitVec.and_twoPow]
  cases hbit : byte.toBitVec.getLsbD k with
  | false => simp
  | true =>
      have hne : BitVec.twoPow 8 k ≠ 0 := by
        intro hzero
        have := congrArg (fun v : BitVec 8 => v.getLsbD k) hzero
        simp [hk] at this
      simpa using hne

theorem testBit_ne_zero_iff_toNat (byte : UInt8) {k : Nat} (hk : k < 8) :
    testBit byte k ≠ 0 ↔ byte.toNat.testBit k = true := by
  rw [testBit_ne_zero_iff byte hk, BitVec.getLsbD]
  rfl

/-- `b & (1 << k)` is the mask or nothing. -/
theorem testBit_eq_ite (byte : UInt8) {k : Nat} (hk : k < 8) :
    testBit byte k = if testBit byte k ≠ 0 then bit k else 0 := by
  simp only [testBit_ne_zero_iff byte hk]
  apply UInt8.toBitVec_inj.mp
  rw [testBit, UInt8.toBitVec_and, bit_toBitVec hk, BitVec.and_twoPow]
  split
  · rw [bit_toBitVec hk]
  · rfl

theorem testBit_setBit (byte : UInt8) {k j : Nat} (hk : k < 8) (hj : j < 8) :
    testBit (setBit byte k) j ≠ 0 ↔ j = k ∨ testBit byte j ≠ 0 := by
  rw [testBit_ne_zero_iff _ hj, testBit_ne_zero_iff _ hj, setBit,
    UInt8.toBitVec_or, bit_toBitVec hk, BitVec.getLsbD_or,
    BitVec.getLsbD_twoPow]
  by_cases heq : k = j
  · simp [heq, hj]
  · simp [heq, Ne.symm heq]

theorem testBit_clearBit (byte : UInt8) {k j : Nat} (hk : k < 8)
    (hj : j < 8) :
    testBit (clearBit byte k) j ≠ 0 ↔ j ≠ k ∧ testBit byte j ≠ 0 := by
  rw [testBit_ne_zero_iff _ hj, testBit_ne_zero_iff _ hj, clearBit,
    UInt8.toBitVec_and, UInt8.toBitVec_not, bit_toBitVec hk,
    BitVec.getLsbD_and, BitVec.getLsbD_not, BitVec.getLsbD_twoPow]
  by_cases heq : k = j
  · simp [heq, hj]
  · simp [heq, Ne.symm heq, hj]

theorem byte_ext {a b : UInt8}
    (hbits : ∀ k, k < 8 → (testBit a k ≠ 0 ↔ testBit b k ≠ 0)) : a = b := by
  apply UInt8.toBitVec_inj.mp
  apply BitVec.eq_of_getLsbD_eq
  intro k hk
  have hbit := hbits k hk
  rw [testBit_ne_zero_iff a hk, testBit_ne_zero_iff b hk] at hbit
  exact Bool.eq_iff_iff.mpr hbit

theorem and_or_distrib_right (a b c : UInt32) :
    (a ||| b) &&& c = (a &&& c) ||| (b &&& c) :=
  UInt32.toBitVec_inj.mp BitVec.and_or_distrib_right

/-! Conversions.  A value of type `int` or `off_t` is an `Int` in range. -/

/-- Conversion to a 32-bit `int`. -/
def toInt32 (z : Int) : Int := z.bmod 4294967296

/-- Conversion to a 64-bit `size_t`. -/
def toSize (z : Int) : Int := z % 18446744073709551616

/-- An `uint32_t` read as an `int`. -/
def wordToInt (word : UInt32) : Int := toInt32 word.toNat

/-- An `int` stored in an `uint32_t`. -/
def wordOfInt (z : Int) : UInt32 := .ofNat (z % 4294967296).toNat

theorem toInt32_of_lt {z : Int} (hlow : -2147483648 ≤ z)
    (hhigh : z < 2147483648) : toInt32 z = z :=
  Int.bmod_eq_of_le (by omega) (by omega)

theorem le_toInt32 (z : Int) : -2147483648 ≤ toInt32 z :=
  Int.le_bmod (by decide)

theorem toInt32_add (z k : Int) :
    toInt32 (z + 4294967296 * k) = toInt32 z :=
  Int.add_mul_bmod_self_left z 4294967296 k

theorem toSize_of_lt {z : Int} (hlow : 0 ≤ z)
    (hhigh : z < 18446744073709551616) : toSize z = z :=
  Int.emod_eq_of_lt hlow hhigh

theorem wordToInt_of_lt {word : UInt32} (hlt : word.toNat < 2147483648) :
    wordToInt word = word.toNat :=
  toInt32_of_lt (by omega) (by omega)

@[simp] theorem wordOfInt_toNat {z : Int} :
    (wordOfInt z).toNat = (z % 4294967296).toNat := by
  simp only [wordOfInt, UInt32.toNat_ofNat']
  omega

theorem wordOfInt_natCast {n : Nat} (hlt : n < 4294967296) :
    (wordOfInt n).toNat = n := by
  rw [wordOfInt_toNat]
  omega

end MachineWord
