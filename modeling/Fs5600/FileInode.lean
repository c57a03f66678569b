/-
The inodes that truncation and writing store: their sizes and their pointers.
-/
import Fs5600.Plan

namespace Fs5600

open MachineWord

theorem blockCount_mono {m n : Nat} (hle : m ≤ n) :
    blockCount m ≤ blockCount n := by
  rw [blockCount, blockCount]
  omega

theorem blockCount_max (m n : Nat) :
    blockCount (max m n) = max (blockCount m) (blockCount n) := by
  rw [blockCount, blockCount, blockCount]
  omega

theorem lt_blockCount {m k : Nat} : k < blockCount m ↔ 4096 * k < m := by
  rw [blockCount]
  omega

theorem toInt_ofInt_natCast {n : Nat} (hlt : n < 2147483648) :
    (Int32.ofInt n).toInt = n :=
  Int32.toInt_ofInt_of_le (by omega) (by omega)

namespace FsInode

variable (inode : FsInode)

theorem ptr_of_lt {k : Nat} (hk : k < 1019) :
    inode.ptr k = (inode.ptrs ⟨k, hk⟩).toNat := dif_pos hk

theorem ptr_of_ge {k : Nat} (hk : 1019 ≤ k) : inode.ptr k = 0 :=
  dif_neg (by omega)

/-! A file cut short. -/

section

variable (len : Nat)

@[simp] theorem shrink_mode : (inode.shrink len).mode = inode.mode := rfl

theorem shrink_size (hlen : len < 2147483648) :
    (inode.shrink len).size.toInt = len := toInt_ofInt_natCast hlen

theorem shrink_length (hlen : len < 2147483648) :
    (inode.shrink len).length = len := by
  rw [length, inode.shrink_size len hlen, Int.toNat_natCast]

theorem shrink_ptr {k : Nat}
    (hk : k < blockCount len ∨ blockCount inode.length ≤ k) :
    (inode.shrink len).ptr k = inode.ptr k := by
  by_cases hlt : k < 1019
  · have hnot : ¬ ((blockCount len : Int) ≤ k ∧
        (k : Int) < blockCount inode.length) := by omega
    rw [ptr_of_lt _ hlt, ptr_of_lt _ hlt]
    simp only [shrink, dropPtrs, if_neg hnot]
  · rw [ptr_of_ge _ (by omega), ptr_of_ge _ (by omega)]

theorem mem_dropped {b : Nat} :
    b ∈ inode.dropped len ↔
      ∃ k, blockCount len ≤ k ∧ k < blockCount inode.length ∧
        inode.ptr k = b := by
  simp only [dropped, List.mem_map, List.mem_range'_1]
  constructor
  · rintro ⟨k, ⟨hlow, hhigh⟩, rfl⟩
    exact ⟨k, hlow, by omega, rfl⟩
  · rintro ⟨k, hlow, hhigh, rfl⟩
    exact ⟨k, ⟨hlow, by omega⟩, rfl⟩

theorem length_dropped :
    (inode.dropped len).length =
      blockCount inode.length - blockCount len := by
  simp [dropped]

end

/-! A file grown longer. -/

section

variable (fresh : List Nat) (stop : Nat) (mtime : UInt32)

@[simp] theorem extend_mode :
    (inode.extend fresh stop mtime).mode = inode.mode := rfl

theorem extend_size (hsize : 0 ≤ inode.size.toInt)
    (hstop : stop < 2147483648) :
    (inode.extend fresh stop mtime).size.toInt = max inode.length stop := by
  have hlength : inode.size.toInt = inode.length := by
    rw [length]
    omega
  simp only [extend]
  split
  next hgt =>
    rw [toInt_ofInt_natCast hstop]
    omega
  next hle =>
    rw [hlength]
    omega

theorem extend_length (hsize : 0 ≤ inode.size.toInt)
    (hstop : stop < 2147483648) :
    (inode.extend fresh stop mtime).length = max inode.length stop := by
  rw [length, inode.extend_size fresh stop mtime hsize hstop,
    Int.toNat_natCast]

theorem extend_ptr {k : Nat}
    (hk : k < blockCount inode.length ∨
      blockCount inode.length + fresh.length ≤ k) :
    (inode.extend fresh stop mtime).ptr k = inode.ptr k := by
  by_cases hlt : k < 1019
  · rw [ptr_of_lt _ hlt, ptr_of_lt _ hlt]
    simp only [extend, placePtrs]
    split
    next hle =>
      rw [List.getElem?_eq_none (by omega)]
    next => rfl
  · rw [ptr_of_ge _ (by omega), ptr_of_ge _ (by omega)]

theorem extend_ptr_fresh {j : Nat} (hj : j < fresh.length)
    (hbound : blockCount inode.length + j < 1019)
    (hword : fresh[j] < 4294967296) :
    (inode.extend fresh stop mtime).ptr (blockCount inode.length + j) =
      fresh[j] := by
  rw [ptr_of_lt _ hbound]
  simp only [extend, placePtrs, Nat.le_add_right, ↓reduceIte,
    Nat.add_sub_cancel_left, List.getElem?_eq_getElem hj]
  exact wordOfInt_natCast hword

end

end FsInode

end Fs5600
