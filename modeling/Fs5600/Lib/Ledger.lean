/-
Ledgers of who holds which block, and of the blocks that are marked in use.
Holding and marking are kept apart, as a file system keeps its objects and
its bitmap apart; a transfer says how one step changes both.
-/
import Mathlib.Data.Set.Basic

namespace Ledger

variable {K B : Type}

/-- No block is held under two keys. -/
def Exclusive (hold : K → Option B) : Prop :=
  ∀ first second block, hold first = some block →
    hold second = some block → first = second

end Ledger

/-- `hold` is the block held under a key, `marked` the blocks in use. -/
structure Ledger (K B : Type) where
  hold : K → Option B
  marked : Set B

namespace Ledger

variable {K B : Type}

/-- Every held block is marked, and held once. -/
structure Sound (ledger : Ledger K B) : Prop where
  exclusive : Exclusive ledger.hold
  marked : ∀ key block, ledger.hold key = some block → block ∈ ledger.marked

/-- Nothing is marked but the reserved and the held blocks. -/
def Tight (reserved : Set B) (ledger : Ledger K B) : Prop :=
  ∀ block, block ∈ ledger.marked ↔
    block ∈ reserved ∨ ∃ key, ledger.hold key = some block

/-- One step drops the keys `dropped`, gains what `gained` hands out, and
takes the marks off `released`. -/
structure Transfer (before after : Ledger K B) (dropped : K → Prop)
    (gained : K → Option B) (released : Set B) : Prop where
  hold : ∀ key block, after.hold key = some block ↔
    (before.hold key = some block ∧ ¬ dropped key) ∨ gained key = some block
  marked : ∀ block, block ∈ after.marked ↔
    (block ∈ before.marked ∧ block ∉ released) ∨
      ∃ key, gained key = some block
  fresh : ∀ key block, gained key = some block → block ∉ before.marked
  once : Exclusive gained
  released : ∀ block, block ∈ released →
    ∃ key, dropped key ∧ before.hold key = some block

section

variable {before after : Ledger K B} {dropped : K → Prop}
  {gained : K → Option B} {released : Set B}

theorem Transfer.not_released
    (htransfer : Transfer before after dropped gained released)
    (hsound : before.Sound) {key : K} {block : B}
    (hheld : before.hold key = some block) (hkept : ¬ dropped key) :
    block ∉ released := by
  intro hreleased
  obtain ⟨key', hdropped, hheld'⟩ := htransfer.released block hreleased
  exact hkept (hsound.exclusive key key' block hheld hheld' ▸ hdropped)

theorem Transfer.sound
    (htransfer : Transfer before after dropped gained released)
    (hsound : before.Sound) : after.Sound := by
  refine ⟨?_, ?_⟩
  · intro first second block hfirst hsecond
    rcases (htransfer.hold first block).mp hfirst with ⟨hold₁, -⟩ | gain₁
    · rcases (htransfer.hold second block).mp hsecond with ⟨hold₂, -⟩ | gain₂
      · exact hsound.exclusive first second block hold₁ hold₂
      · exact absurd (hsound.marked first block hold₁)
          (htransfer.fresh second block gain₂)
    · rcases (htransfer.hold second block).mp hsecond with ⟨hold₂, -⟩ | gain₂
      · exact absurd (hsound.marked second block hold₂)
          (htransfer.fresh first block gain₁)
      · exact htransfer.once first second block gain₁ gain₂
  · intro key block hkey
    rw [htransfer.marked]
    rcases (htransfer.hold key block).mp hkey with ⟨hheld, hkept⟩ | hgain
    · exact Or.inl ⟨hsound.marked key block hheld,
        htransfer.not_released hsound hheld hkept⟩
    · exact Or.inr ⟨key, hgain⟩

/-- A step that releases all it drops leaks nothing. -/
theorem Transfer.tight
    (htransfer : Transfer before after dropped gained released)
    (hsound : before.Sound) {reserved : Set B}
    (hdropped : ∀ key block, dropped key → before.hold key = some block →
      block ∈ released)
    (hreserved : ∀ key block, before.hold key = some block →
      block ∉ reserved)
    (htight : before.Tight reserved) : after.Tight reserved := by
  intro block
  rw [htransfer.marked]
  constructor
  · rintro (⟨hmarked, hkept⟩ | ⟨key, hgain⟩)
    · rcases (htight block).mp hmarked with hres | ⟨key, hheld⟩
      · exact Or.inl hres
      · refine Or.inr ⟨key,
          (htransfer.hold key block).mpr (Or.inl ⟨hheld, ?_⟩)⟩
        exact fun hdrop => hkept (hdropped key block hdrop hheld)
    · exact Or.inr ⟨key, (htransfer.hold key block).mpr (Or.inr hgain)⟩
  · rintro (hres | ⟨key, hheld⟩)
    · refine Or.inl ⟨(htight block).mpr (Or.inl hres), ?_⟩
      intro hreleased
      obtain ⟨key, -, hheld⟩ := htransfer.released block hreleased
      exact hreserved key block hheld hres
    · rcases (htransfer.hold key block).mp hheld with ⟨hheld, hkept⟩ | hgain
      · exact Or.inl ⟨hsound.marked key block hheld,
          htransfer.not_released hsound hheld hkept⟩
      · exact Or.inr ⟨key, hgain⟩

end

end Ledger
