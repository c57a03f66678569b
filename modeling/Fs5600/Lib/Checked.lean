/-
Computations that end with a value or an exception, in sequence, over the
values of a list, and in a loop that carries a state.
-/
import Mathlib.Data.List.Forall2

namespace Checked

variable {E A B S : Type}

theorem bind_eq_ok {first : Except E A} {next : A → Except E B} {b : B} :
    first >>= next = .ok b ↔ ∃ a, first = .ok a ∧ next a = .ok b := by
  cases first with
  | error e =>
      refine iff_of_false (fun h => by cases h) ?_
      rintro ⟨_, heq, -⟩
      cases heq
  | ok a =>
      constructor
      · exact fun h => ⟨a, rfl, h⟩
      · rintro ⟨_, heq, h⟩
        cases heq
        exact h

theorem mapM_eq_ok {f : A → Except E B} {values : List A} {found : List B} :
    values.mapM f = .ok found ↔
      List.Forall₂ (fun a b => f a = .ok b) values found := by
  induction values generalizing found with
  | nil =>
      rw [List.mapM_nil, List.forall₂_nil_left_iff]
      exact ⟨fun h => by cases h; rfl, fun h => by rw [h]; rfl⟩
  | cons a values ih =>
      rw [List.mapM_cons, bind_eq_ok, List.forall₂_cons_left_iff]
      constructor
      · rintro ⟨b, hb, hrest⟩
        obtain ⟨rest, hvalues, heq⟩ := bind_eq_ok.mp hrest
        cases heq
        exact ⟨b, rest, hb, ih.mp hvalues, rfl⟩
      · rintro ⟨b, rest, hb, hvalues, rfl⟩
        exact ⟨b, hb, bind_eq_ok.mpr ⟨rest, ih.mpr hvalues, rfl⟩⟩

theorem mapM_map_ok {f : A → Except E B} {g : S → A} {h : S → B}
    {values : List S} (hf : ∀ s ∈ values, f (g s) = .ok (h s)) :
    (values.map g).mapM f = .ok (values.map h) := by
  rw [mapM_eq_ok, List.forall₂_map_right_iff, List.forall₂_map_left_iff,
    List.forall₂_same]
  exact hf

theorem length_of_mapM {f : A → Except E B} {values : List A}
    {found : List B} (hfound : values.mapM f = .ok found) :
    found.length = values.length :=
  (mapM_eq_ok.mp hfound).length_eq.symm

/-- A property of every value that is found. -/
theorem forall_of_mapM {P : B → Prop} {f : A → Except E B} {values : List A}
    {found : List B} (hfound : values.mapM f = .ok found)
    (hstep : ∀ a ∈ values, ∀ b, f a = .ok b → P b) : ∀ b ∈ found, P b := by
  induction mapM_eq_ok.mp hfound with
  | nil => exact fun b hb => by cases hb
  | @cons a b values found hb hrest ih =>
      rw [List.forall_mem_cons] at hstep
      exact List.forall_mem_cons.mpr
        ⟨hstep.1 b hb, ih (mapM_eq_ok.mpr hrest) hstep.2⟩

/-- What every round of a loop keeps. -/
theorem foldlM_keeps {P : S → Prop} {step : S → A → Except E S}
    (hstep : ∀ state a state', step state a = .ok state' → P state →
      P state')
    {values : List A} {state state' : S}
    (hrun : values.foldlM step state = .ok state') (hstate : P state) :
    P state' := by
  induction values generalizing state with
  | nil =>
      cases hrun
      exact hstate
  | cons a values ih =>
      rw [List.foldlM_cons] at hrun
      obtain ⟨next, hnext, hrest⟩ := bind_eq_ok.mp hrun
      exact ih hrest (hstep state a next hnext hstate)

end Checked
