/-
A machine that answers inputs one after the other, a specification of which
answers are allowed, and the simulation that carries one step of the machine
over to all its runs.  The machine is only looked at where a guard holds.
-/
import Mathlib.Tactic.TypeStar

namespace Simulation

variable {C A I O : Type}

/-- The answers to a series of inputs, unless the machine breaks down. -/
def answers (step : C → I → Option (O × C)) :
    C → List I → Option (List O × C)
  | state, [] => some ([], state)
  | state, input :: inputs =>
      match step state input with
      | none => none
      | some (output, state') =>
          (answers step state' inputs).map fun rest =>
            (output :: rest.1, rest.2)

theorem answers_append {step : C → I → Option (O × C)} {state state' : C}
    {inputs : List I} {outputs : List O}
    (hfirst : answers step state inputs = some (outputs, state'))
    (more : List I) :
    answers step state (inputs ++ more) =
      (answers step state' more).map fun rest =>
        (outputs ++ rest.1, rest.2) := by
  induction inputs generalizing state outputs with
  | nil =>
      cases hfirst
      simp
  | cons input inputs ih =>
      rw [answers] at hfirst
      rw [List.cons_append, answers]
      cases hstep : step state input with
      | none =>
          rw [hstep] at hfirst
          cases hfirst
      | some next =>
          rw [hstep] at hfirst
          dsimp only at hfirst
          rw [Option.map_eq_some_iff] at hfirst
          obtain ⟨⟨rest, last⟩, hrest, heq⟩ := hfirst
          cases heq
          dsimp only
          rw [ih hrest, Option.map_map]
          rfl

/-- The guard holds of every input when it is met. -/
def Guarded (step : C → I → Option (O × C)) (guard : C → I → Prop) :
    C → List I → Prop
  | _, [] => True
  | state, input :: inputs =>
      guard state input ∧ ∀ output state',
        step state input = some (output, state') →
          Guarded step guard state' inputs

/-- A series of inputs with allowed answers. -/
inductive Allowed (allows : A → I → O → A → Prop) :
    A → List I → List O → A → Prop
  | nil (state : A) : Allowed allows state [] [] state
  | cons {state state' last : A} {input : I} {output : O}
      {inputs : List I} {outputs : List O}
      (hstep : allows state input output state')
      (hrest : Allowed allows state' inputs outputs last) :
      Allowed allows state (input :: inputs) (output :: outputs) last

/-- Within the guard, every step of the machine is defined and allowed. -/
def Simulates (step : C → I → Option (O × C))
    (allows : A → I → O → A → Prop) (guard : C → I → Prop)
    (related : C → A → Prop) : Prop :=
  ∀ state abstract input, related state abstract → guard state input →
    ∃ output state' abstract', step state input = some (output, state') ∧
      allows abstract input output abstract' ∧ related state' abstract'

variable {step : C → I → Option (O × C)} {allows : A → I → O → A → Prop}
  {guard : C → I → Prop} {related : C → A → Prop}

/-- A simulated machine answers every guarded series as the specification
allows. -/
theorem Simulates.run (hsim : Simulates step allows guard related)
    {state : C} {abstract : A} (hrelated : related state abstract)
    {inputs : List I} (hguarded : Guarded step guard state inputs) :
    ∃ outputs state' abstract',
      answers step state inputs = some (outputs, state') ∧
      Allowed allows abstract inputs outputs abstract' ∧
      related state' abstract' := by
  induction inputs generalizing state abstract with
  | nil => exact ⟨[], state, abstract, rfl, .nil abstract, hrelated⟩
  | cons input inputs ih =>
      obtain ⟨hguard, hnext⟩ := hguarded
      obtain ⟨output, state', abstract', hstep, hallows, hrelated'⟩ :=
        hsim state abstract input hrelated hguard
      obtain ⟨outputs, last, abstract'', hrun, hallowed, hlast⟩ :=
        ih hrelated' (hnext output state' hstep)
      refine ⟨output :: outputs, last, abstract'', ?_,
        .cons hallows hallowed, hlast⟩
      rw [answers, hstep]
      simp only [hrun, Option.map_some]

/-- The steps of the specification are taken from states that are related to
a state of the machine within the guard. -/
theorem Simulates.restrict (hsim : Simulates step allows guard related) :
    Simulates step
      (fun abstract input output abstract' =>
        (∃ state, related state abstract ∧ guard state input) ∧
          allows abstract input output abstract')
      guard related := by
  intro state abstract input hrelated hguard
  obtain ⟨output, state', abstract', hstep, hallows, hrelated'⟩ :=
    hsim state abstract input hrelated hguard
  exact ⟨output, state', abstract', hstep, ⟨⟨state, hrelated, hguard⟩,
    hallows⟩, hrelated'⟩

end Simulation
