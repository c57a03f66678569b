/-
Programs that run side by side on one state.  Some queries stay in memory: a
run of them up to the next other query is one step, and so is each other
query.  A program obeys a protocol when its steps, in states that it can count
on in its phase, are allowed ones; programs that obey protocols which fit
together keep a joint invariant in every interleaving.
-/
import Fs5600.Lib.EffectProgram
import Mathlib.Logic.Function.Basic

namespace EffectProgram

namespace Program

variable {Q : Type} {R : Q → Type} {E A B C S : Type}

/-- Code without queries that has a result is that result. -/
theorem eq_pure_of_exec {handler : Handler Q R S} {program : Program Q R E A}
    (honly : program.Only fun _ => False) {state state' : S} {value : A}
    (hrun : program.exec handler state = some (.ok value, state')) :
    program = pure value := by
  cases program with
  | ret value => cases hrun; rfl
  | exit status => cases hrun
  | undefined => cases hrun
  | call query next => exact absurd honly.1 id

/-- Handlers that agree on the queries of a program run it alike. -/
theorem Only.exec_eq {allowed : Q → Prop} {handler handler' : Handler Q R S}
    (hagree : ∀ query, allowed query → handler query = handler' query)
    {program : Program Q R E A} (honly : program.Only allowed) (state : S) :
    program.exec handler state = program.exec handler' state := by
  induction program generalizing state with
  | ret value => rfl
  | exit status => rfl
  | undefined => rfl
  | call query rest ih =>
      simp only [exec, hagree query honly.1]
      cases handler' query state with
      | none => rfl
      | some reply => exact ih reply.1 (honly.2 reply.1) reply.2

/-! Steps. -/

section

variable (handler : Handler Q R S) (inMemory : Q → Bool)

/-- Run the queries in memory at the head of a program. -/
def settle : Program Q R E A → S → Option (Program Q R E A × S)
  | .call query next, state =>
      if inMemory query then
        match handler query state with
        | none => none
        | some (reply, state') => (next reply).settle state'
      else some (.call query next, state)
  | program, state => some (program, state)

/-- One step: a run in memory, or one other query. -/
def step : Program Q R E A → S → Option (Program Q R E A × S)
  | .call query next, state =>
      if inMemory query then
        (call query next : Program Q R E A).settle handler inMemory state
      else (handler query state).map fun (reply, state') =>
        (next reply, state')
  | _, _ => none

/-- Programs of a family take steps in the order of the schedule. -/
def interleave {ι : Type} [DecidableEq ι] : List ι → (ι → Program Q R E A) →
    S → Option ((ι → Program Q R E A) × S)
  | [], threads, state => some (threads, state)
  | i :: schedule, threads, state =>
      match (threads i).step handler inMemory state with
      | none => none
      | some (program, state') =>
          interleave schedule (Function.update threads i program) state'

/-- A thread enters a critical region with a step that `enters`, and is inside
until it takes a step that is not `quiet`.  No thread enters while another one
is inside. -/
def Apart {ι : Type} [DecidableEq ι] (enters : Program Q R E A → Prop)
    (quiet : S → S → Prop) :
    List ι → (ι → Program Q R E A) → S → (ι → Prop) → Prop
  | [], _, _, _ => True
  | i :: schedule, threads, state, inside =>
      match (threads i).step handler inMemory state with
      | none => True
      | some (program, state') =>
          (enters (threads i) → ∀ j, j ≠ i → ¬ inside j) ∧
            Apart enters quiet schedule (Function.update threads i program)
              state' (Function.update inside i
                ((enters (threads i) ∨ inside i) ∧ quiet state state'))

/-- The program only reads, and what it returns in the states of a view has
the property. -/
def Sees (view : S → Prop) (post : A → Prop) : Program Q R E A → Prop
  | .ret value => post value
  | .exit _ => True
  | .undefined => True
  | .call query next => inMemory query = false ∧
      ∀ state reply state', view state →
        handler query state = some (reply, state') →
          state' = state ∧ (next reply).Sees view post

/-- Whatever the replies are, what the program returns has the property. -/
def Yields (post : A → Prop) : Program Q R E A → Prop
  | .ret value => post value
  | .exit _ => True
  | .undefined => True
  | .call _ next => ∀ reply, (next reply).Yields post

variable {handler inMemory} {program : Program Q R E A}
  {next : A → Program Q R E B} {state state' : S}

theorem settle_call {query : Q} {rest : R query → Program Q R E A}
    (hother : inMemory query = false) (state : S) :
    (.call query rest : Program Q R E A).settle handler inMemory state =
      some (.call query rest, state) := by
  rw [settle, hother]
  rfl

theorem settle_bind_ok (honly : program.Only fun query => inMemory query)
    {value : A} (hrun : program.exec handler state = some (.ok value, state')) :
    (program >>= next).settle handler inMemory state =
      (next value).settle handler inMemory state' := by
  change (program.bind next).settle handler inMemory state = _
  induction program generalizing state with
  | ret value => cases hrun; rfl
  | exit status => cases hrun
  | undefined => cases hrun
  | call query rest ih =>
      simp only [bind, settle, honly.1, ↓reduceIte]
      rw [exec] at hrun
      cases hreply : handler query state with
      | none => simp [hreply] at hrun
      | some reply =>
          rw [hreply] at hrun
          exact ih reply.1 (honly.2 reply.1) hrun

theorem settle_bind_error (honly : program.Only fun query => inMemory query)
    {status : E}
    (hrun : program.exec handler state = some (.error status, state')) :
    (program >>= next).settle handler inMemory state =
      some (.exit status, state') := by
  change (program.bind next).settle handler inMemory state = _
  induction program generalizing state with
  | ret value => cases hrun
  | exit status => cases hrun; rfl
  | undefined => cases hrun
  | call query rest ih =>
      simp only [bind, settle, honly.1, ↓reduceIte]
      rw [exec] at hrun
      cases hreply : handler query state with
      | none => simp [hreply] at hrun
      | some reply =>
          rw [hreply] at hrun
          exact ih reply.1 (honly.2 reply.1) hrun

section

variable {view : S → Prop} {post post'' : A → Prop} {post' : B → Prop}

theorem Sees.bind (hprogram : program.Sees handler inMemory view post)
    (hnext : ∀ value, post value →
      (next value).Sees handler inMemory view post') :
    (program >>= next).Sees handler inMemory view post' := by
  change (program.bind next).Sees handler inMemory view post'
  induction program with
  | ret value => exact hnext value hprogram
  | exit status => trivial
  | undefined => trivial
  | call query rest ih =>
      refine ⟨hprogram.1, fun state reply state' hview hreply => ?_⟩
      obtain ⟨hsame, hrest⟩ := hprogram.2 state reply state' hview hreply
      exact ⟨hsame, ih reply hrest⟩

theorem Sees.mono
    (hprogram : program.Sees handler inMemory view post)
    (hpost : ∀ value, post value → post'' value) :
    program.Sees handler inMemory view post'' := by
  induction program with
  | ret value => exact hpost value hprogram
  | exit status => trivial
  | undefined => trivial
  | call query rest ih =>
      refine ⟨hprogram.1, fun state reply state' hview hreply => ?_⟩
      obtain ⟨hsame, hrest⟩ := hprogram.2 state reply state' hview hreply
      exact ⟨hsame, ih reply hrest⟩

theorem Sees.pure {value : A} (hpost : post value) :
    (Pure.pure value : Program Q R E A).Sees handler inMemory view post :=
  hpost

theorem Sees.of_call {query : Q} {rest : R query → Program Q R E A}
    (hother : inMemory query = false)
    (hrest : ∀ state reply state', view state →
      handler query state = some (reply, state') →
        state' = state ∧ (rest reply).Sees handler inMemory view post) :
    (.call query rest : Program Q R E A).Sees handler inMemory view post :=
  ⟨hother, hrest⟩

theorem Sees.pure_eq (value : A) :
    (Pure.pure value : Program Q R E A).Sees handler inMemory view
      fun result => result = value := rfl

theorem Sees.rejectIf_bind {test : Prop} [Decidable test] (status : E)
    {next : Unit → Program Q R E B}
    (hnext : ¬ test → (next ()).Sees handler inMemory view post') :
    (Program.rejectIf test status >>= next).Sees handler inMemory view
      post' := by
  by_cases htest : test
  · rw [Program.rejectIf, if_pos htest]
    trivial
  · rw [Program.rejectIf, if_neg htest]
    exact hnext htest

theorem Yields.bind (hprogram : program.Yields post)
    (hnext : ∀ value, post value → (next value).Yields post') :
    (program >>= next).Yields post' := by
  change (program.bind next).Yields post'
  induction program with
  | ret value => exact hnext value hprogram
  | exit status => trivial
  | undefined => trivial
  | call query rest ih => exact fun reply => ih reply (hprogram reply)

theorem Yields.mono (hprogram : program.Yields post)
    (hpost : ∀ value, post value → post'' value) :
    program.Yields post'' := by
  induction program with
  | ret value => exact hpost value hprogram
  | exit status => trivial
  | undefined => trivial
  | call query rest ih => exact fun reply => ih reply (hprogram reply)

theorem Yields.of_next (program : Program Q R E A)
    (hnext : ∀ value, (next value).Yields post') :
    (program >>= next).Yields post' := by
  have hany : program.Yields fun _ => True := by
    induction program with
    | ret value => trivial
    | exit status => trivial
    | undefined => trivial
    | call query rest ih => exact ih
  exact hany.bind fun value _ => hnext value

theorem Yields.rejectIf_bind {test : Prop} [Decidable test] (status : E)
    {next : Unit → Program Q R E B}
    (hnext : ¬ test → (next ()).Yields post') :
    (Program.rejectIf test status >>= next).Yields post' := by
  by_cases htest : test
  · rw [Program.rejectIf, if_pos htest]
    trivial
  · rw [Program.rejectIf, if_neg htest]
    exact hnext htest

theorem Yields.require_bind {test : Prop} [Decidable test]
    {next : Unit → Program Q R E B} (hnext : test → (next ()).Yields post') :
    (Program.require test >>= next).Yields post' := by
  by_cases htest : test
  · rw [Program.require, if_pos htest]
    exact hnext htest
  · rw [Program.require, if_neg htest]
    trivial

theorem Yields.settle {program' : Program Q R E A}
    (hprogram : program.Yields post)
    (hrun : program.settle handler inMemory state =
      some (program', state')) : program'.Yields post := by
  induction program generalizing state with
  | ret value => cases hrun; exact hprogram
  | exit status => cases hrun; trivial
  | undefined => cases hrun; trivial
  | call query rest ih =>
      rw [Program.settle] at hrun
      split at hrun
      · cases hreply : handler query state with
        | none => rw [hreply] at hrun; cases hrun
        | some reply =>
            rw [hreply] at hrun
            exact ih reply.1 (hprogram reply.1) hrun
      · cases hrun
        exact hprogram

theorem Yields.step {program' : Program Q R E A}
    (hprogram : program.Yields post)
    (hrun : program.step handler inMemory state = some (program', state')) :
    program'.Yields post := by
  cases program with
  | ret value => cases hrun
  | exit status => cases hrun
  | undefined => cases hrun
  | call query rest =>
      rw [Program.step] at hrun
      split at hrun
      · exact hprogram.settle hrun
      · obtain ⟨⟨reply, _⟩, -, heq⟩ := Option.map_eq_some_iff.mp hrun
        cases heq
        exact hprogram reply

end

/-- No interleaving makes a program return anything else. -/
theorem interleave_yields {ι : Type} [DecidableEq ι] {post : ι → A → Prop}
    {schedule : List ι} {threads threads' : ι → Program Q R E A}
    (hyields : ∀ i, (threads i).Yields (post i))
    (hrun : interleave handler inMemory schedule threads state =
      some (threads', state')) (i : ι) : (threads' i).Yields (post i) := by
  induction schedule generalizing threads state with
  | nil =>
      cases hrun
      exact hyields i
  | cons j schedule ih =>
      rw [interleave] at hrun
      cases hstep : (threads j).step handler inMemory state with
      | none => rw [hstep] at hrun; cases hrun
      | some result =>
          rw [hstep] at hrun
          refine ih (fun k => ?_) hrun
          by_cases hk : k = j
          · subst hk
            rw [Function.update_self]
            exact (hyields k).step hstep
          · rw [Function.update_of_ne hk]
            exact hyields k

end

end Program

/-- What a program may count on in each phase, how one of its steps may change
state and phase, and how the program may end. -/
structure Protocol (Q : Type) (R : Q → Type) (E A S Φ : Type) where
  sees : Φ → S → Prop
  may : Program Q R E A → Φ → S → S → Φ → Prop
  done : Φ → A → Prop

namespace Program

section

variable {Φ ι : Type} (handler : Handler Q R S) (inMemory : Q → Bool)

/-- The program follows the protocol from a phase on.  Where it leaves early
or runs into undefined behaviour it may do so in any phase. -/
inductive Obeys (protocol : Protocol Q R E A S Φ) :
    Program Q R E A → Φ → Prop
  | ret {value : A} {phase : Φ} (hdone : protocol.done phase value) :
      Obeys protocol (.ret value) phase
  | exit (status : E) (phase : Φ) : Obeys protocol (.exit status) phase
  | undefined (phase : Φ) : Obeys protocol .undefined phase
  | call {query : Q} {next : R query → Program Q R E A} {phase : Φ}
      (goto : S → Φ)
      (hmay : ∀ state program state', protocol.sees phase state →
        (call query next : Program Q R E A).step handler inMemory state =
          some (program, state') →
        protocol.may (.call query next) phase state state' (goto state))
      (hnext : ∀ state program state', protocol.sees phase state →
        (call query next : Program Q R E A).step handler inMemory state =
          some (program, state') → Obeys protocol program (goto state)) :
      Obeys protocol (.call query next) phase

variable {handler inMemory} {protocol : Protocol Q R E A S Φ} {phase : Φ}

theorem Obeys.done {value : A}
    (hobeys : Obeys handler inMemory protocol (.ret value) phase) :
    protocol.done phase value := by
  cases hobeys with
  | ret hdone => exact hdone

/-- Every step leads to a phase from which the program goes on. -/
theorem Obeys.of_step {program : Program Q R E A}
    (hcall : ∃ query next, program = .call query next)
    (hstep : ∀ state program' state', protocol.sees phase state →
      program.step handler inMemory state = some (program', state') →
      ∃ phase', protocol.may program phase state state' phase' ∧
        Obeys handler inMemory protocol program' phase') :
    Obeys handler inMemory protocol program phase := by
  classical
  have hgoto : ∀ state, ∃ phase', ∀ program' state',
      protocol.sees phase state →
      program.step handler inMemory state = some (program', state') →
      protocol.may program phase state state' phase' ∧
        Obeys handler inMemory protocol program' phase' := by
    intro state
    by_cases hsome : protocol.sees phase state ∧ ∃ program' state',
        program.step handler inMemory state = some (program', state')
    · obtain ⟨hsees, program', state', hrun⟩ := hsome
      obtain ⟨phase', hall⟩ := hstep state program' state' hsees hrun
      refine ⟨phase', fun other state'' _ hother => ?_⟩
      rw [hrun] at hother
      cases hother
      exact hall
    · exact ⟨phase, fun program' state' hsees hrun =>
        absurd ⟨hsees, program', state', hrun⟩ hsome⟩
  obtain ⟨goto, hall⟩ := Classical.skolem.mp hgoto
  obtain ⟨query, next, rfl⟩ := hcall
  exact .call goto
    (fun state program' state' hsees hrun =>
      (hall state program' state' hsees hrun).1)
    (fun state program' state' hsees hrun =>
      (hall state program' state' hsees hrun).2)

/-- Reading first. -/
theorem Obeys.of_sees {code : Program Q R E B}
    {next : B → Program Q R E A} {post : B → Prop}
    (hcode : code.Sees handler inMemory (protocol.sees phase) post)
    (hidle : ∀ program state, protocol.sees phase state →
      protocol.may program phase state state phase)
    (hnext : ∀ value, post value →
      Obeys handler inMemory protocol (next value) phase) :
    Obeys handler inMemory protocol (code >>= next) phase := by
  change Obeys handler inMemory protocol (code.bind next) phase
  induction code with
  | ret value => exact hnext value hcode
  | exit status => exact .exit status phase
  | undefined => exact .undefined phase
  | call query rest ih =>
      refine .of_step ⟨_, _, rfl⟩ fun state program state' hsees hrun => ?_
      rw [bind, step, if_neg (by simp [hcode.1])] at hrun
      obtain ⟨⟨reply, state''⟩, hreply, heq⟩ := Option.map_eq_some_iff.mp hrun
      cases heq
      obtain ⟨rfl, hrest⟩ := hcode.2 state reply _ hsees hreply
      exact ⟨phase, hidle _ _ hsees, ih reply hrest⟩

/- From here on the rules above are the way to `Sees`: unfolding it would
evaluate the program. -/
attribute [irreducible] Sees

/-- Programs that obey protocols which fit together keep what is jointly
invariant. -/
theorem interleave_keeps [DecidableEq ι]
    {protocols : ι → Protocol Q R E A S Φ} {enters : Program Q R E A → Prop}
    {quiet : S → S → Prop} {Joint : (ι → Φ) → S → (ι → Prop) → Prop}
    (hsees : ∀ phases state inside i, Joint phases state inside →
      (protocols i).sees (phases i) state)
    (hmay : ∀ phases state inside i program state' phase',
      Joint phases state inside →
      (enters program → ∀ j, j ≠ i → ¬ inside j) →
      (protocols i).may program (phases i) state state' phase' →
      Joint (Function.update phases i phase') state'
        (Function.update inside i
          ((enters program ∨ inside i) ∧ quiet state state')))
    {schedule : List ι} {threads threads' : ι → Program Q R E A}
    {state state' : S} {phases : ι → Φ} {inside : ι → Prop}
    (hjoint : Joint phases state inside)
    (hobeys : ∀ i, Obeys handler inMemory (protocols i) (threads i)
      (phases i))
    (hapart : Apart handler inMemory enters quiet schedule threads state
      inside)
    (hrun : interleave handler inMemory schedule threads state =
      some (threads', state')) :
    ∃ phases' inside', Joint phases' state' inside' ∧
      ∀ i, Obeys handler inMemory (protocols i) (threads' i)
        (phases' i) := by
  induction schedule generalizing threads state phases inside with
  | nil =>
      cases hrun
      exact ⟨phases, inside, hjoint, hobeys⟩
  | cons i schedule ih =>
      rw [interleave] at hrun
      rw [Apart] at hapart
      cases hstep : (threads i).step handler inMemory state with
      | none => simp [hstep] at hrun
      | some result =>
          obtain ⟨program, next⟩ := result
          rw [hstep] at hrun hapart
          obtain ⟨phase', hallowed, hgoes⟩ :
              ∃ phase', (protocols i).may (threads i) (phases i) state next
                phase' ∧
              Obeys handler inMemory (protocols i) program phase' := by
            have hview := hsees phases state inside i hjoint
            have hi := hobeys i
            cases hthread : threads i with
            | ret value => rw [hthread] at hstep; cases hstep
            | exit status => rw [hthread] at hstep; cases hstep
            | undefined => rw [hthread] at hstep; cases hstep
            | call query rest =>
                rw [hthread] at hi hstep
                cases hi with
                | call goto hmay hnext =>
                    exact ⟨goto state, hmay _ _ _ hview hstep,
                      hnext _ _ _ hview hstep⟩
          refine ih (hmay phases state inside i (threads i) next phase'
            hjoint hapart.1 hallowed) (fun j => ?_) hapart.2 hrun
          by_cases hj : j = i
          · subst hj
            rw [Function.update_self, Function.update_self]
            exact hgoes
          · rw [Function.update_of_ne hj, Function.update_of_ne hj]
            exact hobeys j

end

end Program

end EffectProgram
