/-
Programs that reach their environment only through queries, in the shape of C
code with error returns: a program ends with a value, leaves early with a
status, or runs into undefined behaviour.  A handler answers the queries from
a state, and `exec` runs a program to its end under one handler.
-/
import Mathlib.Logic.Basic

namespace EffectProgram

/-- A finite tree of queries.  `next` continues with the reply to `query`. -/
inductive Program (Q : Type) (R : Q → Type) (E : Type) (A : Type) where
  | ret (value : A)
  | exit (status : E)
  | undefined
  | call (query : Q) (next : R query → Program Q R E A)

variable {Q : Type} {R : Q → Type} {E A B C S : Type}

namespace Program

/-- Sequencing.  An early exit and undefined behaviour skip the rest. -/
def bind (program : Program Q R E A) (next : A → Program Q R E B) :
    Program Q R E B :=
  match program with
  | .ret value => next value
  | .exit status => .exit status
  | .undefined => .undefined
  | .call query rest => .call query fun reply => (rest reply).bind next

instance : Monad (Program Q R E) where
  pure := .ret
  bind := bind

theorem pure_bind (value : A) (next : A → Program Q R E B) :
    (pure value : Program Q R E A) >>= next = next value := rfl

theorem bind_assoc (program : Program Q R E A) (next : A → Program Q R E B)
    (last : B → Program Q R E C) :
    program >>= next >>= last = program >>= fun value => next value >>= last := by
  change (program.bind next).bind last =
    program.bind fun value => (next value).bind last
  induction program with
  | ret value => rfl
  | exit status => rfl
  | undefined => rfl
  | call query rest ih => exact congrArg _ (funext ih)

/-- Issue one query and return its reply. -/
def ask (query : Q) : Program Q R E (R query) :=
  .call query .ret

/-- Leave with `status` when the test holds, as in `if (c) return status;`. -/
def rejectIf (test : Prop) [Decidable test] (status : E) :
    Program Q R E Unit :=
  if test then .exit status else .ret ()

/-- Undefined behaviour unless the test holds. -/
def require (test : Prop) [Decidable test] : Program Q R E Unit :=
  if test then .ret () else .undefined

/-- Run `program` and hand its status, if it leaves early, to the caller
instead of leaving the caller as well. -/
def attempt (program : Program Q R E A) : Program Q R E (Except E A) :=
  match program with
  | .ret value => .ret (.ok value)
  | .exit status => .ret (.error status)
  | .undefined => .undefined
  | .call query rest => .call query fun reply => (rest reply).attempt

end Program

/-- The environment: a query in a state has a reply and a new state, or is
itself undefined behaviour. -/
abbrev Handler (Q : Type) (R : Q → Type) (S : Type) :=
  (query : Q) → S → Option (R query × S)

/-- How a run ends; `none` is undefined behaviour. -/
abbrev Outcome (E A S : Type) := Option (Except E A × S)

namespace Program

variable (handler : Handler Q R S)

def exec : Program Q R E A → S → Outcome E A S
  | .ret value, state => some (.ok value, state)
  | .exit status, state => some (.error status, state)
  | .undefined, _ => none
  | .call query next, state =>
      match handler query state with
      | none => none
      | some (reply, state') => (next reply).exec state'

@[simp] theorem exec_pure (value : A) (state : S) :
    (pure value : Program Q R E A).exec handler state =
      some (.ok value, state) := rfl

@[simp] theorem exec_ret (value : A) (state : S) :
    (.ret value : Program Q R E A).exec handler state =
      some (.ok value, state) := rfl

@[simp] theorem exec_exit (status : E) (state : S) :
    (.exit status : Program Q R E A).exec handler state =
      some (.error status, state) := rfl

@[simp] theorem exec_undefined (state : S) :
    (.undefined : Program Q R E A).exec handler state = none := rfl

theorem exec_bind (program : Program Q R E A) (next : A → Program Q R E B)
    (state : S) :
    (program >>= next).exec handler state =
      match program.exec handler state with
      | none => none
      | some (.error status, state') => some (.error status, state')
      | some (.ok value, state') => (next value).exec handler state' := by
  change (program.bind next).exec handler state = _
  induction program generalizing state with
  | ret value => rfl
  | exit status => rfl
  | undefined => rfl
  | call query rest ih =>
      simp only [bind, exec]
      cases handler query state with
      | none => rfl
      | some reply => exact ih reply.1 reply.2

variable {handler}

theorem exec_bind_ok {program : Program Q R E A}
    {next : A → Program Q R E B} {state state' : S} {value : A}
    (hrun : program.exec handler state = some (.ok value, state')) :
    (program >>= next).exec handler state =
      (next value).exec handler state' := by
  rw [exec_bind, hrun]

theorem exec_bind_error {program : Program Q R E A}
    {next : A → Program Q R E B} {state state' : S} {status : E}
    (hrun : program.exec handler state = some (.error status, state')) :
    (program >>= next).exec handler state = some (.error status, state') := by
  rw [exec_bind, hrun]

theorem exec_bind_none {program : Program Q R E A}
    {next : A → Program Q R E B} {state : S}
    (hrun : program.exec handler state = none) :
    (program >>= next).exec handler state = none := by
  rw [exec_bind, hrun]

/-- A sequence that ends with a value has one in between. -/
theorem exec_bind_eq_ok {program : Program Q R E A}
    {next : A → Program Q R E B} {state state' : S} {result : B} :
    (program >>= next).exec handler state = some (.ok result, state') ↔
      ∃ value middle, program.exec handler state = some (.ok value, middle) ∧
        (next value).exec handler middle = some (.ok result, state') := by
  rw [exec_bind]
  constructor
  · intro hrun
    split at hrun
    · cases hrun
    · cases hrun
    next value middle hprogram => exact ⟨value, middle, hprogram, hrun⟩
  · rintro ⟨value, middle, hprogram, hnext⟩
    rw [hprogram]
    exact hnext

/-- A sequence ends early in its first part, or goes through it. -/
theorem exec_bind_cases {program : Program Q R E A}
    {next : A → Program Q R E B} {state state' : S} {result : Except E B}
    (hrun : (program >>= next).exec handler state = some (result, state')) :
    (∃ status, program.exec handler state = some (.error status, state') ∧
        result = .error status) ∨
      ∃ value middle, program.exec handler state = some (.ok value, middle) ∧
        (next value).exec handler middle = some (result, state') := by
  rw [exec_bind] at hrun
  split at hrun
  · cases hrun
  next status middle hprogram =>
    cases hrun
    exact Or.inl ⟨status, hprogram, rfl⟩
  next value middle hprogram => exact Or.inr ⟨value, middle, hprogram, hrun⟩

theorem exec_rejectIf_bind (test : Prop) [Decidable test] (status : E)
    (next : Unit → Program Q R E B) (state : S) :
    (rejectIf test status >>= next).exec handler state =
      if test then some (.error status, state)
      else (next ()).exec handler state := by
  by_cases htest : test <;> simp [rejectIf, htest, exec_bind]

theorem exec_require_bind (test : Prop) [Decidable test]
    (next : Unit → Program Q R E B) (state : S) :
    (require test >>= next).exec handler state =
      if test then (next ()).exec handler state else none := by
  by_cases htest : test <;> simp [require, htest, exec_bind]

theorem exec_attempt (program : Program Q R E A) (state : S) :
    (program.attempt : Program Q R E (Except E A)).exec handler state =
      (program.exec handler state).map fun result =>
        (.ok result.1, result.2) := by
  induction program generalizing state with
  | ret value => rfl
  | exit status => rfl
  | undefined => rfl
  | call query rest ih =>
      simp only [attempt, exec]
      cases handler query state with
      | none => rfl
      | some reply => exact ih reply.1 reply.2

/-- Every query of the program is an allowed one. -/
def Only (allowed : Q → Prop) : Program Q R E A → Prop
  | .ret _ => True
  | .exit _ => True
  | .undefined => True
  | .call query next => allowed query ∧ ∀ reply, (next reply).Only allowed

section

variable {allowed : Q → Prop}

@[simp] theorem only_pure (value : A) :
    (pure value : Program Q R E A).Only allowed := trivial

theorem Only.bind {program : Program Q R E A} {next : A → Program Q R E B}
    (hprogram : program.Only allowed)
    (hnext : ∀ value, (next value).Only allowed) :
    (program >>= next).Only allowed := by
  change (program.bind next).Only allowed
  induction program with
  | ret value => exact hnext value
  | exit status => trivial
  | undefined => trivial
  | call query rest ih =>
      exact ⟨hprogram.1, fun reply => ih reply (hprogram.2 reply)⟩

theorem Only.rejectIf (test : Prop) [Decidable test] (status : E) :
    (rejectIf test status : Program Q R E Unit).Only allowed := by
  unfold Program.rejectIf
  split <;> trivial

theorem Only.require (test : Prop) [Decidable test] :
    (require test : Program Q R E Unit).Only allowed := by
  unfold Program.require
  split <;> trivial

theorem Only.attempt {program : Program Q R E A}
    (hprogram : program.Only allowed) : program.attempt.Only allowed := by
  induction program with
  | ret value => trivial
  | exit status => trivial
  | undefined => trivial
  | call query rest ih =>
      exact ⟨hprogram.1, fun reply => ih reply (hprogram.2 reply)⟩

/-- A relation kept by every allowed query is kept by every run of a program
that issues no other.  This is the frame rule: take for `Keeps` what such a
program cannot change. -/
theorem Only.exec_keeps (Keeps : S → S → Prop)
    (hrefl : ∀ state, Keeps state state)
    (htrans : ∀ first second third,
      Keeps first second → Keeps second third → Keeps first third)
    (hquery : ∀ query state reply state', allowed query →
      handler query state = some (reply, state') → Keeps state state')
    {program : Program Q R E A} (honly : program.Only allowed)
    {state state' : S} {result : Except E A}
    (hrun : program.exec handler state = some (result, state')) :
    Keeps state state' := by
  induction program generalizing state with
  | ret value => cases hrun; exact hrefl _
  | exit status => cases hrun; exact hrefl _
  | undefined => cases hrun
  | call query rest ih =>
      simp only [exec] at hrun
      cases hreply : handler query state with
      | none => simp [hreply] at hrun
      | some reply =>
          simp only [hreply] at hrun
          exact htrans _ _ _
            (hquery query state reply.1 reply.2 honly.1 hreply)
            (ih reply.1 (honly.2 reply.1) hrun)

end

/-- Every early exit of the program has a status of the kind. -/
def Exits (kind : E → Prop) : Program Q R E A → Prop
  | .ret _ => True
  | .exit status => kind status
  | .undefined => True
  | .call _ next => ∀ reply, (next reply).Exits kind

section

variable {kind : E → Prop} {program : Program Q R E A}

theorem Exits.bind {next : A → Program Q R E B}
    (hprogram : program.Exits kind)
    (hnext : ∀ value, (next value).Exits kind) :
    (program >>= next).Exits kind := by
  change (program.bind next).Exits kind
  induction program with
  | ret value => exact hnext value
  | exit status => exact hprogram
  | undefined => trivial
  | call query rest ih => exact fun reply => ih reply (hprogram reply)

theorem Exits.require (test : Prop) [Decidable test] :
    (require test : Program Q R E Unit).Exits kind := by
  unfold Program.require
  split <;> trivial

theorem Exits.exec_error (hprogram : program.Exits kind) {state state' : S}
    {status : E}
    (hrun : program.exec handler state = some (.error status, state')) :
    kind status := by
  induction program generalizing state with
  | ret value => cases hrun
  | exit status' =>
      cases hrun
      exact hprogram
  | undefined => cases hrun
  | call query rest ih =>
      simp only [exec] at hrun
      cases hreply : handler query state with
      | none => simp [hreply] at hrun
      | some reply =>
          simp only [hreply] at hrun
          exact ih reply.1 (hprogram reply.1) hrun

end

end Program

end EffectProgram
