/-
The queries that a run of a program issues, each in the state in which it is
issued, and two properties of programs that follow their structure: every
query issued is a good one, and a query that goes wrong is reported.
-/
import Fs5600.Lib.EffectProgram

namespace EffectProgram

namespace Program

variable {Q : Type} {R : Q → Type} {E A B S : Type} (handler : Handler Q R S)

/-- The queries of a run in order. -/
def issued : Program Q R E A → S → List (S × Q)
  | .ret _, _ => []
  | .exit _, _ => []
  | .undefined, _ => []
  | .call query next, state =>
      (state, query) ::
        match handler query state with
        | none => []
        | some (reply, state') => (next reply).issued state'

theorem issued_bind (program : Program Q R E A) (next : A → Program Q R E B)
    (state : S) :
    (program >>= next).issued handler state =
      program.issued handler state ++
        match program.exec handler state with
        | some (.ok value, state') => (next value).issued handler state'
        | _ => [] := by
  change (program.bind next).issued handler state = _
  induction program generalizing state with
  | ret value => rfl
  | exit status => rfl
  | undefined => rfl
  | call query rest ih =>
      simp only [bind, issued, exec, List.cons_append, List.cons.injEq,
        true_and]
      cases handler query state with
      | none => rfl
      | some reply => exact ih reply.1 reply.2

theorem issued_attempt (program : Program Q R E A) (state : S) :
    (program.attempt : Program Q R E (Except E A)).issued handler state =
      program.issued handler state := by
  induction program generalizing state with
  | ret value => rfl
  | exit status => rfl
  | undefined => rfl
  | call query rest ih =>
      simp only [attempt, issued]
      cases handler query state with
      | none => rfl
      | some reply => exact congrArg _ (ih reply.1 reply.2)

theorem issued_rejectIf_bind (test : Prop) [Decidable test] (status : E)
    (next : Unit → Program Q R E B) (state : S) :
    (rejectIf test status >>= next).issued handler state =
      if test then [] else (next ()).issued handler state := by
  rw [issued_bind]
  by_cases htest : test <;> simp [rejectIf, htest, issued]

/-- Every query issued from a state is a good one. -/
def Issues (good : S → Q → Prop) (program : Program Q R E A) (state : S) :
    Prop :=
  ∀ entry ∈ program.issued handler state, good entry.1 entry.2

/-- Whenever a query of the program goes wrong, the program leaves early with
an alarming status. -/
def Reports (wrong : S → Q → Prop) (alarm : E → Prop)
    (program : Program Q R E A) : Prop :=
  ∀ state, (∃ entry ∈ program.issued handler state,
      wrong entry.1 entry.2) →
    ∃ status state', program.exec handler state =
      some (.error status, state') ∧ alarm status

variable {handler} {program : Program Q R E A} {next : A → Program Q R E B}

/-! Good queries. -/

section

variable {good : S → Q → Prop} {state : S}

theorem Issues.pure (value : A) :
    (Pure.pure value : Program Q R E A).Issues handler good state :=
  fun _ hmem => absurd hmem List.not_mem_nil

theorem Issues.bind (hprogram : program.Issues handler good state)
    (hnext : ∀ value state',
      program.exec handler state = some (.ok value, state') →
      (next value).Issues handler good state') :
    (program >>= next).Issues handler good state := by
  intro entry hmem
  rw [issued_bind, List.mem_append] at hmem
  rcases hmem with hmem | hmem
  · exact hprogram entry hmem
  · cases hrun : program.exec handler state with
    | none => simp [hrun] at hmem
    | some outcome =>
        obtain ⟨result, state'⟩ := outcome
        rw [hrun] at hmem
        cases result with
        | error status => cases hmem
        | ok value => exact hnext value state' hrun entry hmem

/-- Queries that are good in every state. -/
theorem Issues.of_only {allowed : Q → Prop}
    (hgood : ∀ state query, allowed query → good state query)
    (honly : program.Only allowed) (state : S) :
    program.Issues handler good state := by
  induction program generalizing state with
  | ret value => exact fun _ hmem => absurd hmem List.not_mem_nil
  | exit status => exact fun _ hmem => absurd hmem List.not_mem_nil
  | undefined => exact fun _ hmem => absurd hmem List.not_mem_nil
  | call query rest ih =>
      intro entry hmem
      rw [issued, List.mem_cons] at hmem
      rcases hmem with rfl | hmem
      · exact hgood state query honly.1
      · cases hreply : handler query state with
        | none => simp [hreply] at hmem
        | some reply =>
            rw [hreply] at hmem
            exact ih reply.1 (honly.2 reply.1) reply.2 entry hmem

end

/-! Reported queries. -/

section

variable {wrong : S → Q → Prop} {alarm : E → Prop}

theorem Reports.bind (hprogram : program.Reports handler wrong alarm)
    (hnext : ∀ value, (next value).Reports handler wrong alarm) :
    (program >>= next).Reports handler wrong alarm := by
  rintro state ⟨entry, hmem, hwrong⟩
  rw [issued_bind, List.mem_append] at hmem
  rcases hmem with hmem | hmem
  · obtain ⟨status, state', hrun, halarm⟩ :=
      hprogram state ⟨entry, hmem, hwrong⟩
    exact ⟨status, state', exec_bind_error hrun, halarm⟩
  · cases hrun : program.exec handler state with
    | none => simp [hrun] at hmem
    | some outcome =>
        obtain ⟨result, state'⟩ := outcome
        rw [hrun] at hmem
        cases result with
        | error status => cases hmem
        | ok value =>
            rw [exec_bind_ok hrun]
            exact hnext value state' ⟨entry, hmem, hwrong⟩

/-- Queries that never go wrong. -/
theorem Reports.of_only {allowed : Q → Prop}
    (hright : ∀ state query, allowed query → ¬ wrong state query)
    (honly : program.Only allowed) :
    program.Reports handler wrong alarm := by
  rintro state ⟨entry, hmem, hwrong⟩
  exact absurd hwrong
    (Issues.of_only hright
      honly state entry hmem)

theorem Reports.pure (value : A) :
    (Pure.pure value : Program Q R E A).Reports handler wrong alarm :=
  fun _ ⟨_, hmem, _⟩ => absurd hmem List.not_mem_nil

theorem Reports.undefined :
    (.undefined : Program Q R E A).Reports handler wrong alarm :=
  fun _ ⟨_, hmem, _⟩ => absurd hmem List.not_mem_nil

theorem Reports.exit (status : E) :
    (.exit status : Program Q R E A).Reports handler wrong alarm :=
  fun _ ⟨_, hmem, _⟩ => absurd hmem List.not_mem_nil

theorem Reports.rejectIf (test : Prop) [Decidable test] (status : E) :
    (rejectIf test status : Program Q R E Unit).Reports handler wrong
      alarm := by
  unfold Program.rejectIf
  split
  · exact Reports.exit status
  · exact Reports.pure ()

theorem Reports.require (test : Prop) [Decidable test] :
    (require test : Program Q R E Unit).Reports handler wrong alarm := by
  unfold Program.require
  split
  · exact Reports.pure ()
  · exact Reports.undefined

end

end Program

end EffectProgram
