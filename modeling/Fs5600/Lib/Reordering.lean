/-
Events of several clients in one series: when events of different clients
commute, the outcome depends on the series of each client only, and not on how
they are interleaved.
-/
import Mathlib.Data.List.Basic

namespace Reordering

variable {ι E S : Type} [DecidableEq ι]

/-- The events of one client, in their order. -/
def own (client : ι) (session : List (ι × E)) : List (ι × E) :=
  session.filter fun event => event.1 = client

/-- Two interleavings of the same series. -/
def SameSeries (session session' : List (ι × E)) : Prop :=
  ∀ client, own client session = own client session'

/-- The first event of a session is in the other one, behind events of other
clients only. -/
theorem SameSeries.split {event : ι × E} {rest session : List (ι × E)}
    (hsame : SameSeries (event :: rest) session) :
    ∃ front back, session = front ++ event :: back ∧
      (∀ other ∈ front, other.1 ≠ event.1) ∧
      SameSeries rest (front ++ back) := by
  have hhead := (hsame event.1).symm
  rw [own, own, List.filter_cons_of_pos (by simp)] at hhead
  obtain ⟨front, back, rfl, hfront, -, hback⟩ :=
    List.filter_eq_cons_iff.mp hhead
  have hother : ∀ other ∈ front, other.1 ≠ event.1 := fun other hmem heq =>
    hfront other hmem (decide_eq_true heq)
  refine ⟨front, back, rfl, hother, fun client => ?_⟩
  have hclient := hsame client
  simp only [own, List.filter_append] at hclient ⊢
  by_cases heq : event.1 = client
  · subst heq
    have hnone : front.filter (fun other => other.1 = event.1) = [] :=
      List.filter_eq_nil_iff.mpr hfront
    rw [hnone, List.nil_append]
    exact hback.symm
  · rw [List.filter_cons_of_neg (by simpa using heq),
      List.filter_cons_of_neg (by simpa using heq)] at hclient
    exact hclient

theorem SameSeries.mem {session session' : List (ι × E)}
    (hsame : SameSeries session session') {event : ι × E}
    (hmem : event ∈ session') : event ∈ session := by
  have hown : event ∈ own event.1 session' :=
    List.mem_filter.mpr ⟨hmem, decide_eq_true rfl⟩
  rw [← hsame event.1] at hown
  exact (List.mem_filter.mp hown).1

variable {step : S → ι × E → S}

omit [DecidableEq ι] in
/-- An event can be brought to the front past events it commutes with. -/
theorem foldl_front {event : ι × E} {front : List (ι × E)}
    (hcomm : ∀ other ∈ front, ∀ state,
      step (step state other) event = step (step state event) other)
    (state : S) :
    step (front.foldl step state) event =
      front.foldl step (step state event) := by
  induction front generalizing state with
  | nil => rfl
  | cons other front ih =>
      rw [List.foldl_cons, List.foldl_cons,
        ih (fun later hmem => hcomm later (List.mem_cons_of_mem other hmem)),
        hcomm other List.mem_cons_self]

/-- Interleavings of the same series have the same outcome. -/
theorem SameSeries.foldl_eq {session session' : List (ι × E)}
    (hsame : SameSeries session session')
    (hcomm : ∀ event ∈ session, ∀ other ∈ session', other.1 ≠ event.1 →
      ∀ state, step (step state other) event =
        step (step state event) other) (state : S) :
    session.foldl step state = session'.foldl step state := by
  induction session generalizing session' state with
  | nil =>
      cases session' with
      | nil => rfl
      | cons event rest =>
          have hnone := hsame event.1
          rw [own, own, List.filter_cons_of_pos (by simp)] at hnone
          cases hnone
  | cons event rest ih =>
      obtain ⟨front, back, rfl, hother, hrest⟩ := hsame.split
      have hsub : ∀ other ∈ front ++ back, other ∈ front ++ event :: back :=
        fun other hmem => by
          rw [List.mem_append] at hmem ⊢
          exact hmem.imp_right (List.mem_cons_of_mem event)
      have hbring := foldl_front
        (fun other hmem => hcomm event List.mem_cons_self other
          (List.mem_append_left _ hmem) (hother other hmem)) state
      rw [List.foldl_cons, List.foldl_append, List.foldl_cons, hbring,
        ← List.foldl_append]
      exact ih hrest (fun event' hevent other hmem =>
        hcomm event' (List.mem_cons_of_mem event hevent) other
          (hsub other hmem)) _

end Reordering
