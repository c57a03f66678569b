/-
Scripts: programs that print lines and end with a value or an exception.  A
run is clean when it ends with a value and every line has a given property.
-/
import Fs5600.Lib.Preorder

namespace Scripts

open Preorder

variable {E L A B V : Type}

/-- What is printed, and how the program ends. -/
structure Script (E L A : Type) where
  printed : List L
  result : Except E A

instance : Monad (Script E L) where
  pure value := ⟨[], .ok value⟩
  bind script next :=
    match script.result with
    | .error e => ⟨script.printed, .error e⟩
    | .ok value => ⟨script.printed ++ (next value).printed,
        (next value).result⟩

def print (line : L) : Script E L Unit := ⟨[line], .ok ()⟩

def raise (e : E) : Script E L A := ⟨[], .error e⟩

/-- A loop over a list. -/
def each (body : A → Script E L B) : List A → Script E L (List B)
  | [] => pure []
  | value :: values => do
      let first ← body value
      let rest ← each body values
      pure (first :: rest)

theorem bind_of_ok {script : Script E L A} {value : A}
    (hresult : script.result = .ok value) (next : A → Script E L B) :
    script >>= next =
      ⟨script.printed ++ (next value).printed, (next value).result⟩ := by
  change (match script.result with
    | .error e => _
    | .ok value => _) = _
  rw [hresult]

theorem bind_of_error {script : Script E L A} {e : E}
    (hresult : script.result = .error e) (next : A → Script E L B) :
    script >>= next = ⟨script.printed, .error e⟩ := by
  change (match script.result with
    | .error e => _
    | .ok value => _) = _
  rw [hresult]

theorem bind_eq_ok {script : Script E L A} {next : A → Script E L B}
    {value : B} :
    (script >>= next).result = .ok value ↔
      ∃ middle, script.result = .ok middle ∧
        (next middle).result = .ok value := by
  cases hresult : script.result with
  | error e => simp [bind_of_error hresult]
  | ok middle => simp [bind_of_ok hresult]

/-- The program ends with a value and prints only lines with the property. -/
def Clean (P : L → Prop) (script : Script E L A) : Prop :=
  script.result.isOk = true ∧ ∀ line ∈ script.printed, P line

variable {P : L → Prop}

@[simp] theorem clean_pure (value : A) :
    Clean P (pure value : Script E L A) :=
  ⟨rfl, fun _ hmem => by cases hmem⟩

@[simp] theorem not_clean_raise (e : E) :
    ¬ Clean P (raise e : Script E L A) :=
  fun hclean => by cases hclean.1

@[simp] theorem clean_print (line : L) :
    Clean P (print line : Script E L Unit) ↔ P line := by
  refine ⟨fun hclean => hclean.2 line (List.mem_singleton_self line),
    fun hline => ⟨rfl, fun line' hmem => ?_⟩⟩
  rw [List.mem_singleton.mp hmem]
  exact hline

theorem Clean.exists_ok {script : Script E L A} (hclean : Clean P script) :
    ∃ value, script.result = .ok value := by
  cases hresult : script.result with
  | error e =>
      have hok := hclean.1
      rw [hresult] at hok
      cases hok
  | ok value => exact ⟨value, rfl⟩

/-- A program is clean when its parts are. -/
theorem clean_bind {script : Script E L A} {next : A → Script E L B} :
    Clean P (script >>= next) ↔
      Clean P script ∧
        ∀ value, script.result = .ok value → Clean P (next value) := by
  cases hresult : script.result with
  | error e =>
      rw [bind_of_error hresult]
      refine iff_of_false (fun hclean => by cases hclean.1) ?_
      rintro ⟨⟨hok, -⟩, -⟩
      rw [hresult] at hok
      cases hok
  | ok value =>
      rw [bind_of_ok hresult]
      constructor
      · rintro ⟨hok, hlines⟩
        refine ⟨⟨?_, fun line hmem =>
          hlines line (List.mem_append_left _ hmem)⟩, ?_⟩
        · rw [hresult]
          rfl
        · intro value' heq
          cases heq
          exact ⟨hok, fun line hmem =>
            hlines line (List.mem_append_right _ hmem)⟩
      · rintro ⟨⟨-, hfirst⟩, hnext⟩
        obtain ⟨hok, hsecond⟩ := hnext value rfl
        refine ⟨hok, fun line hmem => ?_⟩
        rcases List.mem_append.mp hmem with hleft | hright
        · exact hfirst line hleft
        · exact hsecond line hright

/-- The second of two programs that does not use the value of the first. -/
theorem clean_seq {first : Script E L A} {next : Script E L B} :
    Clean P (first >>= fun _ => next) ↔ Clean P first ∧ Clean P next := by
  rw [clean_bind]
  refine and_congr_right fun hfirst => ?_
  obtain ⟨value, hvalue⟩ := hfirst.exists_ok
  exact ⟨fun hnext => hnext value hvalue, fun hnext _ _ => hnext⟩

theorem clean_each {body : A → Script E L B} {values : List A} :
    Clean P (each body values) ↔ ∀ value ∈ values, Clean P (body value) := by
  induction values with
  | nil => simp [each]
  | cons value values ih =>
      rw [each, clean_bind, List.forall_mem_cons, ← ih]
      constructor
      · rintro ⟨hfirst, hrest⟩
        obtain ⟨first, hvalue⟩ := hfirst.exists_ok
        exact ⟨hfirst, (clean_bind.mp (hrest first hvalue)).1⟩
      · rintro ⟨hfirst, hrest⟩
        exact ⟨hfirst, fun _ _ => clean_bind.mpr
          ⟨hrest, fun _ _ => clean_pure _⟩⟩

/-- A loop that ends has the value and the output of every round. -/
theorem each_eq_ok {body : A → Script E L B} {values : List A} {f : A → B}
    {out : A → List L}
    (hbody : ∀ value b, (body value).result = .ok b →
      b = f value ∧ (body value).printed = out value)
    {found : List B} (hresult : (each body values).result = .ok found) :
    found = values.map f ∧
      (each body values).printed = values.flatMap out := by
  induction values generalizing found with
  | nil =>
      cases hresult
      exact ⟨rfl, rfl⟩
  | cons value values ih =>
      rw [each, bind_eq_ok] at hresult
      obtain ⟨first, hfirst, hresult⟩ := hresult
      rw [bind_eq_ok] at hresult
      obtain ⟨rest, hrest, heq⟩ := hresult
      cases heq
      obtain ⟨rfl, hprinted⟩ := hbody value first hfirst
      obtain ⟨rfl, hrests⟩ := ih hrest
      refine ⟨rfl, ?_⟩
      rw [each, bind_of_ok hfirst, bind_of_ok hrest, List.flatMap_cons,
        ← hprinted, ← hrests]
      exact congrArg _ (List.append_nil _)

/-! The output of a program, part by part. -/

theorem Clean.printed_bind {script : Script E L A} {next : A → Script E L B}
    (hclean : Clean P (script >>= next)) :
    ∃ value, script.result = .ok value ∧ Clean P (next value) ∧
      (script >>= next).printed = script.printed ++ (next value).printed := by
  obtain ⟨hscript, hnext⟩ := clean_bind.mp hclean
  obtain ⟨value, hresult⟩ := hscript.exists_ok
  refine ⟨value, hresult, hnext value hresult, ?_⟩
  rw [bind_of_ok hresult]

theorem Clean.printed_each {body : A → Script E L B} {values : List A}
    (hclean : Clean P (each body values)) :
    (each body values).printed =
      values.flatMap fun value => (body value).printed := by
  induction values with
  | nil => rfl
  | cons value values ih =>
      rw [each] at hclean ⊢
      obtain ⟨_, -, hrest, heq⟩ := hclean.printed_bind
      obtain ⟨_, -, -, heq'⟩ := hrest.printed_bind
      rw [heq, heq', ih (clean_bind.mp hrest).1, List.flatMap_cons]
      exact congrArg _ (List.append_nil _)

/-- A program prints nothing when its parts do not. -/
theorem printed_bind_eq_nil {script : Script E L A}
    {next : A → Script E L B} (hscript : script.printed = [])
    (hnext : ∀ value, (next value).printed = []) :
    (script >>= next).printed = [] := by
  cases hresult : script.result with
  | error e => rw [bind_of_error hresult, hscript]
  | ok value => rw [bind_of_ok hresult, hscript, hnext, List.nil_append]

theorem printed_each_eq_nil {body : A → Script E L B} {values : List A}
    (hbody : ∀ value, (body value).printed = []) :
    (each body values).printed = [] := by
  induction values with
  | nil => rfl
  | cons value values ih =>
      exact printed_bind_eq_nil (hbody value) fun _ =>
        printed_bind_eq_nil ih fun _ => rfl

/-! Depth-first traversals. -/

/-- Visit a node, and then whatever the visit has found, in calls that nest at
most `n` deep; the nodes visited. -/
def traverse (visit : V → Script E L (List V)) (deep : E) :
    Nat → V → Script E L (List V)
  | 0, _ => raise deep
  | n + 1, v => do
      let below ← visit v
      let found ← each (traverse visit deep n) below
      pure (v :: found.flatten)

theorem printed_traverse_eq_nil {visit : V → Script E L (List V)} {deep : E}
    (hvisit : ∀ v, (visit v).printed = []) (n : Nat) (v : V) :
    (traverse visit deep n v).printed = [] := by
  induction n generalizing v with
  | zero => rfl
  | succ n ih =>
      exact printed_bind_eq_nil (hvisit v) fun _ =>
        printed_bind_eq_nil (printed_each_eq_nil ih) fun _ => rfl

section

variable {visit : V → Script E L (List V)} {deep : E} {next : V → List V}
  (hnext : ∀ v below, (visit v).result = .ok below → below = next v)

include hnext

/-- A traversal is clean when every node that can be reached is within the
depth and has a clean visit. -/
theorem clean_traverse {n : Nat} {v : V} :
    Clean P (traverse visit deep n v) ↔
      ∀ k w, Steps next k v w → k < n ∧ Clean P (visit w) := by
  induction n generalizing v with
  | zero =>
      refine iff_of_false (not_clean_raise deep) fun hall => ?_
      exact absurd (hall 0 v (.refl v)).1 (Nat.lt_irrefl 0)
  | succ n ih =>
      rw [traverse, clean_bind]
      constructor
      · rintro ⟨hvisit, hbelow⟩ k w hsteps
        cases hsteps with
        | refl => exact ⟨Nat.succ_pos n, hvisit⟩
        | step hmem hrest =>
            obtain ⟨below, hresult⟩ := hvisit.exists_ok
            obtain rfl := hnext v below hresult
            have heach := (clean_bind.mp (hbelow _ hresult)).1
            obtain ⟨hk, hw⟩ :=
              ih.mp (clean_each.mp heach _ hmem) _ _ hrest
            exact ⟨Nat.succ_lt_succ hk, hw⟩
      · intro hall
        refine ⟨(hall 0 v (.refl v)).2, fun below hresult => ?_⟩
        obtain rfl := hnext v below hresult
        refine clean_bind.mpr ⟨clean_each.mpr fun w hmem => ih.mpr
          fun k u hsteps => ?_, fun _ _ => clean_pure _⟩
        obtain ⟨hk, hu⟩ := hall (k + 1) u (.step hmem hsteps)
        exact ⟨Nat.lt_of_succ_lt_succ hk, hu⟩

/-- A traversal that ends has visited the nodes in preorder. -/
theorem traverse_eq_ok {n : Nat} {v : V} {found : List V}
    (hresult : (traverse visit deep n v).result = .ok found) :
    found = preorder next n v ∧
      (traverse visit deep n v).printed =
        (preorder next n v).flatMap fun w => (visit w).printed := by
  induction n generalizing v found with
  | zero => cases hresult
  | succ n ih =>
      rw [traverse] at hresult
      obtain ⟨below, hbelow, hresult⟩ := bind_eq_ok.mp hresult
      obtain ⟨lists, hlists, heq⟩ := bind_eq_ok.mp hresult
      cases heq
      obtain rfl := hnext v below hbelow
      obtain ⟨rfl, hprinted⟩ := each_eq_ok (fun w b => ih) hlists
      rw [traverse, bind_of_ok hbelow, bind_of_ok hlists, preorder, hprinted,
        List.flatMap_cons, List.flatMap_assoc]
      refine ⟨rfl, ?_⟩
      exact congrArg _ (List.append_nil _)

end

end Scripts
