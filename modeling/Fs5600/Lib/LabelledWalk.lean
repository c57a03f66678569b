/-
Walks in a rooted graph whose edges leave a node by a slot and carry a label,
and resources that the nodes along such walks hold.  Nothing is assumed of
the graph.
-/
import Mathlib.Data.List.Infix
import Mathlib.Data.List.Induction

namespace LabelledWalk

variable {N S L : Type}

/-- Follow the slots of `path` from `node`; the labels met on the way and the
node at the end. -/
def walk (edge : N → S → Option (L × N)) : N → List S → Option (List L × N)
  | node, [] => some ([], node)
  | node, slot :: path =>
      (edge node slot).bind fun hop =>
        (walk edge hop.2 path).map fun tail => (hop.1 :: tail.1, tail.2)

section

variable (edge : N → S → Option (L × N))

@[simp] theorem walk_nil (node : N) : walk edge node [] = some ([], node) := rfl

theorem walk_cons (node : N) (slot : S) (path : List S) :
    walk edge node (slot :: path) =
      (edge node slot).bind fun hop =>
        (walk edge hop.2 path).map fun tail => (hop.1 :: tail.1, tail.2) := rfl

theorem walk_append (node : N) (front back : List S) :
    walk edge node (front ++ back) =
      (walk edge node front).bind fun here =>
        (walk edge here.2 back).map fun tail =>
          (here.1 ++ tail.1, tail.2) := by
  induction front generalizing node with
  | nil => simp
  | cons slot front ih =>
      simp only [List.cons_append, walk_cons]
      cases edge node slot with
      | none => rfl
      | some hop =>
          simp only [Option.bind_some, ih]
          cases walk edge hop.2 front with
          | none => rfl
          | some here =>
              cases hback : walk edge here.2 back <;> simp [hback]

theorem walk_snoc (node : N) (path : List S) (slot : S) :
    walk edge node (path ++ [slot]) =
      (walk edge node path).bind fun here =>
        (edge here.2 slot).map fun hop => (here.1 ++ [hop.1], hop.2) := by
  rw [walk_append]
  cases walk edge node path with
  | none => rfl
  | some here => cases hslot : edge here.2 slot <;> simp [walk_cons, hslot]

theorem walk_snoc_eq_some {node : N} {path : List S} {slot : S}
    {there : List L × N}
    (hwalk : walk edge node (path ++ [slot]) = some there) :
    ∃ here hop, walk edge node path = some here ∧
      edge here.2 slot = some hop ∧ there = (here.1 ++ [hop.1], hop.2) := by
  rw [walk_snoc, Option.bind_eq_some_iff] at hwalk
  obtain ⟨here, hhere, hhop⟩ := hwalk
  obtain ⟨hop, hedge, rfl⟩ := Option.map_eq_some_iff.mp hhop
  exact ⟨here, hop, hhere, hedge, rfl⟩

theorem walk_append_eq_some {node : N} {front back : List S}
    {there : List L × N}
    (hwalk : walk edge node (front ++ back) = some there) :
    ∃ here tail, walk edge node front = some here ∧
      walk edge here.2 back = some tail ∧
      there = (here.1 ++ tail.1, tail.2) := by
  rw [walk_append, Option.bind_eq_some_iff] at hwalk
  obtain ⟨here, hhere, hback⟩ := hwalk
  obtain ⟨tail, htail, rfl⟩ := Option.map_eq_some_iff.mp hback
  exact ⟨here, tail, hhere, htail, rfl⟩

/-- A walk that succeeds has walked every prefix of its path, and the labels
of the prefix are a prefix of its labels. -/
theorem walk_front {node : N} {front path : List S} {there : List L × N}
    (hpre : front <+: path) (hwalk : walk edge node path = some there) :
    ∃ here, walk edge node front = some here ∧ here.1 <+: there.1 := by
  obtain ⟨back, rfl⟩ := hpre
  obtain ⟨here, tail, hhere, _, rfl⟩ := walk_append_eq_some edge hwalk
  exact ⟨here, hhere, List.prefix_append _ _⟩

variable {edge} {edge' : N → S → Option (L × N)}

/-- Two graphs have the same walks along every kept path when they agree on
the edges that the kept paths take.  The induction is on the end of the path,
since only the nodes that the first graph reaches are known to agree. -/
theorem walk_congr_on (Kept : List S → Prop) (root : N)
    (hclosed : ∀ path slot, Kept (path ++ [slot]) → Kept path)
    (hagree : ∀ path slot here, Kept (path ++ [slot]) →
      walk edge root path = some here →
      edge' here.2 slot = edge here.2 slot)
    (path : List S) (hkept : Kept path) :
    walk edge' root path = walk edge root path := by
  induction path using List.reverseRecOn with
  | nil => rfl
  | append_singleton path slot ih =>
      rw [walk_snoc, walk_snoc, ih (hclosed path slot hkept)]
      cases hhere : walk edge root path with
      | none => rfl
      | some here =>
          simp only [Option.bind_some, hagree path slot here hkept hhere]

theorem walk_congr (root : N)
    (hagree : ∀ path slot here, walk edge root path = some here →
      edge' here.2 slot = edge here.2 slot) (path : List S) :
    walk edge' root path = walk edge root path :=
  walk_congr_on (fun _ => True) root (fun _ _ _ => trivial)
    (fun path slot here _ => hagree path slot here) path trivial

/-- Changing the edge at the end of `site` changes no walk except those that
go through `site`. -/
theorem walk_congr_off (root : N) (site : List S)
    (hagree : ∀ path slot here, ¬ site <+: path ++ [slot] →
      walk edge root path = some here →
      edge' here.2 slot = edge here.2 slot)
    (path : List S) (hoff : ¬ site <+: path) :
    walk edge' root path = walk edge root path := by
  refine walk_congr_on (fun path => ¬ site <+: path) root ?_ hagree path hoff
  intro path slot hnot hpre
  exact hnot (hpre.trans (List.prefix_append _ _))

end

/-- What the node at the end of a path holds in a role. -/
def holder {R B : Type} (edge : N → S → Option (L × N))
    (owned : N → R → Option B) (root : N) (key : List S × R) : Option B :=
  (walk edge root key.1).bind fun here => owned here.2 key.2

theorem holder_eq_some {R B : Type} {edge : N → S → Option (L × N)}
    {owned : N → R → Option B} {root : N} {path : List S} {role : R}
    {block : B} :
    holder edge owned root (path, role) = some block ↔
      ∃ here, walk edge root path = some here ∧
        owned here.2 role = some block := by
  simp only [holder, Option.bind_eq_some_iff]

end LabelledWalk
