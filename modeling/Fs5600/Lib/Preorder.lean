/-
The nodes of a graph in the order in which a depth-first walk meets them, with
no record of the nodes met before.  In the graph of the paths of a tree no
node is met twice.
-/
import Mathlib.Data.List.Basic
import Mathlib.Data.List.Infix
import Mathlib.Data.List.Nodup

namespace Preorder

variable {V U S : Type}

/-- `w` is reached from `v` in `k` steps. -/
inductive Steps (next : V → List V) : Nat → V → V → Prop
  | refl (v : V) : Steps next 0 v v
  | step {k : Nat} {v w u : V} (hmem : w ∈ next v)
      (hrest : Steps next k w u) : Steps next (k + 1) v u

/-- The nodes within `n` levels, each before what is below it. -/
def preorder (next : V → List V) : Nat → V → List V
  | 0, _ => []
  | n + 1, v => v :: (next v).flatMap (preorder next n)

variable {next : V → List V}

theorem mem_preorder {n : Nat} {v w : V} :
    w ∈ preorder next n v ↔ ∃ k, k < n ∧ Steps next k v w := by
  induction n generalizing v with
  | zero => exact iff_of_false (fun h => by cases h) fun ⟨_, h, _⟩ => by omega
  | succ n ih =>
      simp only [preorder, List.mem_cons, List.mem_flatMap, ih]
      constructor
      · rintro (rfl | ⟨u, hmem, k, hk, hsteps⟩)
        · exact ⟨0, Nat.succ_pos n, .refl w⟩
        · exact ⟨k + 1, Nat.succ_lt_succ hk, .step hmem hsteps⟩
      · rintro ⟨k, hk, hsteps⟩
        cases hsteps with
        | refl => exact Or.inl rfl
        | step hmem hrest =>
            exact Or.inr ⟨_, hmem, _, Nat.lt_of_succ_lt_succ hk, hrest⟩

/-- The last step of several. -/
theorem Steps.snoc {k : Nat} {v w u : V} (hsteps : Steps next k v w)
    (hmem : u ∈ next w) : Steps next (k + 1) v u := by
  induction hsteps with
  | refl v => exact .step hmem (.refl u)
  | step hfirst _ ih => exact .step hfirst (ih hmem)

/-- What every step keeps. -/
theorem Steps.keeps {Good : V → Prop}
    (hgood : ∀ v, Good v → ∀ w ∈ next v, Good w) {k : Nat} {v w : V}
    (hsteps : Steps next k v w) (hstart : Good v) : Good w := by
  induction hsteps with
  | refl => exact hstart
  | step hmem _ ih => exact ih (hgood _ hstart _ hmem)

/-! Graphs that a function maps onto others. -/

section

variable {next' : U → List U} {f : U → V} {Good : U → Prop}
  (hgood : ∀ u, Good u → ∀ u' ∈ next' u, Good u')
  (hmap : ∀ u, Good u → next (f u) = (next' u).map f)

include hgood hmap

theorem preorder_map {n : Nat} {u : U} (hu : Good u) :
    preorder next n (f u) = (preorder next' n u).map f := by
  induction n generalizing u with
  | zero => rfl
  | succ n ih =>
      rw [preorder, preorder, List.map_cons, hmap u hu, List.flatMap_map,
        List.map_flatMap]
      congr 1
      exact List.flatMap_congr fun u' hmem => ih (hgood u hu u' hmem)

theorem Steps.of_map {k : Nat} {u : U} (hu : Good u) {v : V}
    (hsteps : Steps next k (f u) v) :
    ∃ u', Steps next' k u u' ∧ Good u' ∧ v = f u' := by
  generalize hfrom : f u = start at hsteps
  induction hsteps generalizing u with
  | refl => exact ⟨u, .refl u, hu, hfrom.symm⟩
  | step hmem hrest ih =>
      subst hfrom
      rw [hmap u hu, List.mem_map] at hmem
      obtain ⟨u₁, hmem, hu₁⟩ := hmem
      obtain ⟨u', hsteps, hgood', rfl⟩ := ih (hgood u hu u₁ hmem) hu₁
      exact ⟨u', .step hmem hsteps, hgood', rfl⟩

end

/-! Graphs that agree on what can be reached. -/

section

variable {next' : V → List V} {Good : V → Prop}
  (hgood : ∀ v, Good v → ∀ w ∈ next' v, Good w)
  (hsame : ∀ v, Good v → next v = next' v)

include hgood hsame

theorem preorder_congr {n : Nat} {v : V} (hv : Good v) :
    preorder next n v = preorder next' n v := by
  have hmap := preorder_map (f := id) hgood
    (fun v hv => (hsame v hv).trans (List.map_id _).symm) (n := n) hv
  rwa [List.map_id] at hmap

theorem Steps.congr {k : Nat} {v w : V} (hv : Good v) :
    Steps next k v w ↔ Steps next' k v w := by
  constructor
  · intro hsteps
    obtain ⟨w', hsteps', -, rfl⟩ := hsteps.of_map (f := id) hgood
      (fun v hv => (hsame v hv).trans (List.map_id _).symm) hv
    exact hsteps'
  · intro hsteps
    induction hsteps with
    | refl v => exact .refl v
    | step hmem _ ih =>
        exact .step (hsame _ hv ▸ hmem) (ih (hgood _ hv _ hmem))

end

/-! Paths that grow at the end. -/

section

variable {slots : List S → List S}

/-- The paths one step longer. -/
def longer (slots : List S → List S) (path : List S) : List (List S) :=
  (slots path).map fun slot => path ++ [slot]

theorem Steps.of_longer {k : Nat} {path there : List S}
    (hsteps : Steps (longer slots) k path there) :
    path <+: there ∧ there.length = path.length + k := by
  induction hsteps with
  | refl path => exact ⟨List.prefix_rfl, rfl⟩
  | step hmem hrest ih =>
      obtain ⟨slot, -, rfl⟩ := List.mem_map.mp hmem
      refine ⟨(List.prefix_append _ _).trans ih.1, ?_⟩
      rw [ih.2, List.length_append, List.length_singleton]
      omega

/-- No path is met twice. -/
theorem nodup_preorder_longer (hslots : ∀ path, (slots path).Nodup)
    (n : Nat) (path : List S) : (preorder (longer slots) n path).Nodup := by
  induction n generalizing path with
  | zero => exact List.nodup_nil
  | succ n ih =>
      rw [preorder, List.nodup_cons]
      constructor
      · intro hmem
        obtain ⟨there, hthere, hmem⟩ := List.mem_flatMap.mp hmem
        obtain ⟨slot, -, rfl⟩ := List.mem_map.mp hthere
        obtain ⟨k, -, hsteps⟩ := mem_preorder.mp hmem
        have hlength := hsteps.of_longer.2
        rw [List.length_append, List.length_singleton] at hlength
        omega
      · rw [longer, List.flatMap_map, List.nodup_flatMap]
        refine ⟨fun slot _ => ih (path ++ [slot]), ?_⟩
        refine (hslots path).imp fun {slot slot'} hne there hmem hmem' => ?_
        obtain ⟨k, -, hsteps⟩ := mem_preorder.mp hmem
        obtain ⟨k', -, hsteps'⟩ := mem_preorder.mp hmem'
        obtain ⟨hpre, -⟩ := hsteps.of_longer
        obtain ⟨hpre', -⟩ := hsteps'.of_longer
        have heq := List.prefix_of_prefix_length_le hpre hpre' (by simp)
        have hsame := heq.eq_of_length (by simp)
        exact hne (by simpa using hsame)

end

end Preorder
