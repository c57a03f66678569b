/-
Trees of named objects as maps from paths to objects, the lookup that walks
down a path, and the operations that set an object, erase what lies at and
below a path, and move it to another path.
-/
import Mathlib.Data.List.Infix
import Mathlib.Data.List.Induction
import Mathlib.Data.Set.Basic
import Mathlib.Logic.Function.Basic

namespace NameTree

variable {N A C : Type}

/-- An inner node or a leaf with its contents. -/
inductive Node (A C : Type) where
  | branch (attributes : A)
  | leaf (attributes : A) (content : C)

abbrev Tree (N A C : Type) := List N → Option (Node A C)

/-- The root is a branch, and so is whatever has something below it. -/
structure WellFormed (tree : Tree N A C) : Prop where
  root : ∃ attributes, tree [] = some (.branch attributes)
  parent : ∀ path name node, tree (path ++ [name]) = some node →
    ∃ attributes, tree path = some (.branch attributes)

/-- The names right below a path. -/
def children (tree : Tree N A C) (path : List N) : Set N :=
  {name | tree (path ++ [name]) ≠ none}

theorem WellFormed.above {tree : Tree N A C} (hwf : WellFormed tree)
    {path rest : List N} (hrest : rest ≠ []) {node : Node A C}
    (hnode : tree (path ++ rest) = some node) :
    ∃ attributes, tree path = some (.branch attributes) := by
  induction rest using List.reverseRecOn generalizing node with
  | nil => exact absurd rfl hrest
  | append_singleton front name ih =>
      rw [← List.append_assoc] at hnode
      obtain ⟨attributes, hparent⟩ := hwf.parent _ _ _ hnode
      by_cases hfront : front = []
      · subst hfront
        rw [List.append_nil] at hparent
        exact ⟨attributes, hparent⟩
      · exact ih hfront hparent

theorem WellFormed.below_none {tree : Tree N A C} (hwf : WellFormed tree)
    {path : List N} (hnone : tree path = none) (rest : List N) :
    tree (path ++ rest) = none := by
  refine Option.eq_none_iff_forall_ne_some.mpr fun node hnode => ?_
  by_cases hrest : rest = []
  · rw [hrest, List.append_nil, hnone] at hnode
    cases hnode
  · obtain ⟨attributes, habove⟩ := hwf.above hrest hnode
    rw [hnone] at habove
    cases habove

/-- Why a path leads nowhere. -/
inductive Fault where
  | missing
  | notBranch

/-- Follow the names from the path `front` on. -/
def findFrom (tree : Tree N A C) :
    List N → List N → Except Fault (Node A C)
  | front, [] =>
      match tree front with
      | none => .error .missing
      | some node => .ok node
  | front, name :: names =>
      match tree front with
      | none => .error .missing
      | some (.leaf _ _) => .error .notBranch
      | some (.branch _) => findFrom tree (front ++ [name]) names

def find (tree : Tree N A C) (path : List N) : Except Fault (Node A C) :=
  findFrom tree [] path

theorem findFrom_of_none {tree : Tree N A C} {front : List N}
    (hnone : tree front = none) (names : List N) :
    findFrom tree front names = .error .missing := by
  cases names <;> simp [findFrom, hnone]

theorem WellFormed.findFrom_eq_ok {tree : Tree N A C}
    (hwf : WellFormed tree) {front names : List N} {node : Node A C} :
    findFrom tree front names = .ok node ↔
      tree (front ++ names) = some node := by
  induction names generalizing front with
  | nil =>
      rw [findFrom, List.append_nil]
      cases tree front <;> simp
  | cons name names ih =>
      rw [findFrom]
      have hsplit : front ++ name :: names = front ++ [name] ++ names := by
        simp
      cases hfront : tree front with
      | none =>
          refine iff_of_false (by simp) fun hnode => ?_
          obtain ⟨attributes, hbranch⟩ := hwf.above (by simp) hnode
          rw [hfront] at hbranch
          cases hbranch
      | some here =>
          cases here with
          | leaf attributes content =>
              refine iff_of_false (by simp) fun hnode => ?_
              obtain ⟨attributes, hbranch⟩ := hwf.above (by simp) hnode
              rw [hfront] at hbranch
              cases hbranch
          | branch attributes =>
              rw [hsplit]
              exact ih

/-- A lookup succeeds with what the tree has at the path. -/
theorem WellFormed.find_eq_ok {tree : Tree N A C} (hwf : WellFormed tree)
    {path : List N} {node : Node A C} :
    find tree path = .ok node ↔ tree path = some node :=
  hwf.findFrom_eq_ok

variable [DecidableEq N]

def put (tree : Tree N A C) (path : List N) (node : Node A C) :
    Tree N A C :=
  Function.update tree path (some node)

/-- Nothing is left at and below `path`. -/
def erase (tree : Tree N A C) (path : List N) : Tree N A C := fun q =>
  if path <+: q then none else tree q

/-- What lay at and below `source` lies at and below `target`. -/
def move (tree : Tree N A C) (source target : List N) : Tree N A C :=
  fun q =>
    if target <+: q then tree (source ++ q.drop target.length)
    else if source <+: q then none
    else tree q

theorem erase_below {path q : List N} (hpre : path <+: q)
    (tree : Tree N A C) : erase tree path q = none := if_pos hpre

theorem erase_beside {path q : List N} (hpre : ¬ path <+: q)
    (tree : Tree N A C) : erase tree path q = tree q := if_neg hpre

@[simp] theorem move_target (tree : Tree N A C) (source target rest : List N) :
    move tree source target (target ++ rest) = tree (source ++ rest) := by
  rw [move, if_pos (List.prefix_append target rest), List.drop_left]

theorem move_source {source target q : List N} (htarget : ¬ target <+: q)
    (hsource : source <+: q) (tree : Tree N A C) :
    move tree source target q = none := by
  rw [move, if_neg htarget, if_pos hsource]

theorem move_other {source target q : List N} (htarget : ¬ target <+: q)
    (hsource : ¬ source <+: q) (tree : Tree N A C) :
    move tree source target q = tree q := by
  rw [move, if_neg htarget, if_neg hsource]

/-- Erasing what was put where nothing was gives the tree back. -/
theorem WellFormed.erase_put {tree : Tree N A C} (hwf : WellFormed tree)
    {path : List N} (hnone : tree path = none) (node : Node A C) :
    erase (put tree path node) path = tree := by
  funext q
  by_cases hpre : path <+: q
  · obtain ⟨rest, rfl⟩ := hpre
    rw [erase_below (List.prefix_append path rest),
      hwf.below_none hnone]
  · rw [erase_beside hpre, put, Function.update_of_ne]
    rintro rfl
    exact hpre List.prefix_rfl

/-- Moving back what was moved to where nothing was gives the tree back. -/
theorem WellFormed.move_move {tree : Tree N A C} (hwf : WellFormed tree)
    {source target : List N} (hnone : tree target = none) :
    move (move tree source target) target source = tree := by
  funext q
  by_cases hsource : source <+: q
  · obtain ⟨rest, rfl⟩ := hsource
    rw [move_target, move_target]
  · by_cases htarget : target <+: q
    · rw [move_source hsource htarget]
      obtain ⟨rest, rfl⟩ := htarget
      rw [hwf.below_none hnone]
    · rw [move_other hsource htarget, move_other htarget hsource]

/-! Edits. -/

/-- A change of a tree at one or two paths. -/
inductive Edit (N A C : Type) where
  | put (path : List N) (node : Node A C)
  | erase (path : List N)
  | move (source target : List N)

namespace Edit

def apply : Edit N A C → Tree N A C → Tree N A C
  | .put path node, tree => NameTree.put tree path node
  | .erase path, tree => NameTree.erase tree path
  | .move source target, tree => NameTree.move tree source target

omit [DecidableEq N] in
def sites : Edit N A C → List (List N)
  | .put path _ => [path]
  | .erase path => [path]
  | .move source target => [source, target]

/-- `q` lies at or below a path that is edited. -/
def Covers (edit : Edit N A C) (q : List N) : Prop :=
  ∃ path ∈ edit.sites, path <+: q

/-- No path edited by one lies at or below a path edited by the other. -/
def Apart (edit edit' : Edit N A C) : Prop :=
  ∀ path ∈ edit.sites, ∀ path' ∈ edit'.sites,
    ¬ path <+: path' ∧ ¬ path' <+: path

variable {edit edit' : Edit N A C} {tree tree' : Tree N A C}

theorem apply_outside {q : List N} (hout : ¬ edit.Covers q) :
    edit.apply tree q = tree q := by
  cases edit with
  | put path node =>
      refine Function.update_of_ne ?_ _ _
      rintro rfl
      exact hout ⟨q, List.mem_singleton_self q, List.prefix_rfl⟩
  | erase path =>
      exact if_neg fun hpre =>
        hout ⟨path, List.mem_singleton_self path, hpre⟩
  | move source target =>
      exact move_other
        (fun hpre => hout ⟨target, by simp [sites], hpre⟩)
        (fun hpre => hout ⟨source, by simp [sites], hpre⟩) tree

/-- What an edit makes of the paths it covers depends on these alone. -/
theorem apply_inside
    (hagree : ∀ q, edit.Covers q → tree' q = tree q) {q : List N}
    (hin : edit.Covers q) : edit.apply tree' q = edit.apply tree q := by
  cases edit with
  | put path node =>
      by_cases hq : q = path
      · subst hq
        rw [apply, apply, NameTree.put, NameTree.put, Function.update_self,
          Function.update_self]
      · exact (Function.update_of_ne hq _ _).trans
          ((hagree q hin).trans (Function.update_of_ne hq _ _).symm)
  | erase path =>
      obtain ⟨_, hmem, hpre⟩ := hin
      obtain rfl := List.mem_singleton.mp hmem
      exact (if_pos hpre).trans (if_pos hpre).symm
  | move source target =>
      by_cases htarget : target <+: q
      · obtain ⟨rest, rfl⟩ := htarget
        refine (move_target _ _ _ _).trans
          ((hagree _ ?_).trans (move_target _ _ _ _).symm)
        exact ⟨source, by simp [sites], List.prefix_append _ _⟩
      · have hsource : source <+: q := by
          obtain ⟨path, hmem, hpre⟩ := hin
          simp only [sites, List.mem_cons, List.not_mem_nil, or_false]
            at hmem
          rcases hmem with rfl | rfl
          · exact hpre
          · exact absurd hpre htarget
        exact (move_source htarget hsource _).trans
          (move_source htarget hsource _).symm

omit [DecidableEq N] in
theorem Apart.symm (hapart : edit.Apart edit') : edit'.Apart edit :=
  fun path hpath path' hpath' => (hapart path' hpath' path hpath).symm

omit [DecidableEq N] in
/-- What lies below two paths makes them comparable. -/
theorem Apart.not_covers (hapart : edit.Apart edit') {q : List N}
    (hcovers : edit.Covers q) : ¬ edit'.Covers q := by
  obtain ⟨path, hpath, hpre⟩ := hcovers
  rintro ⟨path', hpath', hpre'⟩
  obtain ⟨hleft, hright⟩ := hapart path hpath path' hpath'
  rcases List.prefix_or_prefix_of_prefix hpre hpre' with hle | hle
  · exact hleft hle
  · exact hright hle

/-- Edits at paths that are apart commute. -/
theorem apply_comm (hapart : edit.Apart edit') (tree : Tree N A C) :
    edit.apply (edit'.apply tree) = edit'.apply (edit.apply tree) := by
  have hone : ∀ {first second : Edit N A C}, first.Apart second →
      ∀ q, first.Covers q →
        first.apply (second.apply tree) q =
          second.apply (first.apply tree) q := by
    intro first second hapart q hcovers
    rw [apply_outside (hapart.not_covers hcovers)]
    exact apply_inside (fun q' hcovers' =>
      apply_outside (hapart.not_covers hcovers')) hcovers
  funext q
  by_cases hleft : edit.Covers q
  · exact hone hapart q hleft
  by_cases hright : edit'.Covers q
  · exact (hone hapart.symm q hright).symm
  rw [apply_outside hleft, apply_outside hright, apply_outside hright,
    apply_outside hleft]

end Edit

end NameTree
