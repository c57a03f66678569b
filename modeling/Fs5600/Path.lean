/-
C strings, path splitting and the fixed-size name field of a directory entry.
-/
import Fs5600.Format
import Mathlib.Data.List.TakeWhile
import Mathlib.Data.List.OfFn

namespace Fs5600

/-- The bytes of a string before its terminating zero. -/
abbrev Name := List UInt8

/-- A `const char *` argument. -/
structure CString where
  bytes : Name
  nul_free : 0 ∉ bytes

def slash : UInt8 := 47

def maxPathLen : Nat := 10
def maxNameLen : Nat := 27

/-- `strtok(s, "/")`: the first token and what a call with `NULL` goes on
with. -/
def strtok (s : List UInt8) : Option (Name × List UInt8) :=
  match s.dropWhile (· == slash) with
  | [] => none
  | c :: rest =>
      some ((c :: rest).takeWhile (· != slash),
        ((c :: rest).dropWhile (· != slash)).drop 1)

/-- The loop of `parse`.  Cutting a token to 27 bytes in place leaves the
position saved by `strtok`, which is behind the token, alone. -/
def parseLoop : Nat → List UInt8 → List Name
  | 0, _ => []
  | n + 1, s =>
      match strtok s with
      | none => []
      | some (token, rest) => token.take maxNameLen :: parseLoop n rest

/-- `parse(path, argv)`: the first `pathc` entries of `argv`. -/
def parse (path : CString) : List Name := parseLoop maxPathLen path.bytes

/-- Every component of a path, each cut to 27 bytes, however many there
are. -/
def components (path : CString) : List Name :=
  ((path.bytes.splitOn slash).filter (· ≠ [])).map (·.take maxNameLen)

/-- What a directory may hold as a name. -/
structure ValidName (name : Name) : Prop where
  ne_nil : name ≠ []
  length_le : name.length ≤ 27
  nul_free : 0 ∉ name
  slash_free : slash ∉ name

theorem splitOn_cons (c : UInt8) (s : List UInt8) :
    (c :: s).splitOn slash =
      if c = slash then [] :: s.splitOn slash
      else (s.splitOn slash).modifyHead (List.cons c) := by
  rw [List.splitOn_eq_splitOnP, List.splitOnP_cons_eq_if_modifyHead,
    List.splitOn_eq_splitOnP]
  simp

theorem splitOn_drop_slashes (s : List UInt8) :
    (s.splitOn slash).filter (· ≠ []) =
      ((s.dropWhile (· == slash)).splitOn slash).filter (· ≠ []) := by
  induction s with
  | nil => rfl
  | cons c s ih =>
      by_cases hc : c = slash
      · rw [List.dropWhile_cons_of_pos (by simp [hc]), ← ih, splitOn_cons,
          if_pos hc]
        rfl
      · rw [List.dropWhile_cons_of_neg (by simp [hc])]

/-- One `strtok` peels off the first nonempty component. -/
theorem splitOn_strtok (s : List UInt8) :
    (s.splitOn slash).filter (· ≠ []) =
      match strtok s with
      | none => []
      | some (token, rest) =>
          token :: (rest.splitOn slash).filter (· ≠ []) := by
  rw [splitOn_drop_slashes, strtok]
  cases hdrop : s.dropWhile (· == slash) with
  | nil => rfl
  | cons c tail =>
      have hc : c ≠ slash := by
        have hhead := List.head_dropWhile_not (l := s) (· == slash)
          (by simp [hdrop])
        simpa [hdrop] using hhead
      have hclean : ∀ b ∈ (c :: tail).takeWhile (· != slash),
          (b == slash) = false := by
        intro b hb
        simpa using List.mem_takeWhile_imp hb
      have hne : (c :: tail).takeWhile (· != slash) ≠ [] := by
        simp [hc]
      have hsplit := List.takeWhile_append_dropWhile
        (p := (· != slash)) (l := c :: tail)
      simp only
      cases hrest : (c :: tail).dropWhile (· != slash) with
      | nil =>
          rw [hrest, List.append_nil] at hsplit
          rw [hsplit] at hclean
          rw [hsplit, List.splitOn_eq_splitOnP,
            List.splitOnP_eq_singleton hclean]
          rfl
      | cons b rest =>
          have hb : b = slash := by
            have hhead := List.head_dropWhile_not (l := c :: tail)
              (· != slash) (by simp [hrest])
            simpa [hrest] using hhead
          have hfirst := List.splitOnP_append_cons_of_forall_mem hclean b
            (by simp [hb]) rest
          rw [hrest] at hsplit
          rw [hsplit] at hfirst
          rw [List.splitOn_eq_splitOnP, hfirst,
            List.filter_cons_of_pos (by simpa using hne)]
          rfl

theorem parseLoop_eq_take (n : Nat) (s : List UInt8) :
    parseLoop n s =
      (((s.splitOn slash).filter (· ≠ [])).map (·.take maxNameLen)).take n := by
  induction n generalizing s with
  | zero => rfl
  | succ n ih =>
      rw [parseLoop, splitOn_strtok]
      cases strtok s with
      | none => rfl
      | some token => simp [ih]

/-- `parse` is the component list cut to `MAX_PATH_LEN` entries. -/
theorem parse_eq_take (path : CString) :
    parse path = (components path).take 10 :=
  parseLoop_eq_take maxPathLen path.bytes

theorem parse_eq_components {path : CString}
    (hlen : (components path).length ≤ 10) :
    parse path = components path := by
  rw [parse_eq_take, List.take_of_length_le hlen]

theorem parse_ne_nil {path : CString} (hne : components path ≠ []) :
    parse path ≠ [] := by
  rw [parse_eq_take]
  simpa using hne

theorem mem_splitOn {s token : List UInt8}
    (hmem : token ∈ s.splitOn slash) :
    slash ∉ token ∧ ∀ b ∈ token, b ∈ s := by
  induction s generalizing token with
  | nil =>
      have hnil : token = [] := by simpa using hmem
      simp [hnil]
  | cons c s ih =>
      rw [splitOn_cons] at hmem
      by_cases hc : c = slash
      · rw [if_pos hc, List.mem_cons] at hmem
        rcases hmem with rfl | hmem
        · simp
        · obtain ⟨hslash, hsub⟩ := ih hmem
          exact ⟨hslash, fun b hb => List.mem_cons_of_mem c (hsub b hb)⟩
      · rw [if_neg hc] at hmem
        cases hhead : s.splitOn slash with
        | nil => simp [hhead] at hmem
        | cons first others =>
            rw [hhead, List.modifyHead_cons, List.mem_cons] at hmem
            rcases hmem with rfl | hmem
            · obtain ⟨hslash, hsub⟩ := ih (hhead ▸ List.mem_cons_self)
              refine ⟨?_, ?_⟩
              · simpa [Ne.symm hc] using hslash
              · intro b hb
                rcases List.mem_cons.mp hb with rfl | hb
                · exact List.mem_cons_self
                · exact List.mem_cons_of_mem c (hsub b hb)
            · obtain ⟨hslash, hsub⟩ :=
                ih (hhead ▸ List.mem_cons_of_mem first hmem)
              exact ⟨hslash, fun b hb => List.mem_cons_of_mem c (hsub b hb)⟩

theorem validName_of_mem_components {path : CString} {name : Name}
    (hmem : name ∈ components path) : ValidName name := by
  simp only [components, List.mem_map, List.mem_filter,
    decide_eq_true_eq] at hmem
  obtain ⟨token, ⟨htoken, hne⟩, rfl⟩ := hmem
  obtain ⟨hslash, hsub⟩ := mem_splitOn htoken
  refine ⟨?_, List.length_take_le _ _, ?_, ?_⟩
  · simpa [maxNameLen] using hne
  · exact fun hzero => path.nul_free (hsub 0 (List.mem_of_mem_take hzero))
  · exact fun hmem => hslash (List.mem_of_mem_take hmem)

theorem validName_of_mem_parse {path : CString} {name : Name}
    (hmem : name ∈ parse path) : ValidName name := by
  rw [parse_eq_take] at hmem
  exact validName_of_mem_components (List.mem_of_mem_take hmem)

/-- The string in a name field.  `strcmp` with a string of at most 27 bytes
stops inside the field, so reading it up to the field's end loses nothing. -/
def FsDirent.nameString (entry : FsDirent) : Name :=
  (List.ofFn entry.name).takeWhile (· != 0)

/-- `strncpy(field, name, MAX_NAME_LEN)`: byte 27 keeps its value. -/
def strncpy (field : Fin 28 → UInt8) (name : Name) : Fin 28 → UInt8 :=
  fun j => if j.val < maxNameLen then name.getD j.val 0 else field j

theorem takeWhile_getD_ofFn (n : Nat) (name : Name) (hnul : 0 ∉ name)
    (hlen : name.length < n) :
    (List.ofFn fun j : Fin n => name.getD j.val 0).takeWhile (· != 0) =
      name := by
  induction name generalizing n with
  | nil =>
      obtain ⟨m, rfl⟩ := Nat.exists_eq_succ_of_ne_zero (by simpa using hlen.ne')
      simp [List.ofFn_succ]
  | cons c name ih =>
      obtain ⟨m, rfl⟩ := Nat.exists_eq_succ_of_ne_zero
        (n := n) (by rintro rfl; simp at hlen)
      have hc : (c != 0) = true := by
        simp only [List.mem_cons, not_or] at hnul
        simpa using Ne.symm hnul.1
      rw [List.ofFn_succ, List.takeWhile_cons_of_pos (by simpa using hc)]
      have htail := ih m (fun hmem => hnul (List.mem_cons_of_mem c hmem))
        (by simpa using hlen)
      simpa using htail

/-- What is copied into a field that ends in a zero byte is read back. -/
theorem nameString_strncpy (entry : FsDirent) (field : Fin 28 → UInt8)
    (name : Name) (hname : ValidName name) (hlast : field 27 = 0)
    (hentry : entry.name = strncpy field name) :
    entry.nameString = name := by
  have hpad : strncpy field name = fun j : Fin 28 => name.getD j.val 0 := by
    funext j
    rw [strncpy, maxNameLen]
    split
    · rfl
    · have hj : j = 27 := by apply Fin.ext; omega
      have hlen := hname.length_le
      subst hj
      rw [hlast]
      exact (List.getD_eq_default name 0 hlen).symm
  rw [FsDirent.nameString, hentry, hpad]
  exact takeWhile_getD_ofFn 28 name hname.nul_free
    (Nat.lt_succ_of_le hname.length_le)

@[simp] theorem strncpy_last (field : Fin 28 → UInt8) (name : Name) :
    strncpy field name 27 = field 27 := rfl

end Fs5600
