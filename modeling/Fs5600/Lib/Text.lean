/-
Text as bytes: lines, words between white space, and numbers in positional
notation, read and written.
-/
import Mathlib.Data.List.Basic

namespace Text

/-- White space of the C locale. -/
def isSpace (c : UInt8) : Bool :=
  c.toNat == 32 || (9 ≤ c.toNat && c.toNat ≤ 13)

/-- Pieces without white space. -/
def words (s : List UInt8) : List (List UInt8) :=
  (s.splitOnP isSpace).filter fun word => word ≠ []

/-- The lines, each with the newline that ends it. -/
def lines : List UInt8 → List (List UInt8)
  | [] => []
  | c :: s =>
      if c = 10 then [c] :: lines s
      else match lines s with
        | [] => [[c]]
        | line :: rest => (c :: line) :: rest

/-- The value of a digit in a base of 36 at most. -/
def digitValue (base : Nat) (c : UInt8) : Option Nat :=
  let code := c.toNat
  let value :=
    if 48 ≤ code ∧ code ≤ 57 then code - 48
    else if 97 ≤ code ∧ code ≤ 122 then code - 87
    else if 65 ≤ code ∧ code ≤ 90 then code - 55
    else 36
  if value < base then some value else none

/-- The value of a string of digits, the first one the highest. -/
def digitsValue (base : Nat) (s : List UInt8) : Option Nat :=
  s.foldl (fun value c => do
    let value ← value
    let digit ← digitValue base c
    some (base * value + digit)) (some 0)

/-- One digit at least. -/
def readDigits (base : Nat) (s : List UInt8) : Option Nat :=
  if s = [] then none else digitsValue base s

def readSigned (read : List UInt8 → Option Nat) : List UInt8 → Option Int
  | 43 :: s => (read s).map Int.ofNat
  | 45 :: s => (read s).map fun n => -Int.ofNat n
  | s => (read s).map Int.ofNat

def decimalDigit (n : Nat) : UInt8 := .ofNat (48 + n % 10)

/-- A number in decimal notation. -/
def decimal (n : Nat) : List UInt8 :=
  if n < 10 then [decimalDigit n] else decimal (n / 10) ++ [decimalDigit n]

def signedDecimal : Int → List UInt8
  | .ofNat n => decimal n
  | .negSucc n => 45 :: decimal (n + 1)

/-- A nonempty string without white space. -/
def Word (s : List UInt8) : Prop := s ≠ [] ∧ ∀ c ∈ s, isSpace c = false

def isWord (s : List UInt8) : Bool :=
  !s.isEmpty && s.all fun c => !isSpace c

instance decidableWord (s : List UInt8) : Decidable (Word s) :=
  decidable_of_iff (isWord s = true) (by simp [isWord, Word])

/-- Words with one blank between them, and a newline. -/
def unwords (ws : List (List UInt8)) : List UInt8 :=
  [32].intercalate ws ++ [10]

/-! Splitting. -/

theorem forall_mem_splitOnP {A : Type} {p : A → Bool} {s piece : List A}
    (hpiece : piece ∈ s.splitOnP p) : ∀ c ∈ piece, p c = false := by
  induction s generalizing piece with
  | nil =>
      rw [List.splitOnP_nil, List.mem_singleton] at hpiece
      subst hpiece
      exact fun c hc => by cases hc
  | cons c s ih =>
      rw [List.splitOnP_cons_eq_if_modifyHead] at hpiece
      split at hpiece
      next =>
        rcases List.mem_cons.mp hpiece with rfl | hrest
        · exact fun c hc => by cases hc
        · exact ih hrest
      next hc =>
        obtain ⟨first, rest, hsplit⟩ :=
          List.exists_cons_of_ne_nil (List.splitOnP_ne_nil p s)
        rw [hsplit] at ih hpiece
        rcases List.mem_cons.mp hpiece with rfl | hrest
        · refine List.forall_mem_cons.mpr ⟨?_, ih List.mem_cons_self⟩
          exact Bool.eq_false_iff.mpr hc
        · exact ih (List.mem_cons_of_mem first hrest)

theorem not_mem_of_mem_splitOn {c : UInt8} {s piece : List UInt8}
    (hpiece : piece ∈ s.splitOn c) : c ∉ piece := fun hmem => by
  have hne := forall_mem_splitOnP hpiece c hmem
  simp at hne

theorem mem_words {s word : List UInt8} (hword : word ∈ words s) :
    Word word := by
  obtain ⟨hmem, hne⟩ := List.mem_filter.mp hword
  exact ⟨of_decide_eq_true hne, forall_mem_splitOnP hmem⟩

theorem words_append_cons (s rest : List UInt8) {c : UInt8}
    (hc : isSpace c = true) :
    words (s ++ c :: rest) = words s ++ words rest := by
  rw [words, List.splitOnP_append_cons s rest hc, List.filter_append, words,
    words]

theorem Word.words_eq {s : List UInt8} (hword : Word s) : words s = [s] := by
  rw [words, List.splitOnP_eq_singleton hword.2, List.filter_singleton,
    decide_eq_true hword.1, cond_true]

/-- Words are read as they were written. -/
theorem words_unwords {ws : List (List UInt8)} (hwords : ∀ w ∈ ws, Word w) :
    words (unwords ws) = ws := by
  have hend : ∀ s : List UInt8, words (s ++ [10]) = words s := fun s => by
    rw [words_append_cons s [] (by decide)]
    exact List.append_nil _
  rw [unwords, hend]
  induction ws with
  | nil => rfl
  | cons w ws ih =>
      rw [List.forall_mem_cons] at hwords
      cases ws with
      | nil =>
          rw [List.intercalate_singleton]
          exact hwords.1.words_eq
      | cons w' ws =>
          rw [List.intercalate_cons_cons, List.append_assoc,
            List.singleton_append, words_append_cons _ _ (by decide),
            ih hwords.2, hwords.1.words_eq]
          rfl

theorem head?_unwords {w : List UInt8} (hword : Word w)
    (ws : List (List UInt8)) : (unwords (w :: ws)).head? = w.head? := by
  have hne := hword.1
  cases w with
  | nil => exact absurd rfl hne
  | cons c w => cases ws <;> rfl

theorem mem_intercalate {A : Type} {sep : List A} {pieces : List (List A)}
    {c : A} (hmem : c ∈ sep.intercalate pieces) :
    (∃ piece ∈ pieces, c ∈ piece) ∨ c ∈ sep := by
  induction pieces with
  | nil => cases hmem
  | cons piece pieces ih =>
      cases pieces with
      | nil =>
          rw [List.intercalate_singleton] at hmem
          exact Or.inl ⟨piece, List.mem_cons_self, hmem⟩
      | cons piece' pieces =>
          rw [List.intercalate_cons_cons, List.mem_append, List.mem_append]
            at hmem
          rcases hmem with (hmem | hmem) | hmem
          · exact Or.inl ⟨piece, List.mem_cons_self, hmem⟩
          · exact Or.inr hmem
          · rcases ih hmem with ⟨there, hthere, hc⟩ | hc
            · exact Or.inl ⟨there, List.mem_cons_of_mem piece hthere, hc⟩
            · exact Or.inr hc

/-! Lines. -/

theorem lines_append_newline {s : List UInt8} (hs : 10 ∉ s)
    (rest : List UInt8) :
    lines (s ++ 10 :: rest) = (s ++ [10]) :: lines rest := by
  induction s with
  | nil => rfl
  | cons c s ih =>
      rw [List.mem_cons, not_or] at hs
      rw [List.cons_append, lines, if_neg (Ne.symm hs.1), ih hs.2]
      rfl

theorem Word.newline_notMem {s : List UInt8} (hword : Word s) : 10 ∉ s :=
  fun hmem => absurd (hword.2 10 hmem) (by decide)

theorem lines_unwords {wss : List (List (List UInt8))}
    (hwords : ∀ ws ∈ wss, ∀ w ∈ ws, Word w) :
    lines (wss.flatMap unwords) = wss.map unwords := by
  induction wss with
  | nil => rfl
  | cons ws wss ih =>
      rw [List.forall_mem_cons] at hwords
      have hline : 10 ∉ ([32] : List UInt8).intercalate ws := fun hmem => by
        rcases mem_intercalate hmem with ⟨w, hw, hmem⟩ | hmem
        · exact (hwords.1 w hw).newline_notMem hmem
        · exact absurd hmem (by decide)
      rw [List.flatMap_cons, unwords, List.append_assoc,
        List.singleton_append, lines_append_newline hline, ih hwords.2]
      rfl

/-! Numbers. -/

theorem digitsValue_append (base : Nat) (s : List UInt8) (c : UInt8) :
    digitsValue base (s ++ [c]) = (digitsValue base s).bind fun value =>
      (digitValue base c).map fun digit => base * value + digit := by
  rw [digitsValue, List.foldl_append, ← digitsValue]
  cases digitsValue base s with
  | none => rfl
  | some value => cases hc : digitValue base c <;> simp [hc]

theorem digitValue_decimalDigit (n : Nat) :
    digitValue 10 (decimalDigit n) = some (n % 10) := by
  have hall : ∀ d < 10, digitValue 10 (.ofNat (48 + d)) = some d := by decide
  exact hall (n % 10) (Nat.mod_lt _ (by decide))

theorem decimal_ne_nil (n : Nat) : decimal n ≠ [] := by
  rw [decimal]
  split
  · exact List.cons_ne_nil _ _
  · exact List.append_ne_nil_of_right_ne_nil _ (List.cons_ne_nil _ _)

theorem digitsValue_decimal (n : Nat) :
    digitsValue 10 (decimal n) = some n := by
  induction n using decimal.induct with
  | case1 n hn =>
      have hnil : digitsValue 10 [] = some 0 := rfl
      have hdigit := digitsValue_append 10 [] (decimalDigit n)
      rw [hnil, digitValue_decimalDigit, Nat.mod_eq_of_lt hn] at hdigit
      rw [decimal, if_pos hn]
      simpa using hdigit
  | case2 n hn ih =>
      rw [decimal, if_neg hn, digitsValue_append, ih,
        digitValue_decimalDigit, Option.bind_some, Option.map_some,
        Nat.div_add_mod]

theorem readDigits_decimal (n : Nat) :
    readDigits 10 (decimal n) = some n := by
  rw [readDigits, if_neg (decimal_ne_nil n), digitsValue_decimal]

/-- A property of the ten digits holds of every byte of a decimal number. -/
theorem forall_mem_decimal {P : UInt8 → Prop}
    (hdigits : ∀ d < 10, P (.ofNat (48 + d))) (n : Nat) :
    ∀ c ∈ decimal n, P c := by
  have hdigit : ∀ n, P (decimalDigit n) := fun n =>
    hdigits (n % 10) (Nat.mod_lt _ (by decide))
  induction n using decimal.induct with
  | case1 n hn =>
      rw [decimal, if_pos hn]
      exact List.forall_mem_singleton.mpr (hdigit n)
  | case2 n hn ih =>
      rw [decimal, if_neg hn]
      exact List.forall_mem_append.mpr
        ⟨ih, List.forall_mem_singleton.mpr (hdigit n)⟩

/-- A decimal number has no sign. -/
theorem readSigned_decimal (read : List UInt8 → Option Nat) (n : Nat) :
    readSigned read (decimal n) = (read (decimal n)).map Int.ofNat := by
  have hsigns := forall_mem_decimal (P := fun c => c ≠ 43 ∧ c ≠ 45)
    (by decide) n
  obtain ⟨c, s, hcons⟩ := List.exists_cons_of_ne_nil (decimal_ne_nil n)
  rw [hcons] at hsigns ⊢
  obtain ⟨hplus, hminus⟩ := hsigns c List.mem_cons_self
  rw [readSigned.eq_3]
  · rintro s heq
    cases heq
    exact hplus rfl
  · rintro s heq
    cases heq
    exact hminus rfl

/-- A number but zero has no zero in front. -/
theorem head?_decimal_ne {n : Nat} (hn : n ≠ 0) :
    (decimal n).head? ≠ some 48 := by
  have hall : ∀ d < 10, d ≠ 0 → UInt8.ofNat (48 + d) ≠ 48 := by decide
  induction n using decimal.induct with
  | case1 n hlt =>
      have hdigit := hall n hlt hn
      rw [decimal, if_pos hlt, decimalDigit, Nat.mod_eq_of_lt hlt,
        List.head?_cons]
      exact fun h => hdigit (Option.some.inj h)
  | case2 n hge ih =>
      rw [decimal, if_neg hge, List.head?_append_of_ne_nil _
        (decimal_ne_nil _)]
      exact ih (by omega)

theorem readSigned_signedDecimal (n : Int) :
    readSigned (readDigits 10) (signedDecimal n) = some n := by
  cases n with
  | ofNat n =>
      rw [signedDecimal, readSigned_decimal, readDigits_decimal]
      rfl
  | negSucc n =>
      rw [signedDecimal, readSigned, readDigits_decimal]
      rfl

theorem word_decimal (n : Nat) : Word (decimal n) :=
  ⟨decimal_ne_nil n, forall_mem_decimal (by decide) n⟩

theorem word_signedDecimal (n : Int) : Word (signedDecimal n) := by
  cases n with
  | ofNat n => exact word_decimal n
  | negSucc n =>
      exact ⟨List.cons_ne_nil _ _, List.forall_mem_cons.mpr
        ⟨by decide, (word_decimal (n + 1)).2⟩⟩

end Text
