/-
Descriptions as text.  The descriptions that some text is read as are those
whose names and entries can be written.
-/
import Fs5600.Description

namespace Fs5600

open Text Checked

/-- An object that a line can describe. -/
structure GenObject.Writable (f : GenObject) : Prop where
  name : PlainWord f.name
  blocks : f.blocks ≠ []
  entries : ∀ entry ∈ f.entries,
    EntryWritable (entry.1, entry.2.1, entry.2.2)

structure DescriptionWritable (files dirs : List GenObject) : Prop where
  files : ∀ f ∈ files, f.kind = .file ∧ f.Writable
  dirs : ∀ f ∈ dirs, f.kind ≠ .file ∧ f.Writable

/-! The text of a description, every object with symbols of its own. -/

def GenObject.symbols (f : GenObject) : List (List UInt8 × Nat) :=
  [([36, 117], f.uid), ([36, 103], f.gid), ([36, 109], f.mode),
    ([36, 99], f.ctime), ([36, 116], f.mtime)]

def entryText : Bool × Name × Nat → List UInt8
  | (true, name, num) => name ++ 44 :: decimal num
  | (false, name, _) => 45 :: name

def GenObject.kindText (f : GenObject) : List UInt8 :=
  match f.kind with
  | .file => [102, 105, 108, 101]
  | .dir _ => [100, 105, 114]

def GenObject.blocksText (f : GenObject) : List UInt8 :=
  [44].intercalate (f.blocks.map decimal)

/-- The nine fields that describe an object. -/
def GenObject.words (f : GenObject) : List (List UInt8) :=
  [decimal f.inum, f.name, [36, 117], [36, 103], [36, 109], [36, 99],
    [36, 116], signedDecimal f.size, f.blocksText]

/-- The lines of an object. -/
def GenObject.lines (f : GenObject) : List (List (List UInt8)) :=
  f.symbols.map (fun symbol => [symbol.1, decimal symbol.2]) ++
    [f.kindText :: (f.words ++ f.entries.map entryText)]

def descriptionLines (files dirs : List GenObject) (nblocks : Nat) :
    List (List (List UInt8)) :=
  [[115, 105, 122, 101], decimal nblocks] ::
    (files ++ dirs).flatMap GenObject.lines

def descriptionText (files dirs : List GenObject) (nblocks : Nat) :
    List UInt8 := (descriptionLines files dirs nblocks).flatMap unwords

/-! Every line is made of words. -/

section

variable {f : GenObject} (hf : f.Writable)

include hf

theorem GenObject.Writable.word_blocksText : Word f.blocksText := by
  obtain ⟨b, blocks, hblocks⟩ := List.exists_cons_of_ne_nil hf.blocks
  constructor
  · obtain ⟨c, s, hcons⟩ := List.exists_cons_of_ne_nil (decimal_ne_nil b)
    rw [blocksText, hblocks, List.map_cons]
    cases blocks.map decimal <;> simp [hcons]
  · intro c hc
    rcases mem_intercalate hc with ⟨piece, hpiece, hmem⟩ | hmem
    · obtain ⟨b, -, rfl⟩ := List.mem_map.mp hpiece
      exact (word_decimal b).2 c hmem
    · rw [List.mem_singleton.mp hmem]
      decide

theorem GenObject.Writable.word_entryText {entry : Bool × Name × Nat}
    (hentry : entry ∈ f.entries) : Word (entryText entry) := by
  have hspace := (hf.entries entry hentry).noSpace
  obtain ⟨valid, name, num⟩ := entry
  cases valid with
  | true =>
      refine ⟨List.append_ne_nil_of_right_ne_nil _ (List.cons_ne_nil _ _),
        List.forall_mem_append.mpr ⟨hspace, List.forall_mem_cons.mpr
          ⟨by decide, (word_decimal num).2⟩⟩⟩
  | false =>
      exact ⟨List.cons_ne_nil _ _, List.forall_mem_cons.mpr
        ⟨by decide, hspace⟩⟩

theorem GenObject.Writable.head?_entryText {entry : Bool × Name × Nat}
    (hentry : entry ∈ f.entries) : (entryText entry).head? ≠ some 36 := by
  have hused := (hf.entries entry hentry).used
  obtain ⟨valid, name, num⟩ := entry
  cases valid with
  | true =>
      cases name with
      | nil => simp [entryText]
      | cons c name => exact (hused rfl).2.1
  | false => simp [entryText]

theorem GenObject.Writable.word_lines :
    ∀ ws ∈ f.lines, ∀ w ∈ ws, Word w := by
  have hsymbols : ∀ symbol ∈ f.symbols, Word symbol.1 := by
    simp only [symbols, List.forall_mem_cons, List.not_mem_nil,
      false_implies, implies_true, and_true]
    decide
  have hkind : Word f.kindText := by
    rw [kindText]
    split <;> decide
  have hwords : ∀ w ∈ f.words, Word w := by
    simp only [words, List.forall_mem_cons, List.not_mem_nil,
      false_implies, implies_true, and_true]
    exact ⟨word_decimal _, hf.name.word, by decide, by decide, by decide,
      by decide, by decide, word_signedDecimal _, hf.word_blocksText⟩
  intro ws hws
  rcases List.mem_append.mp hws with hline | hobject
  · obtain ⟨symbol, hsymbol, rfl⟩ := List.mem_map.mp hline
    exact List.forall_mem_cons.mpr ⟨hsymbols symbol hsymbol,
      List.forall_mem_singleton.mpr (word_decimal _)⟩
  · rw [List.mem_singleton.mp hobject, List.forall_mem_cons,
      List.forall_mem_append, List.forall_mem_map]
    exact ⟨hkind, hwords, fun entry hentry => hf.word_entryText hentry⟩

end

/-! Fields and lines are read as they were written. -/

theorem pyInt_decimal (n : Nat) : pyInt (decimal n) = .ok n := by
  rw [pyInt, readSigned_decimal, readDigits_decimal]
  rfl

theorem pyInt_signedDecimal (n : Int) : pyInt (signedDecimal n) = .ok n := by
  rw [pyInt, readSigned_signedDecimal]

theorem pyIntAuto_decimal (n : Nat) : pyIntAuto (decimal n) = .ok n := by
  have hread : readAnyBase (decimal n) = some n := by
    rw [← readDigits_decimal n]
    by_cases hn : n = 0
    · subst hn
      rw [decimal, if_pos (by decide)]
      rfl
    · have hhead := head?_decimal_ne hn
      rw [readAnyBase.eq_2]
      rintro c s heq
      rw [heq] at hhead
      exact hhead rfl
  rw [pyIntAuto, readSigned_decimal, hread]
  rfl

theorem ints_blocksText {f : GenObject} (hf : f.Writable) :
    (GenField.text f.blocksText).ints = .ok (f.blocks.map Int.ofNat) := by
  have hcomma : ∀ piece ∈ f.blocks.map decimal, 44 ∉ piece :=
    List.forall_mem_map.mpr fun b _ hmem =>
      forall_mem_decimal (P := fun c => c ≠ 44) (by decide) b 44 hmem rfl
  rw [GenField.ints, GenObject.blocksText, List.splitOn_intercalate 44 hcomma
    fun h => hf.blocks (List.map_eq_nil_iff.mp h)]
  exact mapM_map_ok fun b _ => pyInt_decimal b

theorem genEntry_entryText {entry : Bool × Name × Nat}
    (hentry : EntryWritable (entry.1, entry.2.1, entry.2.2)) :
    genEntry (.text (entryText entry)) =
      .ok (entry.1, entry.2.1, (entry.2.2 : Int)) := by
  obtain ⟨valid, name, num⟩ := entry
  cases valid with
  | true =>
      obtain ⟨hcomma, -, hminus⟩ := hentry.used rfl
      have hsplit : (name ++ 44 :: decimal num).splitOn 44 =
          [name, decimal num] := by
        rw [List.splitOn_append_cons_self_of_not_mem hcomma,
          List.splitOn_eq_singleton fun hmem => forall_mem_decimal
            (P := fun c => c ≠ 44) (by decide) num 44 hmem rfl]
      obtain ⟨c, e, hcons⟩ : ∃ c e, name ++ 44 :: decimal num = c :: e :=
        List.exists_cons_of_ne_nil
          (List.append_ne_nil_of_right_ne_nil _ (List.cons_ne_nil _ _))
      have hc : c ≠ 45 := by
        rintro rfl
        cases name with
        | nil => cases hcons
        | cons d name =>
            cases hcons
            exact hminus rfl
      rw [entryText, hcons, genEntry, if_neg hc, ← hcons, hsplit]
      dsimp only
      rw [pyInt_decimal]
      rfl
  | false =>
      have hnum : (num : Int) = 0 := hentry.unused rfl
      rw [entryText, genEntry, if_pos rfl, hnum]
      rfl

/-- The fields of an object, its symbols replaced. -/
def GenObject.fields (f : GenObject) : List GenField :=
  [.text (decimal f.inum), .text f.name, .number f.uid, .number f.gid,
    .number f.mode, .number f.ctime, .number f.mtime,
    .text (signedDecimal f.size), .text f.blocksText]

theorem genItem_fields {f : GenObject} (hf : f.Writable) :
    genItem f.fields = .ok f.item := by
  simp only [genItem, GenObject.fields, GenField.int, pyInt_decimal,
    pyInt_signedDecimal, ints_blocksText hf]
  rfl

/-- Another object read. -/
def GenReader.add (reader : GenReader) (f : GenObject) : GenReader :=
  match f.kind with
  | .file => { reader with files := reader.files ++ [f.item] }
  | .dir _ => { reader with dirs := reader.dirs ++ [f.dirItem] }

namespace GenReader

variable (reader : GenReader)

theorem object_fields {f : GenObject} (hf : f.Writable) :
    reader.object (.text f.kindText ::
        (f.fields ++ f.entries.map fun entry => .text (entryText entry))) =
      .ok (reader.add f) := by
  rcases f.kind_cases with ⟨hkind, hnone⟩ | hkind
  · rw [GenObject.kindText, hkind, hnone, object, if_pos rfl, List.map_nil,
      List.append_nil, genItem_fields hf, add, hkind]
    rfl
  · have hentries : (f.entries.map fun entry =>
        GenField.text (entryText entry)).mapM genEntry =
          .ok (f.entries.map fun entry =>
            (entry.1, entry.2.1, (entry.2.2 : Int))) :=
      mapM_map_ok fun entry hentry =>
        genEntry_entryText (hf.entries entry hentry)
    have hlength : f.fields.length = 9 := rfl
    have hdir : f.kindText = [100, 105, 114] := by
      rw [GenObject.kindText, hkind]
    rw [hdir, object, if_neg (by decide), if_pos rfl,
      List.take_left' hlength, List.drop_left' hlength, genItem_fields hf,
      hentries, add, hkind]
    rfl

theorem line_unwords {w : List UInt8} {ws : List (List UInt8)}
    (hwords : ∀ word ∈ w :: ws, Word word) :
    reader.line (unwords (w :: ws)) =
      reader.words (unwords (w :: ws)) (w :: ws) := by
  rw [line, words_unwords hwords]

theorem line_symbol {sym : List UInt8} (hsym : Word sym)
    (hdollar : sym.head? = some 36) (n : Nat) :
    reader.line (unwords [sym, decimal n]) =
      .ok { reader with
        syms := Function.update reader.syms sym (some (n : Int)) } := by
  rw [line_unwords _ (List.forall_mem_cons.mpr
      ⟨hsym, List.forall_mem_singleton.mpr (word_decimal n)⟩), words,
    head?_unwords hsym, hdollar, if_neg (by simp), if_pos rfl,
    pyIntAuto_decimal]
  rfl

theorem line_size (n : Nat) :
    reader.line (unwords [[115, 105, 122, 101], decimal n]) =
      .ok { reader with nblocks := n } := by
  have hsize : Word [115, 105, 122, 101] := by decide
  rw [line_unwords _ (List.forall_mem_cons.mpr
      ⟨hsize, List.forall_mem_singleton.mpr (word_decimal n)⟩), words,
    head?_unwords hsize, if_neg (by simp), if_neg (by decide),
    if_pos List.head?_cons, pyInt_decimal]
  rfl

theorem field_text {s : List UInt8} (hs : s.head? ≠ some 36) :
    reader.field s = .ok (.text s) := if_neg hs

theorem field_symbol {s : List UInt8} {n : Int} (hs : s.head? = some 36)
    (hsym : reader.syms s = some n) : reader.field s = .ok (.number n) := by
  rw [field, if_pos hs, hsym]

/-- The fields of an object whose symbols are known. -/
theorem mapM_words {f : GenObject} (hf : f.Writable)
    (hsyms : ∀ symbol ∈ f.symbols,
      reader.syms symbol.1 = some (symbol.2 : Int)) :
    f.words.mapM reader.field = .ok f.fields := by
  simp only [GenObject.symbols, List.forall_mem_cons, List.not_mem_nil,
    false_implies, implies_true, and_true] at hsyms
  obtain ⟨huid, hgid, hmode, hctime, hmtime⟩ := hsyms
  have hdecimal : ∀ n : Nat, (decimal n).head? ≠ some 36 := fun n hhead =>
    forall_mem_decimal (P := fun c => c ≠ 36) (by decide) n 36
      (List.mem_of_mem_head? hhead) rfl
  have hsigned : (signedDecimal f.size).head? ≠ some 36 := by
    cases f.size with
    | ofNat n => exact hdecimal n
    | negSucc n => simp [signedDecimal]
  have hblocks : f.blocksText.head? ≠ some 36 := fun hhead => by
    rcases mem_intercalate (List.mem_of_mem_head? hhead) with
      ⟨piece, hpiece, hmem⟩ | hmem
    · obtain ⟨b, -, rfl⟩ := List.mem_map.mp hpiece
      exact forall_mem_decimal (P := fun c => c ≠ 36) (by decide) b 36 hmem
        rfl
    · exact absurd hmem (by decide)
  simp only [GenObject.words, List.mapM_cons, List.mapM_nil,
    reader.field_text (hdecimal _), reader.field_text hf.name.noSymbol,
    reader.field_symbol rfl huid, reader.field_symbol rfl hgid,
    reader.field_symbol rfl hmode, reader.field_symbol rfl hctime,
    reader.field_symbol rfl hmtime, reader.field_text hsigned,
    reader.field_text hblocks]
  rfl

/-- A line of an object whose symbols are known. -/
theorem line_object {f : GenObject} (hf : f.Writable)
    (hsyms : ∀ symbol ∈ f.symbols,
      reader.syms symbol.1 = some (symbol.2 : Int)) :
    reader.line (unwords
        (f.kindText :: (f.words ++ f.entries.map entryText))) =
      .ok (reader.add f) := by
  have hkind : f.kindText.head? ≠ some 35 ∧ f.kindText.head? ≠ some 36 ∧
      f.kindText ≠ [115, 105, 122, 101] := by
    rw [GenObject.kindText]
    split <;> decide
  have hentries : (f.entries.map entryText).mapM reader.field =
      .ok (f.entries.map fun entry => .text (entryText entry)) :=
    mapM_map_ok fun entry hentry =>
      reader.field_text (hf.head?_entryText hentry)
  have hfields : (f.kindText ::
      (f.words ++ f.entries.map entryText)).mapM reader.field =
        .ok (.text f.kindText ::
          (f.fields ++ f.entries.map fun entry =>
            .text (entryText entry))) := by
    rw [List.mapM_cons, reader.field_text hkind.2.1, List.mapM_append,
      reader.mapM_words hf hsyms, hentries]
    rfl
  have hwords := hf.word_lines _ (List.mem_append_right _
    (List.mem_singleton_self _))
  rw [line_unwords _ hwords]
  unfold words
  rw [head?_unwords (hwords _ List.mem_cons_self),
    if_neg (by simp [hkind.1]), if_neg hkind.2.1,
    if_neg (by simp [hkind.2.2]), hfields]
  exact reader.object_fields hf

/-- The lines of symbols with names of their own. -/
theorem lines_symbols {symbols : List (List UInt8 × Nat)}
    (hwords : ∀ symbol ∈ symbols, Word symbol.1 ∧
      symbol.1.head? = some 36)
    (hnodup : (symbols.map Prod.fst).Nodup) :
    ∃ syms, ((symbols.map fun symbol =>
        [symbol.1, decimal symbol.2]).map unwords).foldlM GenReader.line
          reader = .ok { reader with syms := syms } ∧
      (∀ symbol ∈ symbols, syms symbol.1 = some (symbol.2 : Int)) ∧
      ∀ s, s ∉ symbols.map Prod.fst → syms s = reader.syms s := by
  induction symbols generalizing reader with
  | nil => exact ⟨reader.syms, rfl, fun _ h => (by cases h), fun _ _ => rfl⟩
  | cons symbol symbols ih =>
      rw [List.forall_mem_cons] at hwords
      rw [List.map_cons, List.nodup_cons] at hnodup
      obtain ⟨syms, hrun, hsyms, hother⟩ := ih { reader with
        syms := Function.update reader.syms symbol.1
          (some (symbol.2 : Int)) } hwords.2 hnodup.2
      refine ⟨syms, ?_, List.forall_mem_cons.mpr ⟨?_, hsyms⟩,
        fun s hs => ?_⟩
      · rw [List.map_cons, List.map_cons, List.foldlM_cons,
          reader.line_symbol hwords.1.1 hwords.1.2]
        exact hrun
      · rw [hother _ hnodup.1]
        exact Function.update_self _ _ _
      · rw [List.map_cons, List.mem_cons, not_or] at hs
        rw [hother s hs.2]
        exact Function.update_of_ne hs.1 _ _

/-- The lines of an object. -/
theorem lines_object {f : GenObject} (hf : f.Writable) :
    ∃ syms, (f.lines.map unwords).foldlM GenReader.line reader =
      .ok ({ reader with syms := syms }.add f) := by
  have hwords : ∀ symbol ∈ f.symbols, Word symbol.1 ∧
      symbol.1.head? = some 36 := by
    simp only [GenObject.symbols, List.forall_mem_cons, List.not_mem_nil,
      false_implies, implies_true, and_true]
    decide
  have hnodup : (f.symbols.map Prod.fst).Nodup := by
    simp only [GenObject.symbols, List.map_cons, List.map_nil]
    decide
  obtain ⟨syms, hrun, hsyms, -⟩ := reader.lines_symbols hwords hnodup
  refine ⟨syms, ?_⟩
  rw [GenObject.lines, List.map_append, List.foldlM_append, hrun]
  refine bind_eq_ok.mpr ⟨_, rfl, ?_⟩
  rw [List.map_singleton, List.foldlM_cons, line_object _ hf hsyms]
  rfl

theorem lines_objects (objects : List GenObject)
    (hobjects : ∀ f ∈ objects, f.Writable) :
    ∃ syms, ((objects.flatMap GenObject.lines).map unwords).foldlM
        GenReader.line reader =
      .ok (objects.foldl add { reader with syms := syms }) := by
  induction objects generalizing reader with
  | nil => exact ⟨reader.syms, rfl⟩
  | cons f objects ih =>
      rw [List.forall_mem_cons] at hobjects
      obtain ⟨syms, hfirst⟩ := reader.lines_object hobjects.1
      obtain ⟨syms', hrest⟩ :=
        ih ({ reader with syms := syms }.add f) hobjects.2
      refine ⟨syms', ?_⟩
      rw [List.flatMap_cons, List.map_append, List.foldlM_append, hfirst]
      refine hrest.trans (congrArg Except.ok (congrArg (objects.foldl add) ?_))
      rw [add, add]
      cases f.kind <;> rfl

theorem foldl_add_files {files : List GenObject}
    (hkind : ∀ f ∈ files, f.kind = .file) :
    files.foldl add reader =
      { reader with files := reader.files ++ files.map GenObject.item } := by
  induction files generalizing reader with
  | nil => rw [List.map_nil, List.append_nil]; rfl
  | cons f files ih =>
      rw [List.forall_mem_cons] at hkind
      rw [List.foldl_cons, ih _ hkind.2, add, hkind.1]
      simp

theorem foldl_add_dirs {dirs : List GenObject}
    (hkind : ∀ f ∈ dirs, f.kind ≠ .file) :
    dirs.foldl add reader =
      { reader with dirs := reader.dirs ++ dirs.map GenObject.dirItem } := by
  induction dirs generalizing reader with
  | nil => rw [List.map_nil, List.append_nil]; rfl
  | cons f dirs ih =>
      rw [List.forall_mem_cons] at hkind
      obtain ⟨entries, hdir⟩ : ∃ entries, f.kind = .dir entries := by
        rcases f.kind_cases with ⟨hfile, -⟩ | hdir
        · exact absurd hfile hkind.1
        · exact ⟨_, hdir⟩
      rw [List.foldl_cons, ih _ hkind.2, add, hdir]
      simp

end GenReader

/-- The text of a description is read as the description. -/
theorem readDescription_text {files dirs : List GenObject}
    (hwritable : DescriptionWritable files dirs) (nblocks : Nat) :
    ∃ reader, readDescription (descriptionText files dirs nblocks) =
        .ok reader ∧ reader.Holds files dirs nblocks := by
  have hobjects : ∀ f ∈ files ++ dirs, f.Writable :=
    List.forall_mem_append.mpr ⟨fun f hf => (hwritable.files f hf).2,
      fun f hf => (hwritable.dirs f hf).2⟩
  have hfiles := fun f hf => (hwritable.files f hf).1
  have hdirs := fun f hf => (hwritable.dirs f hf).1
  have hwords : ∀ ws ∈ descriptionLines files dirs nblocks, ∀ w ∈ ws,
      Word w := by
    refine List.forall_mem_cons.mpr ⟨List.forall_mem_cons.mpr
      ⟨by decide, List.forall_mem_singleton.mpr (word_decimal nblocks)⟩,
      fun ws hws => ?_⟩
    obtain ⟨f, hf, hws⟩ := List.mem_flatMap.mp hws
    exact (hobjects f hf).word_lines ws hws
  obtain ⟨syms, hrun⟩ :=
    GenReader.lines_objects { GenReader.start with nblocks := nblocks }
      (files ++ dirs) hobjects
  rw [List.foldl_append, GenReader.foldl_add_files _ hfiles,
    GenReader.foldl_add_dirs _ hdirs] at hrun
  have hread : readDescription (descriptionText files dirs nblocks) =
      .ok ⟨syms, files.map GenObject.item, dirs.map GenObject.dirItem,
        nblocks⟩ := by
    rw [readDescription, descriptionText, lines_unwords hwords,
      descriptionLines, List.map_cons, List.foldlM_cons, GenReader.line_size]
    exact hrun
  exact ⟨_, hread, hfiles, hdirs, rfl, rfl, rfl⟩

/-- Exactly the descriptions with plain names, at least one block for every
object, and entries that can be told apart from symbols and unused entries are
read from some text. -/
theorem exists_text_iff {files dirs : List GenObject} {nblocks : Nat} :
    (∃ text reader, readDescription text = .ok reader ∧
        reader.Holds files dirs nblocks) ↔
      DescriptionWritable files dirs := by
  constructor
  · rintro ⟨text, reader, hread, hholds⟩
    have hwritable := readDescription_writable hread
    have hfiles := hwritable.files
    have hdirs := hwritable.dirs
    rw [hholds.files, List.forall_mem_map] at hfiles
    rw [hholds.dirs, List.forall_mem_map] at hdirs
    have hitem : ∀ f : GenObject, f.item.Writable →
        PlainWord f.name ∧ f.blocks ≠ [] := fun f hf =>
      ⟨hf.name f.name rfl, fun h => hf.blocks (List.map_eq_nil_iff.mpr h)⟩
    refine ⟨fun f hf => ⟨hholds.file_kind f hf, ?_⟩,
      fun f hf => ⟨hholds.dir_kind f hf, ?_⟩⟩
    · obtain ⟨hname, hblocks⟩ := hitem f (hfiles f hf)
      refine ⟨hname, hblocks, ?_⟩
      rw [GenObject.entries, hholds.file_kind f hf]
      exact fun _ h => by cases h
    · obtain ⟨hname, hblocks⟩ := hitem f (hdirs f hf).1
      exact ⟨hname, hblocks, List.forall_mem_map.mp (hdirs f hf).2⟩
  · intro hwritable
    obtain ⟨reader, hread, hholds⟩ := readDescription_text hwritable nblocks
    exact ⟨_, reader, hread, hholds⟩

end Fs5600
