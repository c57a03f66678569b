/-
The description files that `gen-disk.py` reads, line by line: symbols, the
size, and the objects of its classes.
-/
import Fs5600.Generation
import Fs5600.Lib.Checked
import Fs5600.Lib.Text

namespace Fs5600

open Text Checked

/-- The exceptions that end the reading. -/
inductive GenStop where
  | index
  | value
  | key
  | type
  | attribute
deriving DecidableEq

/-- A field of a line: text, or the number of a symbol in its place. -/
inductive GenField where
  | text (s : List UInt8)
  | number (n : Int)

/-- `int(s)` of a string without white space. -/
def pyInt (s : List UInt8) : Except GenStop Int :=
  match readSigned (readDigits 10) s with
  | some n => .ok n
  | none => .error .value

/-- The digits of `int(s, 0)`, in the base that their first ones tell; a zero
in front is for base 8. -/
def readAnyBase : List UInt8 → Option Nat
  | 48 :: c :: s =>
      if c = 120 ∨ c = 88 then readDigits 16 s
      else if c = 111 ∨ c = 79 then readDigits 8 s
      else if c = 98 ∨ c = 66 then readDigits 2 s
      else readDigits 8 (c :: s)
  | s => readDigits 10 s

def pyIntAuto (s : List UInt8) : Except GenStop Int :=
  match readSigned readAnyBase s with
  | some n => .ok n
  | none => .error .value

/-- `int(field)`. -/
def GenField.int : GenField → Except GenStop Int
  | .text s => pyInt s
  | .number n => .ok n

/-- `map(int, blocks.split(','))`. -/
def GenField.ints : GenField → Except GenStop (List Int)
  | .text s => (s.splitOn 44).mapM pyInt
  | .number _ => .error .attribute

/-- What both classes take from the first nine fields. -/
structure GenItem where
  inum : Int
  name : GenField
  uid : GenField
  gid : GenField
  mode : GenField
  ctime : GenField
  mtime : GenField
  size : Int
  blocks : List Int

def genItem : List GenField → Except GenStop GenItem
  | [inum, name, uid, gid, mode, ctime, mtime, size, blocks] => do
      let inum ← inum.int
      let size ← size.int
      let blocks ← blocks.ints
      pure ⟨inum, name, uid, gid, mode, ctime, mtime, size, blocks⟩
  | _ => .error .value

/-- An entry of class `dir`: `-name`, or `name,inum`. -/
def genEntry : GenField → Except GenStop (Bool × Name × Int)
  | .number _ => .error .type
  | .text [] => .error .index
  | .text (c :: e) =>
      if c = 45 then pure (false, e, 0)
      else match (c :: e).splitOn 44 with
        | [name, inum] => do
            let inum ← pyInt inum
            pure (true, name, inum)
        | _ => .error .value

/-- The variables of the loop over the lines. -/
structure GenReader where
  syms : List UInt8 → Option Int
  files : List GenItem
  dirs : List (GenItem × List (Bool × Name × Int))
  nblocks : Int

def GenReader.start : GenReader := ⟨fun _ => none, [], [], 0⟩

namespace GenReader

variable (reader : GenReader)

/-- `fields[i] = syms[fields[i]]` for a field that begins with a dollar. -/
def field (s : List UInt8) : Except GenStop GenField :=
  if s.head? = some 36 then
    match reader.syms s with
    | some n => .ok (.number n)
    | none => .error .key
  else .ok (.text s)

/-- A line of an object; other kinds of lines are passed over. -/
def object : List GenField → Except GenStop GenReader
  | .text kind :: fields =>
      if kind = [102, 105, 108, 101] then do
        let file ← genItem fields
        pure { reader with files := reader.files ++ [file] }
      else if kind = [100, 105, 114] then do
        let item ← genItem (fields.take 9)
        let entries ← (fields.drop 9).mapM genEntry
        pure { reader with dirs := reader.dirs ++ [(item, entries)] }
      else pure reader
  | _ => pure reader

/-- The body of the loop, for a line and its words. -/
def words (line : List UInt8) (fields : List (List UInt8)) :
    Except GenStop GenReader :=
  if line.head? = some 35 ∨ fields = [] then pure reader
  else if line.head? = some 36 then
    match fields with
    | sym :: value :: _ => do
        let n ← pyIntAuto value
        pure { reader with syms := Function.update reader.syms sym (some n) }
    | _ => .error .index
  else if fields.head? = some [115, 105, 122, 101] then
    match fields with
    | _ :: size :: _ => do
        let nblocks ← pyInt size
        pure { reader with nblocks := nblocks }
    | _ => .error .index
  else do
    let fields ← fields.mapM reader.field
    reader.object fields

def line (line : List UInt8) : Except GenStop GenReader :=
  reader.words line (Text.words line)

end GenReader

/-- The loop over the lines of the description file. -/
def readDescription (text : List UInt8) : Except GenStop GenReader :=
  (lines text).foldlM GenReader.line .start

/-! The objects that a description is of, where every number is at least
zero, attributes come from symbols and names do not. -/

/-- The instance of `file`, or of `dir` but for its entries. -/
def GenObject.item (f : GenObject) : GenItem where
  inum := f.inum
  name := .text f.name
  uid := .number f.uid
  gid := .number f.gid
  mode := .number f.mode
  ctime := .number f.ctime
  mtime := .number f.mtime
  size := f.size
  blocks := f.blocks.map Int.ofNat

def GenObject.dirItem (f : GenObject) :
    GenItem × List (Bool × Name × Int) :=
  (f.item, f.entries.map fun entry => (entry.1, entry.2.1, entry.2.2))

/-- What has been read is a list of files, a list of directories and a
size. -/
structure GenReader.Holds (reader : GenReader) (files dirs : List GenObject)
    (nblocks : Nat) : Prop where
  file_kind : ∀ f ∈ files, f.kind = .file
  dir_kind : ∀ f ∈ dirs, f.kind ≠ .file
  files : reader.files = files.map GenObject.item
  dirs : reader.dirs = dirs.map GenObject.dirItem
  nblocks : reader.nblocks = nblocks

/-! What can be read. -/

/-- A word that is not the name of a symbol. -/
structure PlainWord (s : List UInt8) : Prop where
  word : Word s
  noSymbol : s.head? ≠ some 36

/-- The name of a valid entry has no comma and does not begin with a dollar or
with `-`; an unused entry has no number. -/
structure EntryWritable (entry : Bool × Name × Int) : Prop where
  noSpace : ∀ c ∈ entry.2.1, isSpace c = false
  used : entry.1 = true → 44 ∉ entry.2.1 ∧ entry.2.1.head? ≠ some 36 ∧
    entry.2.1.head? ≠ some 45
  unused : entry.1 = false → entry.2.2 = 0

structure GenItem.Writable (item : GenItem) : Prop where
  name : ∀ s, item.name = .text s → PlainWord s
  blocks : item.blocks ≠ []

structure GenReader.Writable (reader : GenReader) : Prop where
  files : ∀ item ∈ reader.files, item.Writable
  dirs : ∀ dir ∈ reader.dirs, dir.1.Writable ∧
    ∀ entry ∈ dir.2, EntryWritable entry

def GenField.Plain (field : GenField) : Prop :=
  ∀ s, field = .text s → PlainWord s

theorem genItem_writable {fields : List GenField} {item : GenItem}
    (hitem : genItem fields = .ok item) (hplain : ∀ field ∈ fields,
      field.Plain) : item.Writable := by
  unfold genItem at hitem
  split at hitem
  next inum name uid gid mode ctime mtime size blocks =>
    obtain ⟨inum', -, hitem⟩ := bind_eq_ok.mp hitem
    obtain ⟨size', -, hitem⟩ := bind_eq_ok.mp hitem
    obtain ⟨blocks', hblocks, hitem⟩ := bind_eq_ok.mp hitem
    cases hitem
    refine ⟨hplain name (by simp), ?_⟩
    cases blocks with
    | number n => cases hblocks
    | text s =>
        rw [← List.length_pos_iff, length_of_mapM hblocks,
          List.length_pos_iff]
        exact List.splitOn_ne_nil 44 s
  next => cases hitem

theorem genEntry_writable {field : GenField} {entry : Bool × Name × Int}
    (hentry : genEntry field = .ok entry) (hplain : field.Plain) :
    EntryWritable entry := by
  unfold genEntry at hentry
  split at hentry
  next => cases hentry
  next => cases hentry
  next c e =>
    obtain ⟨⟨-, hspace⟩, hsymbol⟩ := hplain (c :: e) rfl
    split at hentry
    next hc =>
      cases hentry
      exact ⟨(List.forall_mem_cons.mp hspace).2, fun h => (by cases h),
        fun _ => rfl⟩
    next hc =>
      split at hentry
      next name inum hsplit =>
        obtain ⟨inum', -, hentry⟩ := bind_eq_ok.mp hentry
        cases hentry
        have hjoin : [44].intercalate ((c :: e).splitOn 44) = c :: e :=
          List.intercalate_splitOn 44
        rw [hsplit, List.intercalate_cons_cons, List.intercalate_singleton]
          at hjoin
        have hcomma : 44 ∉ name := not_mem_of_mem_splitOn (s := c :: e) (by
          rw [hsplit]
          exact List.mem_cons_self)
        have hhead : ∀ d, name.head? = some d → d = c := by
          intro d hd
          obtain ⟨rest, rfl⟩ := List.head?_eq_some_iff.mp hd
          exact (List.cons.inj hjoin).1
        refine ⟨fun b hb => hspace b ?_, fun _ => ⟨hcomma, fun hd => ?_,
          fun hd => hc (hhead 45 hd).symm⟩, fun h => by cases h⟩
        · rw [← hjoin]
          exact List.mem_append_left _ (List.mem_append_left _ hb)
        · exact hsymbol (congrArg some (hhead 36 hd).symm)
      next => cases hentry

theorem GenReader.field_plain {reader : GenReader} {s : List UInt8}
    {field : GenField} (hfield : reader.field s = .ok field) (hs : Word s) :
    field.Plain := by
  rw [GenReader.field] at hfield
  split at hfield
  next =>
    split at hfield
    next => cases hfield; exact fun _ h => by cases h
    next => cases hfield
  next hsymbol =>
    cases hfield
    intro s' heq
    cases heq
    exact ⟨hs, hsymbol⟩

namespace GenReader

variable {reader reader' : GenReader}

theorem object_writable {fields : List GenField}
    (hobject : reader.object fields = .ok reader')
    (hplain : ∀ field ∈ fields, field.Plain) (hreader : reader.Writable) :
    reader'.Writable := by
  unfold object at hobject
  split at hobject
  next kind fields =>
    rw [List.forall_mem_cons] at hplain
    split at hobject
    next =>
      obtain ⟨file, hfile, hobject⟩ := bind_eq_ok.mp hobject
      cases hobject
      exact ⟨List.forall_mem_append.mpr ⟨hreader.files,
        List.forall_mem_singleton.mpr (genItem_writable hfile hplain.2)⟩,
        hreader.dirs⟩
    next =>
      split at hobject
      next =>
        obtain ⟨item, hitem, hobject⟩ := bind_eq_ok.mp hobject
        obtain ⟨entries, hentries, hobject⟩ := bind_eq_ok.mp hobject
        cases hobject
        have hitem' := genItem_writable hitem fun field hfield =>
          hplain.2 field (List.mem_of_mem_take hfield)
        have hentries' := forall_of_mapM hentries fun field hfield entry
          hentry => genEntry_writable hentry
            (hplain.2 field (List.mem_of_mem_drop hfield))
        exact ⟨hreader.files, List.forall_mem_append.mpr ⟨hreader.dirs,
          List.forall_mem_singleton.mpr ⟨hitem', hentries'⟩⟩⟩
      next =>
        cases hobject
        exact hreader
  next =>
    cases hobject
    exact hreader

theorem line_writable {line : List UInt8}
    (hline : reader.line line = .ok reader') (hreader : reader.Writable) :
    reader'.Writable := by
  unfold GenReader.line words at hline
  split at hline
  next =>
    cases hline
    exact hreader
  next =>
    split at hline
    next =>
      split at hline
      next =>
        obtain ⟨n, -, hline⟩ := bind_eq_ok.mp hline
        cases hline
        exact ⟨hreader.files, hreader.dirs⟩
      next => cases hline
    next =>
      split at hline
      next =>
        split at hline
        next =>
          obtain ⟨n, -, hline⟩ := bind_eq_ok.mp hline
          cases hline
          exact ⟨hreader.files, hreader.dirs⟩
        next => cases hline
      next =>
        obtain ⟨fields, hfields, hline⟩ := bind_eq_ok.mp hline
        exact object_writable hline (forall_of_mapM hfields
          fun word hword field hfield => field_plain hfield
            (mem_words hword)) hreader

end GenReader

/-- Whatever is read from a text could be written. -/
theorem readDescription_writable {text : List UInt8} {reader : GenReader}
    (hread : readDescription text = .ok reader) : reader.Writable :=
  foldlM_keeps (P := GenReader.Writable)
    (fun _ _ _ hline hreader => GenReader.line_writable hline hreader) hread
    ⟨fun _ h => (by cases h), fun _ h => by cases h⟩

end Fs5600
