/-
The image generator `gen-disk.py`: the block map loop with its check for
blocks counted twice, and the blocks it writes.  The description file is taken
after parsing, as the lists `files` and `dirs`.
-/
import Fs5600.BitmapFormat
import Fs5600.Path

namespace Fs5600

open MachineWord

/-- The letters of the text in generated files. -/
def genChars (n : Fin 52) : UInt8 :=
  .ofNat (if n.val < 26 then 97 + n.val else 65 + (n.val - 26))

/-- `rnd.randint(0, 50)` for byte `k` of block `offset`, after seeding with
the name and the offset. -/
abbrev Randint := Name → Nat → Fin 4096 → Fin 51

inductive GenKind where
  | file
  | dir (entries : List (Bool × Name × Nat))

/-- An object of class `file` or `dir`, its numbers converted. -/
structure GenObject where
  kind : GenKind
  inum : Nat
  name : Name
  uid : Nat
  gid : Nat
  mode : Nat
  ctime : Nat
  mtime : Nat
  size : Int
  blocks : List Nat

/-- `inode`: a block list that does not fit in `ptrs` raises `IndexError`. -/
def GenObject.inode (f : GenObject) : Option Block :=
  if f.blocks.length ≤ 1019 then
    some (FsInode.encode
      { uid := .ofNat f.uid
        gid := .ofNat f.gid
        mode := .ofNat f.mode
        ctime := .ofNat f.ctime
        mtime := .ofNat f.mtime
        size := .ofInt f.size
        ptrs := fun j => .ofNat (f.blocks.getD j.val 0) })
  else none

/-- Assigning a string to a `c_char * 28`: its bytes and, where there is room,
a zero.  Longer strings raise `ValueError`. -/
def storeName (field : Fin 28 → UInt8) (name : Name) :
    Option (Fin 28 → UInt8) :=
  if name.length ≤ 28 then
    some fun j => if j.val ≤ name.length then name.getD j.val 0 else field j
  else none

/-- The loop of `dir.block` over the entries of one block.  One structure is
filled again and again, so a name leaves its tail under the next one. -/
def packEntries : FsDirent → List (Bool × Name × Nat) →
    Option (List FsDirent)
  | _, [] => some []
  | de, (val, name, num) :: entries => do
      let name ← storeName de.name name
      let de : FsDirent := ⟨val, .ofNat 31 num, name⟩
      let packed ← packEntries de entries
      some (de :: packed)

def emptyDirent : FsDirent := ⟨false, 0, fun _ => 0⟩

/-- `block` of the two classes. -/
def GenObject.block (randint : Randint) (f : GenObject) (offset : Nat) :
    Option Block :=
  match f.kind with
  | .file => some fun k => genChars ((randint f.name offset k).castSucc)
  | .dir entries => do
      let packed ← packEntries emptyDirent
        ((entries.drop (offset * 128)).take 128)
      some (Directory.encode fun slot => packed.getD slot.val emptyDirent)

/-- What `blocks[i]` holds: `[f]` or `[f, i]`. -/
inductive GenCell where
  | inode (f : GenObject)
  | data (f : GenObject) (offset : Nat)

/-- The variables of the block map loop, and the numbers it has reported as
`'ERROR: double counted'`. -/
structure GenState where
  blockmap : DiskfmtBitmap
  blocks : Nat → Option GenCell
  doubleCounted : List Nat

/-- `blocks[i] = cell`, in a list of 400. -/
def GenState.assign (state : GenState) (i : Nat) (cell : GenCell) :
    Option GenState :=
  if i < 400 then
    some { state with blocks := Function.update state.blocks i (some cell) }
  else none

def GenState.mark (state : GenState) (i : Nat) : Option GenState := do
  let blockmap ← state.blockmap.set i true
  some { state with blockmap := blockmap }

/-- The inner loop, over the data blocks from number `i` on. -/
def GenState.placeData (f : GenObject) :
    GenState → List Nat → Nat → Option GenState
  | state, [], _ => some state
  | state, b :: bs, i => do
      let counted ← state.blockmap.get b
      let state := if counted then
          { state with doubleCounted := state.doubleCounted ++ [b] }
        else state
      let state ← state.mark b
      let state ← state.assign b (.data f i)
      placeData f state bs (i + 1)

/-- The body of the outer loop.  The inode number is not looked up. -/
def GenState.place (state : GenState) (f : GenObject) : Option GenState := do
  let state ← state.assign f.inum (.inode f)
  let state ← state.mark f.inum
  state.placeData f f.blocks 0

def GenState.start : Option GenState := do
  let blockmap ← DiskfmtBitmap.empty.set 0 true
  let blockmap ← blockmap.set 1 true
  some ⟨blockmap, fun _ => none, []⟩

def genBlockMap (objects : List GenObject) : Option GenState := do
  let state ← GenState.start
  objects.foldlM GenState.place state

def GenCell.bytes (randint : Randint) : Option GenCell → Option Block
  | none => some zeroBlock
  | some (.inode f) => f.inode
  | some (.data f offset) => f.block randint offset

/-- The writing loop: `count` blocks from number `i` on. -/
def genWrite (randint : Randint) (blocks : Nat → Option GenCell) :
    Nat → Nat → Option (List Block)
  | 0, _ => some []
  | count + 1, i =>
      if i < 400 then do
        let block ← GenCell.bytes randint (blocks i)
        let image ← genWrite randint blocks count (i + 1)
        some (block :: image)
      else none

def genSuper (nblocks : Nat) : Block := .ofWords fun i =>
  if i.val = 0 then 0x30303635
  else if i.val = 1 then .ofNat nblocks
  else 0

/-- `gen-disk.py` as a whole: the image and the numbers printed as double
counted, unless an exception ends it. -/
def genDisk (randint : Randint) (files dirs : List GenObject)
    (nblocks : Nat) : Option (List Block × List Nat) := do
  let state ← genBlockMap (files ++ dirs)
  let image ← genWrite randint state.blocks (nblocks - 2) 2
  some (genSuper nblocks :: state.blockmap.toBlock :: image,
    state.doubleCounted)

/-! The numbers in use. -/

def GenObject.numbers (f : GenObject) : List Nat := f.inum :: f.blocks

/-- The superblock, the bitmap, and what the objects name. -/
def usedNumbers (objects : List GenObject) : List Nat :=
  0 :: 1 :: objects.flatMap GenObject.numbers

@[simp] theorem usedNumbers_snoc (front : List GenObject) (f : GenObject) :
    usedNumbers (front ++ [f]) = usedNumbers front ++ f.numbers := by
  simp [usedNumbers]

/-- No data number is in use when the loop reaches it. -/
def DataFresh (objects : List GenObject) : Prop :=
  ∀ front f back, objects = front ++ f :: back →
    f.blocks.Nodup ∧
      ∀ b ∈ f.blocks, b ≠ f.inum ∧ b ∉ usedNumbers front

/-- No inode number is in use when the loop reaches it. -/
def InodesFresh (objects : List GenObject) : Prop :=
  ∀ front f back, objects = front ++ f :: back →
    f.inum ∉ usedNumbers front

/-- A property of every object and the objects before it, one object at a
time. -/
theorem forall_split_snoc {P : List GenObject → GenObject → Prop}
    (front : List GenObject) (f : GenObject) :
    (∀ front' f' back, front ++ [f] = front' ++ f' :: back → P front' f') ↔
      (∀ front' f' back, front = front' ++ f' :: back → P front' f') ∧
        P front f := by
  constructor
  · intro hall
    refine ⟨fun front' f' back heq => ?_, hall front f [] rfl⟩
    exact hall front' f' (back ++ [f]) (by simp [heq])
  · rintro ⟨hfront, hlast⟩ front' f' back heq
    rcases List.eq_nil_or_concat back with rfl | ⟨back', last, rfl⟩
    · obtain ⟨rfl, hf⟩ := List.append_inj' heq rfl
      cases hf
      exact hlast
    · have hsplit : front ++ [f] = (front' ++ f' :: back') ++ [last] := by
        simpa using heq
      obtain ⟨hinit, -⟩ := List.append_inj' hsplit rfl
      exact hfront front' f' back' hinit

theorem dataFresh_snoc (front : List GenObject) (f : GenObject) :
    DataFresh (front ++ [f]) ↔ DataFresh front ∧ f.blocks.Nodup ∧
      ∀ b ∈ f.blocks, b ≠ f.inum ∧ b ∉ usedNumbers front :=
  forall_split_snoc front f

theorem inodesFresh_snoc (front : List GenObject) (f : GenObject) :
    InodesFresh (front ++ [f]) ↔
      InodesFresh front ∧ f.inum ∉ usedNumbers front :=
  forall_split_snoc front f

/-- All numbers are distinct exactly when both kinds are fresh. -/
theorem nodup_usedNumbers_iff (objects : List GenObject) :
    (usedNumbers objects).Nodup ↔
      DataFresh objects ∧ InodesFresh objects := by
  induction objects using List.reverseRecOn with
  | nil => simp [usedNumbers, DataFresh, InodesFresh]
  | append_singleton front f ih =>
      rw [usedNumbers_snoc, List.nodup_append, ih, dataFresh_snoc,
        inodesFresh_snoc, GenObject.numbers, List.nodup_cons]
      constructor
      · rintro ⟨⟨hdata, hinodes⟩, ⟨hinum, hnodup⟩, hdisjoint⟩
        refine ⟨⟨hdata, hnodup, fun b hb => ⟨?_, fun hused => ?_⟩⟩, hinodes,
          fun hused => ?_⟩
        · rintro rfl
          exact hinum hb
        · exact hdisjoint b hused b (List.mem_cons_of_mem _ hb) rfl
        · exact hdisjoint _ hused _ List.mem_cons_self rfl
      · rintro ⟨⟨hdata, hnodup, hfresh⟩, hinodes, hinum⟩
        refine ⟨⟨hdata, hinodes⟩, ⟨fun hmem => (hfresh _ hmem).1 rfl,
          hnodup⟩, ?_⟩
        rintro n hused _ hmem rfl
        rcases List.mem_cons.mp hmem with rfl | hb
        · exact hinum hused
        · exact (hfresh n hb).2 hused

/-! One step of the loop, and a whole run. -/

section

variable {state state' : GenState}

theorem GenState.mark_eq {i : Nat} (hmark : state.mark i = some state') :
    (∀ n, Marked state'.blockmap.toBlock n ↔
        n = i ∨ Marked state.blockmap.toBlock n) ∧
      state'.blocks = state.blocks ∧
      state'.doubleCounted = state.doubleCounted := by
  by_cases hi : i < 32768
  · obtain ⟨map, hset, hmarked⟩ := state.blockmap.set_eq hi true
    simp only [mark, hset, Option.bind_eq_bind, Option.bind_some,
      Option.some.injEq] at hmark
    subst hmark
    refine ⟨fun n => ?_, rfl, rfl⟩
    rw [hmarked]
    by_cases hni : n = i <;> simp [hni]
  · have hword : ¬ i / 32 < 1024 := by omega
    simp [mark, DiskfmtBitmap.set, hword] at hmark

theorem GenState.assign_eq {i : Nat} {cell : GenCell}
    (hassign : state.assign i cell = some state') :
    state'.blockmap = state.blockmap ∧
      state'.blocks = Function.update state.blocks i (some cell) ∧
      state'.doubleCounted = state.doubleCounted := by
  unfold assign at hassign
  split at hassign
  · cases hassign
    exact ⟨rfl, rfl, rfl⟩
  · cases hassign

/-- The inner loop marks the data blocks, reports each that is marked
already, and assigns the cells. -/
theorem GenState.placeData_eq {f : GenObject} {bs : List Nat} {i : Nat}
    (hplace : placeData f state bs i = some state') :
    (∀ n, Marked state'.blockmap.toBlock n ↔
        n ∈ bs ∨ Marked state.blockmap.toBlock n) ∧
      (state'.doubleCounted = [] ↔ state.doubleCounted = [] ∧ bs.Nodup ∧
        ∀ b ∈ bs, ¬ Marked state.blockmap.toBlock b) ∧
      (∀ n, n ∉ bs → state'.blocks n = state.blocks n) ∧
      (bs.Nodup → ∀ k b, bs[k]? = some b →
        state'.blocks b = some (.data f (i + k))) := by
  induction bs generalizing state i with
  | nil =>
      cases hplace
      simp
  | cons b bs ih =>
      simp only [placeData, Option.bind_eq_bind, Option.bind_eq_some_iff]
        at hplace
      obtain ⟨counted, hget, marked, hmark, assigned, hassign, hrest⟩ :=
        hplace
      have hcounted := DiskfmtBitmap.eq_of_get hget
      obtain ⟨hmarked, hblocks, hcount⟩ := mark_eq hmark
      obtain ⟨hmap, hcells, hcount'⟩ := assign_eq hassign
      obtain ⟨hall, hprinted, hkept, hnew⟩ := ih hrest
      have hstart : (∀ n, Marked assigned.blockmap.toBlock n ↔
          n = b ∨ Marked state.blockmap.toBlock n) ∧
          assigned.blocks =
            Function.update state.blocks b (some (.data f i)) ∧
          (assigned.doubleCounted = [] ↔ state.doubleCounted = [] ∧
            ¬ Marked state.blockmap.toBlock b) := by
        rw [hmap, hcells, hblocks, hcount', hcount]
        cases counted with
        | true =>
            have hb := of_decide_eq_true hcounted.symm
            exact ⟨hmarked, rfl, by simp [hb]⟩
        | false =>
            have hb := of_decide_eq_false hcounted.symm
            exact ⟨hmarked, rfl, by simp [hb]⟩
      obtain ⟨hmarks, hassigned, hreported⟩ := hstart
      refine ⟨fun n => ?_, ?_, fun n hn => ?_, fun hnodup k c hc => ?_⟩
      · rw [hall, hmarks, List.mem_cons]
        tauto
      · rw [hprinted, hreported, List.nodup_cons]
        simp only [hmarks, List.forall_mem_cons]
        constructor
        · rintro ⟨⟨hnil, hb⟩, hnodup, hfresh⟩
          exact ⟨hnil, ⟨fun hmem => hfresh b hmem (Or.inl rfl), hnodup⟩, hb,
            fun c hc hm => hfresh c hc (Or.inr hm)⟩
        · rintro ⟨hnil, ⟨hb, hnodup⟩, hclear, hfresh⟩
          refine ⟨⟨hnil, hclear⟩, hnodup, ?_⟩
          rintro c hc (rfl | hm)
          · exact hb hc
          · exact hfresh c hc hm
      · rw [List.mem_cons, not_or] at hn
        rw [hkept n hn.2, hassigned, Function.update_of_ne hn.1]
      · obtain ⟨hb, hnodup⟩ := List.nodup_cons.mp hnodup
        cases k with
        | zero =>
            cases hc
            rw [hkept _ hb, hassigned, Function.update_self]
            rfl
        | succ k =>
            rw [hnew hnodup k c hc, Nat.add_assoc, Nat.add_comm 1 k]

/-- What one object does to the marks, to the report, and to the cells. -/
theorem GenState.place_eq {f : GenObject}
    (hplace : state.place f = some state') :
    (∀ n, Marked state'.blockmap.toBlock n ↔
        n ∈ f.numbers ∨ Marked state.blockmap.toBlock n) ∧
      (state'.doubleCounted = [] ↔ state.doubleCounted = [] ∧
        f.blocks.Nodup ∧ ∀ b ∈ f.blocks,
          b ≠ f.inum ∧ ¬ Marked state.blockmap.toBlock b) ∧
      (∀ n, n ∉ f.numbers → state'.blocks n = state.blocks n) ∧
      (f.numbers.Nodup → state'.blocks f.inum = some (.inode f) ∧
        ∀ k b, f.blocks[k]? = some b →
          state'.blocks b = some (.data f k)) := by
  simp only [place, Option.bind_eq_bind, Option.bind_eq_some_iff] at hplace
  obtain ⟨assigned, hassign, marked, hmark, hrest⟩ := hplace
  obtain ⟨hmap, hcells, hcount⟩ := assign_eq hassign
  obtain ⟨hmarked, hblocks, hcount'⟩ := mark_eq hmark
  obtain ⟨hall, hprinted, hkept, hnew⟩ := placeData_eq hrest
  rw [hcount', hcount] at hprinted
  simp only [hmarked, hmap, not_or] at hall hprinted
  rw [hblocks, hcells] at hkept
  refine ⟨fun n => ?_, hprinted, fun n hn => ?_, fun hnodup => ⟨?_, ?_⟩⟩
  · rw [hall, GenObject.numbers, List.mem_cons]
    tauto
  · rw [GenObject.numbers, List.mem_cons, not_or] at hn
    rw [hkept n hn.2, Function.update_of_ne hn.1]
  · rw [hkept _ (List.nodup_cons.mp hnodup).1, Function.update_self]
  · intro k b hb
    have hcell := hnew (List.nodup_cons.mp hnodup).2 k b hb
    rwa [Nat.zero_add] at hcell

/-- The state behind the loop over `objects`. -/
structure GenState.Tracks (state : GenState) (objects : List GenObject) :
    Prop where
  marked : ∀ n, Marked state.blockmap.toBlock n ↔ n ∈ usedNumbers objects
  reported : state.doubleCounted = [] ↔ DataFresh objects
  cells : (usedNumbers objects).Nodup → ∀ f ∈ objects,
    state.blocks f.inum = some (.inode f) ∧
      ∀ k b, f.blocks[k]? = some b → state.blocks b = some (.data f k)

theorem GenState.start_tracks (hstart : GenState.start = some state) :
    state.Tracks [] := by
  obtain ⟨first, hfirst, hmarked⟩ :=
    DiskfmtBitmap.empty.set_eq (i := 0) (by decide) true
  obtain ⟨second, hsecond, hmarked'⟩ :=
    first.set_eq (i := 1) (by decide) true
  simp only [start, hfirst, hsecond, Option.bind_eq_bind, Option.bind_some,
    Option.some.injEq] at hstart
  subst hstart
  refine ⟨fun n => ?_, ?_, fun _ f hf => absurd hf List.not_mem_nil⟩
  · have hempty : ¬ Marked DiskfmtBitmap.empty.toBlock n := by
      rw [DiskfmtBitmap.marked_toBlock]
      simp [DiskfmtBitmap.empty]
    rw [hmarked', hmarked]
    by_cases h1 : n = 1
    · simp [h1, usedNumbers]
    · by_cases h0 : n = 0 <;> simp [h0, h1, hempty, usedNumbers]
  · simp [DataFresh]

theorem GenState.Tracks.place {front : List GenObject} {f : GenObject}
    (htracks : state.Tracks front) (hplace : state.place f = some state') :
    state'.Tracks (front ++ [f]) := by
  obtain ⟨hmarked, hreported, hkept, hnew⟩ := place_eq hplace
  refine ⟨fun n => ?_, ?_, fun hnodup g hg => ?_⟩
  · rw [hmarked, htracks.marked, usedNumbers_snoc, List.mem_append, or_comm]
  · rw [hreported, htracks.reported, dataFresh_snoc]
    simp only [htracks.marked]
  · rw [usedNumbers_snoc] at hnodup
    obtain ⟨hfront, hlast, hdisjoint⟩ := List.nodup_append.mp hnodup
    rcases List.mem_append.mp hg with hold | hself
    · have hnot : ∀ n ∈ g.numbers, n ∉ f.numbers := fun n hn hmem =>
        hdisjoint n (List.mem_cons_of_mem _ (List.mem_cons_of_mem _
          (List.mem_flatMap.mpr ⟨g, hold, hn⟩))) n hmem rfl
      obtain ⟨hinode, hdata⟩ := htracks.cells hfront g hold
      refine ⟨?_, fun k b hb => ?_⟩
      · rw [hkept _ (hnot _ List.mem_cons_self), hinode]
      · have hmem := List.mem_of_getElem? hb
        rw [hkept _ (hnot _ (List.mem_cons_of_mem _ hmem)), hdata k b hb]
    · rw [List.mem_singleton] at hself
      subst hself
      exact hnew hlast

theorem genBlockMap_tracks {objects : List GenObject}
    (hrun : genBlockMap objects = some state) : state.Tracks objects := by
  simp only [genBlockMap, Option.bind_eq_bind, Option.bind_eq_some_iff]
    at hrun
  obtain ⟨start, hstart, hfold⟩ := hrun
  have htracks := GenState.start_tracks hstart
  induction objects using List.reverseRecOn generalizing state with
  | nil =>
      cases hfold
      exact htracks
  | append_singleton front f ih =>
      rw [List.foldlM_append, Option.bind_eq_bind,
        Option.bind_eq_some_iff] at hfold
      obtain ⟨middle, hfront, hlast⟩ := hfold
      simp only [List.foldlM_cons, List.foldlM_nil, Option.bind_eq_bind,
        Option.bind_eq_some_iff] at hlast
      obtain ⟨last, hplace, hlast⟩ := hlast
      cases hlast
      exact (ih hfront).place hplace

end

theorem genWrite_length {randint : Randint}
    {blocks : Nat → Option GenCell} {count i : Nat} {image : List Block}
    (hwrite : genWrite randint blocks count i = some image) :
    image.length = count := by
  induction count generalizing i image with
  | zero =>
      cases hwrite
      rfl
  | succ count ih =>
      simp only [genWrite] at hwrite
      split at hwrite
      next =>
        simp only [Option.bind_eq_bind, Option.bind_eq_some_iff] at hwrite
        obtain ⟨block, -, rest, hrest, himage⟩ := hwrite
        cases himage
        rw [List.length_cons, ih hrest]
      next => cases hwrite

theorem genWrite_getElem {randint : Randint}
    {blocks : Nat → Option GenCell} {count i : Nat} {image : List Block}
    (hwrite : genWrite randint blocks count i = some image) :
    ∀ k, k < count → image[k]? = GenCell.bytes randint (blocks (i + k)) := by
  induction count generalizing i image with
  | zero => simp
  | succ count ih =>
      simp only [genWrite] at hwrite
      split at hwrite
      next =>
        simp only [Option.bind_eq_bind, Option.bind_eq_some_iff] at hwrite
        obtain ⟨block, hblock, rest, hrest, himage⟩ := hwrite
        cases himage
        intro k hk
        cases k with
        | zero => simpa using hblock.symm
        | succ k =>
            rw [List.getElem?_cons_succ, ih hrest k (by omega)]
            congr 2
            omega
      next => cases hwrite

/-- What the check for double counted blocks is for: every number has one use,
and the image holds there what the object says. -/
def Exclusive (randint : Randint) (objects : List GenObject)
    (image : List Block) : Prop :=
  (usedNumbers objects).Nodup ∧ ∀ f ∈ objects,
    (∃ bytes, f.inode = some bytes ∧ image[f.inum]? = some bytes) ∧
    ∀ k b, f.blocks[k]? = some b →
      ∃ bytes, f.block randint k = some bytes ∧ image[b]? = some bytes

section

variable {randint : Randint} {files dirs : List GenObject} {nblocks : Nat}
  {image : List Block} {doubleCounted : List Nat}

theorem genDisk_eq
    (hrun : genDisk randint files dirs nblocks =
      some (image, doubleCounted)) :
    ∃ state : GenState, state.Tracks (files ++ dirs) ∧
      doubleCounted = state.doubleCounted ∧
      ∀ b, 2 ≤ b → b < nblocks →
        ∃ bytes, GenCell.bytes randint (state.blocks b) = some bytes ∧
          image[b]? = some bytes := by
  simp only [genDisk, Option.bind_eq_bind, Option.bind_eq_some_iff] at hrun
  obtain ⟨state, hstate, rest, hwrite, himage⟩ := hrun
  cases himage
  refine ⟨state, genBlockMap_tracks hstate, rfl, fun b htwo hb => ?_⟩
  obtain ⟨k, rfl⟩ := Nat.exists_eq_add_of_le' htwo
  have hbytes := genWrite_getElem hwrite k (by omega)
  have hlength := genWrite_length hwrite
  have hin : k < rest.length := by omega
  rw [List.getElem?_eq_getElem hin, Nat.add_comm 2 k] at hbytes
  refine ⟨rest[k], hbytes.symm, ?_⟩
  rw [List.getElem?_cons_succ, List.getElem?_cons_succ,
    List.getElem?_eq_getElem hin]

/-- Distinct numbers make the image what the objects say. -/
theorem genDisk_exclusive
    (hrun : genDisk randint files dirs nblocks =
      some (image, doubleCounted))
    (hbelow : ∀ f ∈ files ++ dirs, ∀ n ∈ f.numbers, n < nblocks)
    (hnodup : (usedNumbers (files ++ dirs)).Nodup) :
    Exclusive randint (files ++ dirs) image := by
  obtain ⟨state, htracks, -, hbytes⟩ := genDisk_eq hrun
  refine ⟨hnodup, fun f hf => ?_⟩
  have htwo : ∀ n ∈ f.numbers, 2 ≤ n := fun n hn => by
    have hmem := List.mem_flatMap.mpr ⟨f, hf, hn⟩
    obtain ⟨hzero, hrest⟩ := List.nodup_cons.mp hnodup
    have h0 : n ≠ 0 := by
      rintro rfl
      exact hzero (List.mem_cons_of_mem 1 hmem)
    have h1 : n ≠ 1 := by
      rintro rfl
      exact (List.nodup_cons.mp hrest).1 hmem
    omega
  obtain ⟨hinode, hdata⟩ := htracks.cells hnodup f hf
  constructor
  · have hself : f.inum ∈ f.numbers := List.mem_cons_self
    obtain ⟨bytes, hcell, himage⟩ :=
      hbytes _ (htwo _ hself) (hbelow f hf _ hself)
    rw [hinode] at hcell
    exact ⟨bytes, hcell, himage⟩
  · intro k b hb
    have hmem : b ∈ f.numbers :=
      List.mem_cons_of_mem _ (List.mem_of_getElem? hb)
    obtain ⟨bytes, hcell, himage⟩ :=
      hbytes b (htwo b hmem) (hbelow f hf b hmem)
    rw [hdata k b hb] at hcell
    exact ⟨bytes, hcell, himage⟩

/-- The loop reports reused data numbers only.  An image that it does not
complain about is as described exactly when the inode numbers are fresh. -/
theorem genDisk_exclusive_iff
    (hrun : genDisk randint files dirs nblocks =
      some (image, doubleCounted))
    (hbelow : ∀ f ∈ files ++ dirs, ∀ n ∈ f.numbers, n < nblocks) :
    (doubleCounted = [] → Exclusive randint (files ++ dirs) image) ↔
      ¬ DataFresh (files ++ dirs) ∨ InodesFresh (files ++ dirs) := by
  obtain ⟨state, htracks, hreport, -⟩ := genDisk_eq hrun
  rw [hreport, htracks.reported]
  constructor
  · intro hexclusive
    by_cases hdata : DataFresh (files ++ dirs)
    · exact Or.inr
        ((nodup_usedNumbers_iff _).mp (hexclusive hdata).1).2
    · exact Or.inl hdata
  · rintro (hreused | hinodes) hdata
    · exact absurd hdata hreused
    · exact genDisk_exclusive hrun hbelow
        ((nodup_usedNumbers_iff _).mpr ⟨hdata, hinodes⟩)

end

/-- An empty file with one data block. -/
def Sample.genFile (inum block : Nat) : GenObject :=
  ⟨.file, inum, [47, 97], 0, 0, 0o100666, 0, 0, 0, [block]⟩

def Sample.genRoot : GenObject :=
  ⟨.dir [(true, [97], 4), (true, [98], 4)], 2, [47], 0, 0, 0o040777, 0, 0,
    4096, [3]⟩

theorem genDisk_exclusive_iff_sample :
    ∃ image, genDisk (fun _ _ _ => 0) [Sample.genFile 4 5] [Sample.genRoot]
        6 = some (image, []) ∧
      ((([] : List Nat) = [] → Exclusive (fun _ _ _ => 0)
        ([Sample.genFile 4 5] ++ [Sample.genRoot]) image) ↔
          ¬ DataFresh ([Sample.genFile 4 5] ++ [Sample.genRoot]) ∨
          InodesFresh ([Sample.genFile 4 5] ++ [Sample.genRoot])) := by
  have hsome : (genDisk (fun _ _ _ => 0) [Sample.genFile 4 5]
      [Sample.genRoot] 6).map Prod.snd = some [] := by decide +kernel
  obtain ⟨⟨image, _⟩, hrun, rfl⟩ := Option.map_eq_some_iff.mp hsome
  exact ⟨image, hrun, genDisk_exclusive_iff hrun (by decide)⟩

/-- Two files with one inode number: nothing is reported, and the second
inode overwrites the first. -/
theorem genDisk_shared_inode :
    ∃ image, genDisk (fun _ _ _ => 0)
        [Sample.genFile 4 5, Sample.genFile 4 6] [Sample.genRoot] 7 =
          some (image, []) ∧
      (∀ f ∈ [Sample.genFile 4 5, Sample.genFile 4 6] ++ [Sample.genRoot],
        ∀ n ∈ f.numbers, n < 7) ∧
      ¬ Exclusive (fun _ _ _ => 0)
        ([Sample.genFile 4 5, Sample.genFile 4 6] ++ [Sample.genRoot])
        image := by
  have hsome : (genDisk (fun _ _ _ => 0)
      [Sample.genFile 4 5, Sample.genFile 4 6] [Sample.genRoot] 7).map
        Prod.snd = some [] := by decide +kernel
  obtain ⟨⟨image, _⟩, hrun, rfl⟩ := Option.map_eq_some_iff.mp hsome
  refine ⟨image, hrun, by decide, fun hexclusive => ?_⟩
  exact absurd hexclusive.1 (by decide)

end Fs5600
