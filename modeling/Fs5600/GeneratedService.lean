/-
The image of a description under the file system.  The description may be one
of a graph, like `disk1.in`, on whose image the unit tests try the calls that
only look; these calls answer what the description says.
-/
import Fs5600.Contents
import Fs5600.GeneratedListing
import Fs5600.Service

namespace Fs5600

open MachineWord EffectProgram Program

/-! What the description says. -/

/-- The valid entries in the first block of a directory; the calls look at no
other block. -/
def GenObject.seen (f : GenObject) : List (Name × Nat) :=
  ((f.entries.take 128).filter Prod.fst).map Prod.snd

def GenObject.stat (f : GenObject) : Stat := inodeToStat f.record

/-- The object behind an entry that is seen. -/
def GenObject.behind (objects : List GenObject) (f : GenObject)
    (name : Name) : Option GenObject :=
  (f.seen.find? fun hop => hop.1 == name).bind fun hop =>
    findObject objects hop.2

def lookupFrom (objects : List GenObject) :
    GenObject → List Name → Except Int GenObject
  | f, [] => .ok f
  | f, name :: names =>
      match f.kind, f.behind objects name with
      | .file, _ => .error (-eNotDir)
      | .dir _, none => .error (-eNoEnt)
      | .dir _, some g => lookupFrom objects g names

def lookup (objects : List GenObject) (path : CString) :
    Except Int GenObject :=
  match findObject objects 2 with
  | none => .error (-eNoEnt)
  | some root => lookupFrom objects root (parse path)

/-- What `filler` receives of a directory. -/
def GenObject.filled (objects : List GenObject) (f : GenObject) :
    List (Name × Stat) :=
  f.seen.filterMap fun hop =>
    (findObject objects hop.2).map fun g => (hop.1, g.stat)

/-- The calls that only look. -/
inductive Inquiry where
  | getattr (path : CString)
  | readdir (path : CString)
  | read (path : CString) (len : Nat) (offset : Int)
  | statfs

def Inquiry.call : Inquiry → Call
  | .getattr path => .getattr path
  | .readdir path => .readdir path
  | .read path len offset => .read path len offset
  | .statfs => .statfs

/-- The answer that a description gives. -/
def describedReply (randint : Randint) (objects : List GenObject)
    (nblocks : Nat) : Inquiry → Except Int Reply
  | .getattr path => do
      let f ← lookup objects path
      .ok (.attr f.stat)
  | .readdir path => do
      let f ← lookup objects path
      match f.kind with
      | .file => .error (-eNotDir)
      | .dir _ => .ok (.listing 0 (f.filled objects))
  | .read path len offset => do
      let f ← lookup objects path
      match f.kind with
      | .file =>
          let bytes := ((f.content randint).drop offset.toNat).take len
          .ok (.data bytes.length bytes)
      | .dir _ => .error (-eIsDir)
  | .statfs =>
      let free : UInt64 := .ofNat (nblocks - (usedNumbers objects).length)
      .ok (.vfs ⟨4096, .ofNat (nblocks - 2), free, free, 27⟩)

/-! Directories. -/

theorem find?_listedEntries (dir : Directory) (name : Name) :
    ((listedEntries dir).find? fun entry => entry.2.1 == name) =
      (firstNamed dir name).map fun slot =>
        (slot, (dir slot).nameString, (dir slot).inode.toNat) := by
  rw [listedEntries, flatMap_if, List.find?_map, List.find?_filter,
    firstNamed]
  congr 2
  funext slot
  rw [Function.comp_apply, Bool.decide_and, Bool.decide_eq_true,
    Bool.decide_eq_true]

/-- The image of a description, on a device that can be read. -/
structure Displays (randint : Randint) (objects : List GenObject)
    (nblocks : Nat) (world : World) : Prop where
  drawn : Drawn objects nblocks
  blocks : ∀ f ∈ objects, f.kind ≠ .file → f.blocks ≠ []
  generated : Generated randint objects nblocks world.disk
  size : world.device.size = nblocks
  reads : world.device.readFails = never

section

variable {randint : Randint} {objects : List GenObject} {nblocks : Nat}
  {world : World} (hdisplays : Displays randint objects nblocks world)

include hdisplays

theorem Displays.run_blockRead {b : Nat} (hb : b < nblocks) :
    run (blockRead b) world = some (.ok (world.disk b), world) := by
  have hfits := hdisplays.drawn.nblocks_le
  exact Fs5600.run_blockRead hdisplays.reads (hb.trans_eq hdisplays.size.symm)
    (by omega)

variable {f : GenObject} (hf : f ∈ objects)

include hf

theorem Displays.run_readInode :
    run (readInode f.inum) world = some (.ok f.record, world) := by
  have hlt := hdisplays.drawn.below f hf f.inum List.mem_cons_self
  rw [readInode, run_bind_ok (hdisplays.run_blockRead hlt)]
  exact congrArg (fun inode => some (Except.ok inode, world))
    (hdisplays.generated.inode f hf)

/-- Every pointer leads to a block of the image: the unused ones to the
superblock. -/
theorem Displays.ptr_lt (k : Nat) : f.record.ptr k < nblocks := by
  have hdrawn := hdisplays.drawn
  cases hb : f.blocks[k]? with
  | some b =>
      have hlt := hdrawn.below f hf b
        (List.mem_cons_of_mem _ (List.mem_of_getElem? hb))
      rw [(hdrawn.object f hf).record_ptr hb
        (hlt.trans_le hdrawn.nblocks_le)]
      exact hlt
  | none =>
      have hzero : f.record.ptr k = 0 := by
        rw [FsInode.ptr]
        split
        · rw [GenObject.record]
          simp only [List.getD_eq_getElem?_getD, hb, Option.getD_none]
          rfl
        · rfl
      rw [hzero]
      exact Nat.zero_lt_of_lt hdrawn.two_lt

theorem Displays.run_readDirectory (hkind : f.kind ≠ .file) :
    ∃ dir, run (readDirectory (wordToInt (f.record.ptrs 0))) world =
        some (.ok dir, world) ∧ listedEntries dir = f.slotsIn 0 := by
  have hdrawn := hdisplays.drawn
  have hlt := hdisplays.ptr_lt hf 0
  have hfits := hdrawn.nblocks_le
  have hpos := List.length_pos_iff.mpr (hdisplays.blocks f hf hkind)
  have hb := List.getElem?_eq_getElem hpos
  have hptr := hdisplays.generated.ptr hdrawn hf hb
  rw [hdisplays.generated.inode f hf] at hptr
  refine ⟨.decode (world.disk (f.record.ptr 0)), ?_, ?_⟩
  · rw [wordToInt_ptrs_zero _ (by omega), readDirectory,
      run_bind_ok (hdisplays.run_blockRead hlt)]
    rfl
  · rw [hptr]
    exact hdisplays.generated.listedEntries_eq hdrawn hf hkind hb

/-- The entries that are seen lead to objects. -/
theorem Displays.seen_target {hop : Name × Nat} (hhop : hop ∈ f.seen) :
    ∃ g ∈ objects, g.inum = hop.2 := by
  obtain ⟨entry, hentry, rfl⟩ := List.mem_map.mp hhop
  obtain ⟨hmem, hvalid⟩ := List.mem_filter.mp hentry
  exact hdisplays.drawn.target f hf entry.2.2 (List.mem_map_of_mem
    (List.mem_filter.mpr ⟨List.mem_of_mem_take hmem, hvalid⟩))

end

theorem GenObject.seen_eq (f : GenObject) :
    f.seen = (f.slotsIn 0).map Prod.snd := by
  rw [f.map_slotsIn, Nat.zero_mul, List.drop_zero, seen]

theorem GenObject.seen_eq_listed {f : GenObject} {dir : Directory}
    (hlisted : listedEntries dir = f.slotsIn 0) :
    f.seen = ((List.ofFn dir).filter fun entry => entry.valid).map
      fun entry => (entry.nameString, entry.inode.toNat) := by
  rw [f.seen_eq, ← hlisted, listedEntries, flatMap_if, List.map_map,
    List.ofFn_eq_map, List.filter_map, List.map_map]
  rfl

theorem GenObject.find?_seen {f : GenObject} {dir : Directory}
    (hlisted : listedEntries dir = f.slotsIn 0) (name : Name) :
    (f.seen.find? fun hop => hop.1 == name) =
      (firstNamed dir name).map fun slot =>
        ((dir slot).nameString, (dir slot).inode.toNat) := by
  have hfound := find?_listedEntries dir name
  rw [f.seen_eq, List.find?_map, ← hlisted]
  exact (congrArg (Option.map Prod.snd) hfound).trans (Option.map_map _ _ _)

/-! The calls. -/

theorem run_map {A B : Type} {code : Fs A} {next : A → B}
    {world world' : World} {result : Except Int A}
    (hrun : run code world = some (result, world')) :
    run (do pure (next (← code))) world =
      some (result.map next, world') := by
  cases result with
  | error status => exact run_bind_error hrun
  | ok value => exact run_bind_ok hrun

theorem mem_of_lookupFrom {objects : List GenObject} {f g : GenObject}
    (hf : f ∈ objects) {names : List Name}
    (hlookup : lookupFrom objects f names = .ok g) : g ∈ objects := by
  induction names generalizing f with
  | nil =>
      cases hlookup
      exact hf
  | cons name names ih =>
      rw [lookupFrom] at hlookup
      split at hlookup
      next => cases hlookup
      next => cases hlookup
      next g' _ hbehind =>
        obtain ⟨hop, -, hfound⟩ := Option.bind_eq_some_iff.mp hbehind
        exact ih (List.mem_of_find?_eq_some hfound) hlookup

section

variable {randint : Randint} {objects : List GenObject} {nblocks : Nat}
  {world : World} (hdisplays : Displays randint objects nblocks world)

include hdisplays

theorem Displays.run_translateLoop {f : GenObject} (hf : f ∈ objects)
    (tokens : List Name) :
    run (translateLoop f.inum tokens) world =
      some ((lookupFrom objects f tokens).map fun g => (g.inum : Int),
        world) := by
  have hdrawn := hdisplays.drawn
  induction tokens generalizing f with
  | nil => rfl
  | cons token tokens ih =>
      have hdir := (hdrawn.object f hf).isDir_iff
      rw [translateLoop, run_bind_ok (hdisplays.run_readInode hf),
        run_rejectIf_bind, lookupFrom]
      rcases f.kind_cases with ⟨hkind, -⟩ | hkind
      · rw [if_pos fun h => hdir.mp h hkind, hkind]
        rfl
      · have hfile : f.kind ≠ .file := by simp [hkind]
        obtain ⟨dir, hread, hlisted⟩ := hdisplays.run_readDirectory hf hfile
        have hfound := GenObject.find?_seen hlisted token
        rw [if_neg (not_not.mpr (hdir.mpr hfile)), run_bind_ok hread, hkind,
          GenObject.behind, hfound]
        simp only [translateScan_eq]
        cases hslot : firstNamed dir token with
        | none => simp [run_rejectIf_bind, Except.map]
        | some slot =>
            rw [hslot] at hfound
            obtain ⟨g, hg, hnum⟩ := hdisplays.seen_target hf
              (List.mem_of_find?_eq_some hfound)
            dsimp only [Option.map_some] at hnum
            simp only [Option.map_some, Option.bind_some, ← hnum,
              hdrawn.findObject_eq hg]
            rw [run_rejectIf_bind, if_neg (by omega), ih hg]

theorem Displays.mem_of_lookup {path : CString} {f : GenObject}
    (hlookup : lookup objects path = .ok f) : f ∈ objects := by
  obtain ⟨root, hroot, hinum⟩ := hdisplays.drawn.root
  have hfound := hdisplays.drawn.findObject_eq hroot
  rw [hinum] at hfound
  rw [lookup, hfound] at hlookup
  exact mem_of_lookupFrom hroot hlookup

/-- Paths lead where they lead in the description. -/
theorem Displays.run_pathToInode (path : CString) :
    run (pathToInode path 0) world =
      some ((lookup objects path).map fun f => ((f.inum : Int), f.record),
        world) := by
  obtain ⟨root, hroot, hinum⟩ := hdisplays.drawn.root
  have hfound := hdisplays.drawn.findObject_eq hroot
  have hloop := hdisplays.run_translateLoop hroot (parse path)
  rw [hinum] at hfound hloop
  have htranslate : run (translate (parse path) 0) world =
      some ((lookup objects path).map fun f => (f.inum : Int), world) := by
    rw [lookup, hfound, translate, if_pos (Nat.zero_le _), Nat.sub_zero,
      List.take_length]
    exact hloop
  cases hlookup : lookup objects path with
  | error status =>
      rw [hlookup] at htranslate
      exact run_bind_error htranslate
  | ok f =>
      rw [hlookup] at htranslate
      rw [Fs5600.pathToInode, run_bind_ok htranslate,
        run_bind_ok (hdisplays.run_readInode (hdisplays.mem_of_lookup hlookup))]
      rfl

theorem Displays.run_readdirLoop {entries : List FsDirent}
    (hentries : ∀ entry ∈ entries, entry.valid = true →
      ∃ g ∈ objects, g.inum = entry.inode.toNat) :
    run (readdirLoop entries) world =
      some (.ok (0, ((entries.filter fun entry => entry.valid).map
        fun entry => (entry.nameString, entry.inode.toNat)).filterMap
          fun hop => (findObject objects hop.2).map
            fun g => (hop.1, g.stat)), world) := by
  induction entries with
  | nil => rfl
  | cons entry entries ih =>
      have hrest := ih fun entry' hmem =>
        hentries entry' (List.mem_cons_of_mem entry hmem)
      rw [readdirLoop]
      by_cases hvalid : entry.valid = true
      · obtain ⟨g, hg, hnum⟩ := hentries entry List.mem_cons_self hvalid
        have hread := hdisplays.run_readInode hg
        have hfound := hdisplays.drawn.findObject_eq hg
        rw [hnum] at hread hfound
        rw [if_pos hvalid, run_bind_ok (run_attempt hread),
          List.filter_cons_of_pos hvalid, List.map_cons]
        dsimp only
        rw [run_bind_ok hrest, List.filterMap_cons, hfound]
        rfl
      · rw [if_neg hvalid, List.filter_cons_of_neg hvalid]
        exact hrest

theorem Displays.run_fsReaddir (path : CString) :
    run (fsReaddir path) world =
      some ((lookup objects path).bind fun f =>
        match f.kind with
        | .file => .error (-eNotDir)
        | .dir _ => .ok ((0 : Int), f.filled objects), world) := by
  have hfound := hdisplays.run_pathToInode path
  cases hlookup : lookup objects path with
  | error status =>
      rw [hlookup] at hfound
      exact run_bind_error hfound
  | ok f =>
      have hf := hdisplays.mem_of_lookup hlookup
      have hdir := (hdisplays.drawn.object f hf).isDir_iff
      rw [hlookup] at hfound
      rw [fsReaddir, run_bind_ok hfound]
      dsimp only
      rw [run_rejectIf_bind]
      rcases f.kind_cases with ⟨hkind, -⟩ | hkind
      · rw [if_pos fun h => hdir.mp h hkind]
        simp only [Except.bind, hkind]
      · have hfile : f.kind ≠ .file := by simp [hkind]
        obtain ⟨dir, hread, hlisted⟩ := hdisplays.run_readDirectory hf hfile
        have hseen := GenObject.seen_eq_listed hlisted
        have htarget : ∀ entry ∈ List.ofFn dir, entry.valid = true →
            ∃ g ∈ objects, g.inum = entry.inode.toNat := by
          intro entry hmem hvalid
          have hhop : (entry.nameString, entry.inode.toNat) ∈ f.seen := by
            rw [hseen]
            exact List.mem_map_of_mem (List.mem_filter.mpr ⟨hmem, hvalid⟩)
          exact hdisplays.seen_target hf hhop
        have hloop := hdisplays.run_readdirLoop htarget
        rw [← hseen] at hloop
        rw [if_neg (not_not.mpr (hdir.mpr hfile)),
          run_bind_ok (run_attempt hread)]
        simp only [Except.bind, hkind]
        exact hloop

end

/-! Reads. -/

/-- A read of a file whose slots can be read, the one behind its blocks
included. -/
theorem run_fsRead_covered {world : World} {path : CString} {inum : Int}
    {inode : FsInode} (hfound : run (pathToInode path 0) world =
      some (.ok (inum, inode), world)) (hreg : inode.isReg = true) {n : Nat}
    (hsize : inode.size.toInt = n) (hcount : blockCount n ≤ 1018)
    {block : Nat → Block}
    (hslots : ∀ k ≤ blockCount n, ReadsSlot world inode k (block k))
    {o len : Nat} (hlen : 1 ≤ len)
    (hbound : o + len < 9223372036854775808) :
    run (fsRead path len o) world =
      some (.ok (((min len (n - o) : Nat) : Int),
        (((List.range n).map (blockByte block)).drop o).take len),
        world) := by
  have hn : n ≤ 4169728 := by
    rw [blockCount] at hcount
    omega
  rw [fsRead, run_bind_ok hfound, run_rejectIf_bind, if_neg (not_not.mpr hreg)]
  dsimp only
  rw [hsize]
  by_cases hpast : (o : Int) ≥ n
  · have hnone : n ≤ o := by omega
    rw [if_pos hpast, Nat.sub_eq_zero_of_le hnone, Nat.min_zero,
      List.drop_of_length_le (by simpa using hnone), List.take_nil]
    rfl
  · rw [if_neg hpast]
    have hbytes : (((List.range n).map (blockByte block)).drop o).take len =
        (List.range' o (min len (n - o))).map (blockByte block) := by
      rw [← List.map_drop, ← List.map_take, List.range_eq_range',
        List.drop_range', Nat.mul_one, Nat.zero_add]
      congr 1
      rcases Nat.le_total len (n - o) with hle | hle
      · rw [Nat.min_eq_left hle, List.take_range'_of_length_ge hle]
      · rw [Nat.min_eq_right hle, List.take_range'_of_length_le hle]
    rw [hbytes]
    generalize hm : min len (n - o) = m
    have hone : 1 ≤ m := by omega
    have hfit : o + m ≤ n := by omega
    have hrest : ∀ count, o % 4096 + m ≤ 4096 * count →
        o / 4096 + count ≤ blockCount n + 1 →
        run (do
          let blkBuf ← readBlocks inode count (o / 4096 : Nat)
          let bytes ← copyOut blkBuf (o % 4096 : Nat) (m : Nat)
          pure (toInt32 m, bytes)) world =
            some (.ok ((m : Int),
              (List.range' o m).map (blockByte block)), world) := by
      intro count hlong hrange
      have hblocks := run_readBlocks inode block count (o / 4096)
        fun k _ hk => hslots k (by omega)
      have hcopy := run_copyOut ((List.range' (o / 4096) count).flatMap
        fun k => List.ofFn (block k)) (o % 4096) m (by
          rw [flatMap_blocks, List.length_map, List.length_range']
          exact hlong) world
      rw [copied_bytes _ hlong] at hcopy
      rw [run_bind_ok hblocks, run_bind_ok hcopy, toInt32_natCast (by omega)]
      rfl
    obtain ⟨hstart, hoff, hend⟩ := writeRange_eq o hone (by omega)
    have hsum : toSize ((o : Int) + len) = ((o + len : Nat) : Int) := by
      rw [toSize_of_lt (by omega) (by omega)]
      rfl
    have hall : toSize (n : Int) = n := toSize_of_lt (by omega) (by omega)
    have hnomem : ∀ count : Nat, count < 2147483648 →
        ¬ toInt32 (count : Int) < 0 := fun count hlt => by
      rw [toInt32_natCast hlt]
      omega
    simp only [hsum, hall, hstart, hoff]
    by_cases hbeyond : ((o + len : Nat) : Int) > n
    · obtain rfl : m = n - o := by omega
      have hleft : toSize ((n : Int) - o) = ((n - o : Nat) : Int) := by
        rw [toSize_of_lt (by omega) (by omega)]
        omega
      have hblocks : (blockCount n : Int) - (o / 4096 : Nat) + 1 =
          ((blockCount n - o / 4096 + 1 : Nat) : Int) := by
        rw [blockCount]
        omega
      simp only [hbeyond, decide_true, ↓reduceIte, sizeInBlocks_natCast,
        hleft, hblocks, Int.toNat_natCast]
      rw [run_rejectIf_bind, if_neg (hnomem _ (by omega))]
      exact hrest _ (by rw [blockCount]; omega) (by rw [blockCount]; omega)
    · obtain rfl : m = len := by omega
      have hblocks : (((o + m - 1) / 4096 : Nat) : Int) -
          (o / 4096 : Nat) + 1 =
            (((o + m - 1) / 4096 - o / 4096 + 1 : Nat) : Int) := by
        omega
      simp only [hbeyond, decide_false, Bool.false_eq_true, ↓reduceIte, hend,
        hblocks, Int.toNat_natCast]
      rw [run_rejectIf_bind, if_neg (hnomem _ (by omega))]
      exact hrest _ (by omega) (by rw [blockCount]; omega)

theorem Drawn.length_numbers {objects : List GenObject} {nblocks : Nat}
    (hdrawn : Drawn objects nblocks) :
    (usedNumbers objects).toFinset.card = (usedNumbers objects).length ∧
      (usedNumbers objects).toFinset ⊆ Finset.range nblocks := by
  refine ⟨List.toFinset_card_of_nodup hdrawn.nodup, fun n hn => ?_⟩
  have htwo := hdrawn.two_lt
  rw [List.mem_toFinset, usedNumbers, List.mem_cons, List.mem_cons,
    List.mem_flatMap] at hn
  rw [Finset.mem_range]
  rcases hn with rfl | rfl | ⟨f, hf, hmem⟩
  · omega
  · omega
  · exact hdrawn.below f hf n hmem

section

variable {randint : Randint} {objects : List GenObject} {nblocks : Nat}
  {world : World} (hdisplays : Displays randint objects nblocks world)

include hdisplays

theorem Displays.blockCount_le {f : GenObject} (hf : f ∈ objects) :
    blockCount f.size.toNat ≤ 400 := by
  have hdrawn := hdisplays.drawn
  have hnodup := (List.nodup_flatMap.mp hdrawn.nodup_numbers).1 f hf
  have hsubset : f.numbers.toFinset ⊆ Finset.range nblocks := fun n hn =>
    Finset.mem_range.mpr (hdrawn.below f hf n (List.mem_toFinset.mp hn))
  have hcard := Finset.card_le_card hsubset
  have hfits := hdrawn.nblocks_le
  have hsize := (hdrawn.object f hf).size.2
  rw [List.toFinset_card_of_nodup hnodup, Finset.card_range,
    GenObject.numbers, List.length_cons] at hcard
  omega

theorem Displays.readsSlot {f : GenObject} (hf : f ∈ objects) {k : Nat}
    (hk : k < 1019) :
    ReadsSlot world f.record k (world.disk (f.record.ptr k)) := by
  have hlt := hdisplays.ptr_lt hf k
  have hfits := hdisplays.drawn.nblocks_le
  refine ⟨hk, ?_⟩
  rw [wordToInt_ptrs _ ⟨k, hk⟩ (by dsimp only; omega)]
  exact hdisplays.run_blockRead hlt

/-- The bytes of the file on the image. -/
theorem Displays.content_eq {f : GenObject} (hf : f ∈ objects)
    (hkind : f.kind = .file) :
    (List.range f.size.toNat).map
        (blockByte fun k => world.disk (f.record.ptr k)) =
      f.content randint := by
  have hdrawn := hdisplays.drawn
  have hobject := hdrawn.object f hf
  refine List.map_congr_left fun o ho => ?_
  rw [List.mem_range] at ho
  have hk : o / 4096 < f.blocks.length := by
    have hsize := hobject.size.2
    rw [blockCount] at hsize
    omega
  have hb := List.getElem?_eq_getElem hk
  have hdata := hdisplays.generated.data f hf _ _ hb
  have hptr := hdisplays.generated.ptr hdrawn hf hb
  rw [GenObject.block, hkind, Option.some.injEq] at hdata
  rw [hdisplays.generated.inode f hf] at hptr
  rw [blockByte, blockByte, hptr, ← hdata]

theorem Displays.run_fsRead (path : CString) {len : Nat} (hlen : 1 ≤ len)
    {o : Nat} (hbound : o + len < 9223372036854775808) :
    run (fsRead path len o) world =
      some ((lookup objects path).bind fun f =>
        match f.kind with
        | .file => .ok (((((f.content randint).drop o).take len).length : Int),
            ((f.content randint).drop o).take len)
        | .dir _ => .error (-eIsDir), world) := by
  have hfound := hdisplays.run_pathToInode path
  cases hlookup : lookup objects path with
  | error status =>
      rw [hlookup] at hfound
      exact run_bind_error hfound
  | ok f =>
      have hf := hdisplays.mem_of_lookup hlookup
      have hobject := hdisplays.drawn.object f hf
      have hreg := hobject.isReg_iff
      rw [hlookup] at hfound
      rcases f.kind_cases with ⟨hkind, -⟩ | hkind
      · have hcount := hdisplays.blockCount_le hf
        have hsize : f.record.size.toInt = f.size.toNat := by
          rw [hobject.record_size, Int.toNat_of_nonneg hobject.size.1]
        have hread := run_fsRead_covered hfound (hreg.mpr hkind) hsize
          (by omega) (fun k hk => hdisplays.readsSlot hf (by omega)) hlen
          hbound
        rw [hdisplays.content_eq hf hkind] at hread
        have hlength : (((f.content randint).drop o).take len).length =
            min len (f.size.toNat - o) := by
          rw [List.length_take, List.length_drop, GenObject.content,
            List.length_map, List.length_range]
        simp only [Except.bind, hkind, hlength]
        exact hread
      · have hfile : ¬ f.record.isReg = true := fun h => by
          rw [hreg, hkind] at h
          cases h
        rw [fsRead, run_bind_ok hfound, run_rejectIf_bind, if_pos hfile]
        simp only [Except.bind, hkind]

theorem Displays.freeCount_eq :
    freeCount (world.disk 1) nblocks =
      nblocks - (usedNumbers objects).length := by
  obtain ⟨hcard, hsubset⟩ := hdisplays.drawn.length_numbers
  have hfree : ((Finset.range nblocks).filter
      fun i => ¬ Marked (world.disk 1) i) =
        Finset.range nblocks \ (usedNumbers objects).toFinset := by
    ext i
    rw [Finset.mem_filter, Finset.mem_sdiff, List.mem_toFinset,
      hdisplays.generated.marked]
  rw [freeCount_eq_card, hfree, Finset.card_sdiff_of_subset hsubset,
    Finset.card_range, hcard]

theorem Displays.boot : Displays randint objects nblocks world.boot :=
  ⟨hdisplays.drawn, hdisplays.blocks, hdisplays.generated, hdisplays.size,
    hdisplays.reads⟩

theorem Displays.run_fsInit :
    run fsInit world = some (.ok 0, world.boot) := by
  have hdrawn := hdisplays.drawn
  have htwo := hdrawn.two_lt
  have hfits := hdrawn.nblocks_le
  have hsize := hdisplays.size
  have hread : ∀ (lba : Int) (b : Nat), lba = b → b < 3 →
      ∀ (keep : Block → Globals → Globals) (globals : Globals),
        run (initRead lba keep) ⟨world.device, globals⟩ =
          some (.ok 0, ⟨world.device, keep (world.disk b) globals⟩) := by
    intro lba b hlba hb keep globals
    exact run_initRead ⟨world.device, globals⟩ hlba hdisplays.reads
      (show b < world.device.size by omega) (by omega) keep
  have hfirst := fun keep => hread 0 0 rfl (by omega) keep world.globals
  have hle : world.disk.diskSize ≤ 32768 := by
    rw [hdisplays.generated.diskSize hdrawn]
    omega
  rw [Fs5600.fsInit, run_bind_ok (hfirst _), if_neg (by decide),
    run_bind_ok (hread 1 1 rfl (by omega) _ _), if_neg (by decide),
    run_bind_ok (hread 2 2 rfl (by omega) _ _), if_neg (by decide),
    run_bind_ok (run_loadGlobals _)]
  exact (run_require_bind _ _ _).trans (if_pos hle)

theorem Displays.statVfs_eq :
    world.disk.loaded.statVfs =
      ⟨4096, .ofNat (nblocks - 2),
        .ofNat (nblocks - (usedNumbers objects).length),
        .ofNat (nblocks - (usedNumbers objects).length), 27⟩ := by
  have hdrawn := hdisplays.drawn
  have htwo := hdrawn.two_lt
  have hfits := hdrawn.nblocks_le
  have hblocks : (world.disk.superblock.diskSize - 2).toUInt64 =
      .ofNat (nblocks - 2) := by
    have hle : (2 : UInt32) ≤ .ofNat nblocks := by
      rw [UInt32.le_iff_toNat_le, UInt32.toNat_ofNat']
      change 2 ≤ _
      omega
    rw [hdisplays.generated.superblock, ← UInt64.toNat_inj,
      UInt32.toNat_toUInt64, UInt32.toNat_sub_of_le _ _ hle,
      UInt32.toNat_ofNat', UInt64.toNat_ofNat']
    change nblocks % 4294967296 - 2 = _
    omega
  rw [Disk.loaded, hblocks, hdisplays.generated.diskSize hdrawn,
    hdisplays.freeCount_eq]

/-- A call that only looks is answered as described, and leaves everything as
it is. -/
theorem Displays.run_perform {request : Request} {inquiry : Inquiry}
    (hcall : request.call = inquiry.call)
    (hcontract : inquiry.call.Contract) :
    run request.perform world.boot =
      some (describedReply randint objects nblocks inquiry, world.boot) := by
  have hboot := hdisplays.boot
  rw [Request.perform, hcall]
  cases inquiry with
  | getattr path =>
      have hattr : run (fsGetattr path) world.boot =
          some ((lookup objects path).map GenObject.stat, world.boot) := by
        rw [fsGetattr, run_map (hboot.run_pathToInode path)]
        cases lookup objects path <;> rfl
      refine (run_map hattr).trans ?_
      rw [describedReply]
      cases lookup objects path <;> rfl
  | readdir path =>
      refine (run_map (hboot.run_fsReaddir path)).trans ?_
      rw [describedReply]
      cases lookup objects path with
      | error status => rfl
      | ok f =>
          dsimp only [Except.bind, Bind.bind]
          cases f.kind <;> rfl
  | read path len offset =>
      obtain ⟨hlen, hoffset, hbound⟩ := hcontract
      obtain ⟨o, rfl⟩ := Int.eq_ofNat_of_zero_le hoffset
      refine (run_map (hboot.run_fsRead path hlen
        (show o + len < 9223372036854775808 by omega))).trans ?_
      rw [describedReply]
      cases lookup objects path with
      | error status => rfl
      | ok f =>
          dsimp only [Except.bind, Bind.bind]
          cases f.kind <;> rfl
  | statfs =>
      have hstat : run fsStatfs world.boot =
          some (.ok world.disk.loaded.statVfs, world.boot) := rfl
      refine (run_map hstat).trans ?_
      rw [hdisplays.statVfs_eq]
      rfl

theorem Displays.serve_inquiries {inquiries : List Inquiry}
    {requests : List Request}
    (hcalls : requests.map Request.call = inquiries.map Inquiry.call)
    (hcontract : ∀ inquiry ∈ inquiries, inquiry.call.Contract) :
    serve requests world.boot =
      some (inquiries.map (describedReply randint objects nblocks),
        world.boot) := by
  induction inquiries generalizing requests with
  | nil =>
      rw [List.map_nil, List.map_eq_nil_iff] at hcalls
      rw [hcalls]
      rfl
  | cons inquiry inquiries ih =>
      obtain ⟨request, requests, rfl, hcall, hrest⟩ :=
        List.map_eq_cons_iff.mp hcalls
      rw [List.forall_mem_cons] at hcontract
      rw [serve_cons requests (hdisplays.run_perform hcall hcontract.1),
        ih hrest hcontract.2]
      rfl

end

def Sample.pathDA : CString := ⟨[47, 100, 47, 97], by decide⟩

/-- The file under both of its names that are seen. -/
def Sample.inquiries : List Inquiry :=
  [.getattr Sample.pathA, .readdir Sample.pathD, .read Sample.pathDA 100 4990,
    .readdir Sample.pathDA, .statfs]

example : (lookup [Sample.genA, Sample.linkedTop, Sample.linkedD]
    Sample.pathDA).map GenObject.inum = .ok 4 := by decide

example : (lookup [Sample.genA, Sample.linkedTop, Sample.linkedD]
    ⟨[47, 98], by decide⟩).map GenObject.inum = .error (-eNoEnt) := by decide

end Fs5600
