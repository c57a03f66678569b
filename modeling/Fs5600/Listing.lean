/-
The listing of a directory against the lookup of its names: `fs_readdir`
reports what `fs_getattr` finds, once each.
-/
import Fs5600.Queries

namespace Fs5600

open MachineWord EffectProgram Program

/-! Paths below a path. -/

/-- `path/name`. -/
def CString.child (path : CString) (name : Name) (hname : ValidName name) :
    CString where
  bytes := path.bytes ++ slash :: name
  nul_free := by
    rw [List.mem_append, List.mem_cons, not_or, not_or]
    exact ⟨path.nul_free, by decide, hname.nul_free⟩

theorem components_child (path : CString) {name : Name}
    (hname : ValidName name) :
    components (path.child name hname) = components path ++ [name] := by
  rw [components, CString.child, List.splitOn_append_cons_self,
    List.splitOn_eq_singleton hname.slash_free, List.filter_append,
    List.map_append, components]
  congr 1
  have hne : name ≠ [] := hname.ne_nil
  rw [List.filter_cons_of_pos (by simpa using hne), List.filter_nil,
    List.map_singleton, maxNameLen, List.take_of_length_le hname.length_le]

theorem parse_child {path : CString}
    (hlen : (components path).length ≤ 9) {name : Name}
    (hname : ValidName name) :
    parse (path.child name hname) = parse path ++ [name] := by
  rw [parse_eq_components (by rw [components_child]; simp; omega),
    components_child, parse_eq_components (by omega)]

theorem parse_parent {path parent : CString}
    (hlen : (components path).length ≤ 10)
    (hparent : components parent = (components path).dropLast) :
    parse parent = (parse path).dropLast := by
  rw [parse_eq_components hlen, ← hparent]
  refine parse_eq_components ?_
  rw [hparent, List.length_dropLast]
  omega

theorem leaf_eq {path : CString} {names : List Name} {name : Name}
    (hnames : names ++ [name] = parse path) : leaf path = name := by
  rw [leaf, ← hnames, List.getLastD_concat]

/-! Names of a directory. -/

/-- A valid entry has a name that can be looked up. -/
theorem DirectoryOk.validName {dir : Directory} (hdir : DirectoryOk dir)
    {slot : Slot} (hvalid : (dir slot).valid = true) :
    ValidName (dir slot).nameString where
  ne_nil := hdir.nonempty slot hvalid
  length_le := by
    by_contra hlen
    have hprefix := List.takeWhile_prefix (l := List.ofFn (dir slot).name)
      (· != 0)
    have hlength := hprefix.length_le
    rw [List.length_ofFn] at hlength
    change (dir slot).nameString.length ≤ 28 at hlength
    have hall : (dir slot).nameString = List.ofFn (dir slot).name :=
      hprefix.eq_of_length (by
        rw [List.length_ofFn]
        change (dir slot).nameString.length = 28
        omega)
    have hmem : (0 : UInt8) ∈ (dir slot).nameString := by
      rw [hall, List.mem_ofFn]
      exact ⟨27, hdir.last_zero slot⟩
    simpa using List.mem_takeWhile_imp hmem
  nul_free := fun hmem => by simpa using List.mem_takeWhile_imp hmem
  slash_free := hdir.slash_free slot hvalid

/-- A name that leaves its entry is not found any more. -/
theorem firstNamed_gone {dir dir' : Directory} (hdir : DirectoryOk dir)
    {slot : Slot} (hvalid : (dir slot).valid = true)
    (hothers : ∀ slot', slot' ≠ slot → dir' slot' = dir slot')
    (hgone : (dir' slot).valid = true →
      (dir' slot).nameString ≠ (dir slot).nameString) :
    firstNamed dir' (dir slot).nameString = none := by
  refine firstNamed_eq_none.mpr fun slot' hvalid' hsame => ?_
  by_cases hslot : slot' = slot
  · rw [hslot] at hvalid' hsame
    exact hgone hvalid' hsame
  · rw [hothers slot' hslot] at hvalid' hsame
    exact hslot (hdir.distinct _ _ hvalid' hvalid hsame)

theorem Disk.resolve_gone {disk : Disk} {names : List Name} {name : Name}
    {site : List Slot} {i : Nat}
    (hresolve : disk.resolve names = .ok (site, i))
    (hdir : (disk.inode i).isDir = true)
    (hgone : firstNamed (disk.entries i) name = none) :
    disk.resolve (names ++ [name]) = .error (-eNoEnt) := by
  rw [Disk.resolve_snoc, hresolve]
  simp only [Except.bind, hdir, hgone, ↓reduceIte]

/-- The slots of a directory that are in use. -/
def Directory.slots (dir : Directory) : List Slot :=
  (List.finRange 128).filter fun slot => (dir slot).valid

theorem Directory.mem_slots {dir : Directory} {slot : Slot} :
    slot ∈ dir.slots ↔ (dir slot).valid = true := by
  rw [slots, List.mem_filter]
  exact and_iff_right (List.mem_finRange slot)

theorem Directory.slots_nodup (dir : Directory) : dir.slots.Nodup :=
  (List.nodup_finRange 128).filter _

theorem Disk.listing_eq_map (disk : Disk) (dir : Directory) :
    disk.listing dir = dir.slots.map fun slot =>
      ((dir slot).nameString,
        inodeToStat (disk.inode (dir slot).inode.toNat)) := by
  rw [Disk.listing, List.ofFn_eq_map, List.filter_map, List.map_map]
  rfl

section

variable {disk : Disk} {dir : Directory}

theorem Disk.mem_listing {name : Name} {stat : Stat} :
    (name, stat) ∈ disk.listing dir ↔
      ∃ slot, (dir slot).valid = true ∧ (dir slot).nameString = name ∧
        stat = inodeToStat (disk.inode (dir slot).inode.toNat) := by
  simp only [Disk.listing_eq_map, List.mem_map, Directory.mem_slots,
    Prod.mk.injEq, eq_comm (a := stat)]

/-- With distinct names, a name is listed when the search finds it. -/
theorem Disk.mem_listing_iff (hdir : DirectoryOk dir) {name : Name}
    {stat : Stat} :
    (name, stat) ∈ disk.listing dir ↔
      ∃ slot, firstNamed dir name = some slot ∧
        stat = inodeToStat (disk.inode (dir slot).inode.toNat) := by
  rw [mem_listing]
  constructor
  · rintro ⟨slot, hvalid, rfl, hstat⟩
    exact ⟨slot, firstNamed_of_entry hdir hvalid, hstat⟩
  · rintro ⟨slot, hfound, hstat⟩
    obtain ⟨hvalid, hname⟩ := firstNamed_eq_some hfound
    exact ⟨slot, hvalid, hname, hstat⟩

/-- No name is listed twice. -/
theorem Disk.listing_nodup (hdir : DirectoryOk dir) :
    ((disk.listing dir).map Prod.fst).Nodup := by
  rw [Disk.listing_eq_map, List.map_map]
  refine List.Nodup.map_on ?_ dir.slots_nodup
  intro slot hslot slot' hslot' hname
  exact hdir.distinct slot slot' (Directory.mem_slots.mp hslot)
    (Directory.mem_slots.mp hslot') hname

end

/-- One more entry is one more in the listing. -/
theorem Disk.listing_perm {disk disk' : Disk} {dir dir' : Directory}
    {slot : Slot} (hfree : (dir slot).valid = false)
    (hused : (dir' slot).valid = true)
    (hothers : ∀ slot', slot' ≠ slot → dir' slot' = dir slot')
    (hinodes : ∀ slot', (dir slot').valid = true →
      disk'.inode (dir slot').inode.toNat =
        disk.inode (dir slot').inode.toNat) :
    (disk'.listing dir').Perm
      (((dir' slot).nameString,
        inodeToStat (disk'.inode (dir' slot).inode.toNat)) ::
          disk.listing dir) := by
  have hnew : slot ∉ dir.slots := by
    rw [Directory.mem_slots, hfree]
    exact Bool.false_ne_true
  have hslots : dir'.slots.Perm (slot :: dir.slots) := by
    refine (List.perm_ext_iff_of_nodup dir'.slots_nodup
      (List.nodup_cons.mpr ⟨hnew, dir.slots_nodup⟩)).mpr fun slot' => ?_
    rw [List.mem_cons, Directory.mem_slots, Directory.mem_slots]
    by_cases hslot : slot' = slot
    · rw [hslot]
      exact iff_of_true hused (Or.inl rfl)
    · rw [hothers slot' hslot]
      exact (or_iff_right hslot).symm
  rw [Disk.listing_eq_map, Disk.listing_eq_map]
  refine (hslots.map _).trans (List.Perm.of_eq ?_)
  rw [List.map_cons]
  congr 1
  refine List.map_congr_left fun slot' hmem => ?_
  rw [hothers slot' fun hslot => hnew (hslot ▸ hmem),
    hinodes slot' (Directory.mem_slots.mp hmem)]

/-- What `fs_getattr` says of `path/name` when `path` is a directory. -/
theorem Mounted.run_getattr_child {world : World} (hmount : Mounted world)
    {path : CString} (hlen : (components path).length ≤ 9)
    {site : List Slot} {inum : Nat}
    (hresolve : world.disk.resolve (parse path) = .ok (site, inum))
    (hdir : (world.disk.inode inum).isDir = true) {name : Name}
    (hname : ValidName name) :
    run (fsGetattr (path.child name hname)) world =
      some (match firstNamed (world.disk.entries inum) name with
        | none => .error (-eNoEnt)
        | some slot => .ok (inodeToStat (world.disk.inode
            (world.disk.entries inum slot).inode.toNat)), world) := by
  have hsnoc : world.disk.resolve _ = _ :=
    Disk.resolve_snoc (parse path) name
  rw [hresolve, ← parse_child hlen hname] at hsnoc
  simp only [Except.bind, hdir, ↓reduceIte] at hsnoc
  cases hfound : firstNamed (world.disk.entries inum) name with
  | none =>
      rw [hfound] at hsnoc
      exact run_bind_error (hmount.run_target_error hsnoc)
  | some slot =>
      rw [hfound] at hsnoc
      rw [fsGetattr, run_bind_ok (hmount.run_target hsnoc)]
      rfl

/-- `fs_readdir` calls `filler` once for each name that `fs_getattr` finds in
the directory, with the attributes that it finds. -/
theorem readdir_agrees {world : World} (hreach : Reachable world)
    {path : CString} (hlen : (components path).length ≤ 9) {inum : Int}
    {inode : FsInode}
    (hfound : run (pathToInode path 0) world =
      some (.ok (inum, inode), world))
    (hdir : sIsDir inode.mode = true) :
    ∃ filled, run (fsReaddir path) world =
        some (.ok (0, filled), world) ∧
      (filled.map Prod.fst).Nodup ∧
      (∀ entry ∈ filled, ValidName entry.1) ∧
      ∀ name (hname : ValidName name) stat,
        (name, stat) ∈ filled ↔
          run (fsGetattr (path.child name hname)) world =
            some (.ok stat, world) := by
  have hmount := hreach.steady.toMounted
  obtain ⟨site, i, hresolve, rfl, rfl, -⟩ := hmount.resolve_of_run hfound
  have hnode := Disk.node_of_resolve hresolve
  have hnames := (hmount.consistent.object _ _ _ hnode).names hdir
  refine ⟨_, hmount.run_fsReaddir hresolve hdir, Disk.listing_nodup hnames,
    ?_, ?_⟩
  · rintro ⟨name, stat⟩ hmem
    obtain ⟨slot, hvalid, rfl, -⟩ := Disk.mem_listing.mp hmem
    exact hnames.validName hvalid
  · intro name hname stat
    rw [hmount.run_getattr_child hlen hresolve hdir hname,
      Disk.mem_listing_iff hnames]
    cases firstNamed (world.disk.entries i) name with
    | none => simp
    | some slot => simp [eq_comm]

/-- The root of the sample, with the entries `a` and `d`. -/
theorem readdir_agrees_sample :
    let world := (Sample.world 400 zeroBlock).boot
    ∃ filled, run (fsReaddir Sample.pathRoot) world =
        some (.ok (0, filled), world) ∧
      filled.map Prod.fst = [Sample.nameA, Sample.nameD] ∧
      (filled.map Prod.fst).Nodup ∧
      (∀ entry ∈ filled, ValidName entry.1) ∧
      ∀ name (hname : ValidName name) stat,
        (name, stat) ∈ filled ↔
          run (fsGetattr (Sample.pathRoot.child name hname)) world =
            some (.ok stat, world) := by
  intro world
  have hnames : (run (fsReaddir Sample.pathRoot) world).map (fun outcome =>
      outcome.1.map fun reply => reply.2.map Prod.fst) =
        some (.ok [Sample.nameA, Sample.nameD]) := by
    decide +kernel
  obtain ⟨filled, hrun, hlisted⟩ := readdir_agrees
    (Sample.reachable 400 zeroBlock (by decide) (by decide)) (by decide)
    (Sample.run_pathRoot 400 zeroBlock (by decide) (by decide))
    (Sample.directoryInode_isDir 3)
  rw [hrun, Option.map_some, Option.some.injEq] at hnames
  exact ⟨filled, hrun, Except.ok.inj hnames, hlisted⟩

end Fs5600
