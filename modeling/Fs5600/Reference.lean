/-
The reference lookup: what a list of names means in an image, as a relation,
and what `path_to_inode` and the calls make of paths within and beyond
`MAX_PATH_LEN`.
-/
import Fs5600.SampleImage

namespace Fs5600

open MachineWord EffectProgram Program

namespace Disk

/-- Looking names up one after the other from inode `i` on ends with the
result: the inode at the end, `-ENOTDIR` at the first object that is no
directory and has a name left to look up, `-ENOENT` at the first name that no
valid entry has.  The entry that is followed is the only one of its name. -/
inductive Finds (disk : Disk) : Nat → List Name → Except Int Nat → Prop
  | done (i : Nat) : Finds disk i [] (.ok i)
  | notDir {i : Nat} {name : Name} {names : List Name}
      (hkind : (disk.inode i).isDir = false) :
      Finds disk i (name :: names) (.error (-eNotDir))
  | missing {i : Nat} {name : Name} {names : List Name}
      (hdir : (disk.inode i).isDir = true)
      (hnone : ∀ slot, (disk.entries i slot).valid = true →
        (disk.entries i slot).nameString ≠ name) :
      Finds disk i (name :: names) (.error (-eNoEnt))
  | follow {i : Nat} {name : Name} {names : List Name}
      {result : Except Int Nat} (slot : Slot)
      (hdir : (disk.inode i).isDir = true)
      (hvalid : (disk.entries i slot).valid = true)
      (hname : (disk.entries i slot).nameString = name)
      (honly : ∀ slot', (disk.entries i slot').valid = true →
        (disk.entries i slot').nameString = name → slot' = slot)
      (hrest : Finds disk (disk.entries i slot).inode.toNat names result) :
      Finds disk i (name :: names) result

variable {disk : Disk} {i : Nat} {names : List Name}

/-- A lookup has one result. -/
theorem Finds.unique {result result' : Except Int Nat}
    (hfinds : disk.Finds i names result)
    (hfinds' : disk.Finds i names result') : result = result' := by
  induction hfinds with
  | done i =>
      cases hfinds'
      rfl
  | notDir hkind =>
      cases hfinds' with
      | notDir => rfl
      | missing hdir => cases hkind.symm.trans hdir
      | follow _ hdir => cases hkind.symm.trans hdir
  | missing hdir hnone =>
      cases hfinds' with
      | notDir hkind => cases hkind.symm.trans hdir
      | missing => rfl
      | follow slot _ hvalid hname => exact absurd hname (hnone slot hvalid)
  | follow slot hdir hvalid hname honly hrest ih =>
      cases hfinds' with
      | notDir hkind => cases hkind.symm.trans hdir
      | missing _ hnone => exact absurd hname (hnone slot hvalid)
      | follow slot' _ hvalid' hname' _ hrest' =>
          obtain rfl := honly slot' hvalid' hname'
          exact ih hrest'

/-- The lookup of the model is the reference lookup wherever the names of
every directory are distinct. -/
theorem finds_resolveFrom
    (hobject : ∀ path names i, disk.node path = some (names, i) →
      ObjectOk disk i) (tokens : List Name) {path : List Slot}
    (hnode : disk.node path = some (names, i)) :
    disk.Finds i tokens ((disk.resolveFrom i tokens).map Prod.snd) := by
  induction tokens generalizing path names i with
  | nil => exact Finds.done i
  | cons token tokens ih =>
      rw [resolveFrom]
      cases hdir : (disk.inode i).isDir with
      | false => exact Finds.notDir hdir
      | true =>
          have hnames := (hobject path names i hnode).names hdir
          rw [if_pos rfl]
          cases hfound : firstNamed (disk.entries i) token with
          | none => exact Finds.missing hdir (firstNamed_eq_none.mp hfound)
          | some slot =>
              obtain ⟨hvalid, hname⟩ := firstNamed_eq_some hfound
              have hrest := ih (node_child hnode
                (edge_of_firstNamed hdir hfound))
              refine Finds.follow slot hdir hvalid hname ?_ ?_
              · intro slot' hvalid' hname'
                exact hnames.distinct slot' slot hvalid' hvalid
                  (hname'.trans hname.symm)
              · dsimp only at hrest ⊢
                cases hthere : disk.resolveFrom
                    (disk.entries i slot).inode.toNat tokens with
                | error status =>
                    rw [hthere] at hrest
                    exact hrest
                | ok there =>
                    rw [hthere] at hrest
                    exact hrest

end Disk

section

variable {world : World} {path : CString}

/-- `path_to_inode` returns what the reference lookup of the first ten
components, less the last `depth`, ends with. -/
theorem Mounted.finds_pathToInode (hmount : Mounted world) (path : CString)
    (depth : Nat) :
    ∃ result,
      world.disk.Finds 2 ((parse path).take ((parse path).length - depth))
        result ∧
      run (pathToInode path depth) world =
        some (result.map fun i : Nat =>
          ((i : Int), world.disk.inode i), world) := by
  refine ⟨_, Disk.finds_resolveFrom hmount.consistent.object _
    Disk.node_nil, ?_⟩
  rw [hmount.run_pathToInode, Disk.resolve]
  cases world.disk.resolveFrom 2
    ((parse path).take ((parse path).length - depth)) <;> rfl

/-- On paths of at most ten components `path_to_inode` is the reference
lookup of all components less the last `depth`. -/
theorem pathToInode_finds (hreach : Reachable world)
    (hlength : (components path).length ≤ 10) (depth : Nat) :
    ∃ result,
      world.disk.Finds 2 ((components path).take
        ((components path).length - min depth (components path).length))
        result ∧
      run (pathToInode path depth) world =
        some (result.map fun i : Nat =>
          ((i : Int), world.disk.inode i), world) := by
  have hcut : (components path).length -
      min depth (components path).length =
        (components path).length - depth := by
    omega
  rw [hcut, ← parse_eq_components hlength]
  exact hreach.steady.finds_pathToInode path depth

theorem pathToInode_finds_sample :
    ∃ result,
      (Sample.world 64 zeroBlock).boot.disk.Finds 2
        ((components Sample.pathB).take
          ((components Sample.pathB).length -
            min 1 (components Sample.pathB).length)) result ∧
      run (pathToInode Sample.pathB 1) (Sample.world 64 zeroBlock).boot =
        some (result.map fun i : Nat => ((i : Int),
          (Sample.world 64 zeroBlock).boot.disk.inode i),
          (Sample.world 64 zeroBlock).boot) :=
  pathToInode_finds (Sample.reachable 64 zeroBlock (by decide) (by decide))
    (by decide) 1

/-! Directories keep what makes the lookup single-valued. -/

/-- Whatever is requested, the valid names of every reachable directory stay
distinct, non-empty and free of slashes, and every name field ends in a zero
byte. -/
theorem history_directories {image : World}
    (hhistory : History anyCall image world) {site : List Slot}
    {names : List Name} {i : Nat}
    (hnode : world.disk.node site = some (names, i))
    (hdir : (world.disk.inode i).isDir = true) :
    DirectoryOk (world.disk.entries i) := by
  have hsteady := hhistory.steady fun _ _ hcontract => hcontract
  exact (hsteady.consistent.object site names i hnode).names hdir

namespace Sample

/-- A name of thirty bytes, of which an entry holds 27. -/
def longPath : CString := ⟨slash :: List.replicate 30 120, by decide⟩

/-- An entry comes, one changes its name, and one goes. -/
def reshapes : List Request :=
  [request (.create pathC 0o100644), request (.rename pathA longPath),
    request (.unlink pathC)]

theorem reshapes_ok : ∀ request ∈ reshapes,
    request.call.Mutates ∧ request.call.Contract := by
  intro request hmem
  simp only [reshapes, List.mem_cons, List.not_mem_nil, or_false] at hmem
  rcases hmem with rfl | rfl | rfl <;> exact ⟨trivial, by decide⟩

end Sample

/-- The root after a creation, a renaming and a removal, all of which
succeed. -/
theorem history_directories_sample :
    ∃ replies world,
      serve Sample.reshapes (Sample.world 64 zeroBlock).boot =
        some (replies, world) ∧
      (replies.all fun reply => reply.isOk) = true ∧
      DirectoryOk (world.disk.entries 2) := by
  have hcons := Sample.consistent 64 zeroBlock (by decide) (by decide)
  have hhealthy := Sample.healthy 64 zeroBlock
  obtain ⟨replies, world, hserve, hsteady⟩ :=
    (Steady.boot hcons hhealthy).serve Sample.reshapes Sample.reshapes_ok
  have hhistory : History anyCall (Sample.world 64 zeroBlock) world :=
    History.of_serve hcons hhealthy
      (fun request hmem _ => (Sample.reshapes_ok request hmem).2) hserve
  have hreplies : (serve Sample.reshapes
      (Sample.world 64 zeroBlock).boot).map (fun result =>
        result.1.all fun reply => reply.isOk) = some true := by
    decide +kernel
  rw [hserve, Option.map_some, Option.some.injEq] at hreplies
  exact ⟨replies, world, hserve, hreplies,
    history_directories hhistory Disk.node_nil hsteady.consistent.root_dir⟩

/-! Paths beyond `MAX_PATH_LEN`. -/

/-- The calls that change the object a path names. -/
def Call.Changes (path : CString) : Call → Prop
  | .rmdir path' | .unlink path' | .chmod path' _ | .truncate path' _
  | .write path' _ _ => path' = path
  | _ => False

theorem Disk.Finds.error_neg {disk : Disk} {i : Nat} {names : List Name}
    {result : Except Int Nat} (hfinds : disk.Finds i names result) :
    ∀ status, result = .error status → status < 0 := by
  induction hfinds with
  | done i => exact fun status heq => by cases heq
  | notDir =>
      rintro status ⟨⟩
      decide
  | missing =>
      rintro status ⟨⟩
      decide
  | follow _ _ _ _ _ _ ih => exact ih

/-- A call that changes what its path names does nothing where the path is
not found. -/
theorem Call.Changes.run_error {request : Request}
    (hchanges : request.call.Changes path) {status : Int}
    (hrun : run (pathToInode path 0) world = some (.error status, world))
    (hneg : status < 0) :
    ∃ status, status < 0 ∧
      run request.perform world = some (.error status, world) := by
  obtain ⟨ctx, call⟩ := request
  cases call with
  | rmdir path' =>
      obtain rfl : path' = path := hchanges
      exact ⟨status, hneg,
        run_bind_error (run_bind_error (run_bind_error hrun))⟩
  | unlink path' | chmod path' | write path' =>
      obtain rfl : path' = path := hchanges
      exact ⟨status, hneg, run_bind_error (run_bind_error hrun)⟩
  | truncate path' len =>
      obtain rfl : path' = path := hchanges
      by_cases hlen : len < 0
      · refine ⟨-eInval, by decide, run_bind_error ?_⟩
        rw [fsTruncate, run_rejectIf_bind, if_pos hlen]
      · refine ⟨status, hneg, run_bind_error ?_⟩
        rw [fsTruncate, run_rejectIf_bind, if_neg hlen]
        exact run_bind_error hrun
  | init | getattr | readdir | create | mkdir | rename | utime | read
  | statfs => cases hchanges

/-- What a path leads to is what its first ten components name, and where
they name nothing, no call changes anything. -/
theorem path_leads_by_first_ten (hreach : Reachable world)
    (path : CString) :
    (∀ inum inode world', run (pathToInode path 0) world =
        some (.ok (inum, inode), world') →
      ∃ i : Nat, inum = i ∧ inode = world.disk.inode i ∧
        world.disk.Finds 2 ((components path).take 10) (.ok i)) ∧
    ((∀ i, ¬ world.disk.Finds 2 ((components path).take 10) (.ok i)) →
      ∀ request : Request, request.call.Changes path →
        ∃ status, status < 0 ∧
          run request.perform world = some (.error status, world)) := by
  obtain ⟨result, hfinds, hrun⟩ :=
    hreach.steady.finds_pathToInode path 0
  rw [Nat.sub_zero, List.take_length, parse_eq_take] at hfinds
  constructor
  · intro inum inode world' hfound
    rw [hrun] at hfound
    cases result with
    | error status => cases hfound
    | ok i =>
        cases hfound
        exact ⟨i, rfl, rfl, hfinds⟩
  · intro hnone request hchanges
    cases result with
    | error status =>
        exact hchanges.run_error hrun (hfinds.error_neg status rfl)
    | ok i => exact absurd hfinds (hnone i)

/-- A path is taken for what all of its components name: `path_to_inode`
returns the object that they lead to, and where they lead to none, no call
changes anything. -/
structure LedByAll (world : World) (path : CString) : Prop where
  leads : ∀ inum inode world', run (pathToInode path 0) world =
      some (.ok (inum, inode), world') →
    ∃ i : Nat, inum = i ∧ inode = world.disk.inode i ∧
      world.disk.Finds 2 (components path) (.ok i)
  spares : (∀ i, ¬ world.disk.Finds 2 (components path) (.ok i)) →
    ∀ request : Request, request.call.Changes path →
      ∃ status, status < 0 ∧
        run request.perform world = some (.error status, world)

/-- The reference lookup ends with an object where the lookup does. -/
theorem Mounted.finds_iff (hmount : Mounted world) {names : List Name}
    {i : Nat} :
    world.disk.Finds 2 names (.ok i) ↔
      ∃ site, world.disk.resolve names = .ok (site, i) := by
  have hfinds := Disk.finds_resolveFrom hmount.consistent.object names
    Disk.node_nil
  rw [← Disk.resolve] at hfinds
  constructor
  · intro hfound
    cases hthere : world.disk.resolve names with
    | error status =>
        rw [hthere] at hfinds
        cases hfinds.unique hfound
    | ok there =>
        rw [hthere] at hfinds
        cases hfinds.unique hfound
        exact ⟨there.1, rfl⟩
  · rintro ⟨site, hthere⟩
    rw [hthere] at hfinds
    exact hfinds

theorem Mounted.isOk_resolve (hmount : Mounted world) {names : List Name} :
    (world.disk.resolve names).isOk = true ↔
      ∃ i, world.disk.Finds 2 names (.ok i) := by
  simp only [hmount.finds_iff]
  cases world.disk.resolve names with
  | error status => simp [Except.isOk, Except.toBool]
  | ok there => exact iff_of_true rfl ⟨there.2, there.1, rfl⟩

/-- Two lists of names do not lead to one object. -/
theorem Mounted.names_of_finds (hmount : Mounted world)
    {names names' : List Name} {i : Nat}
    (hfinds : world.disk.Finds 2 names (.ok i))
    (hfinds' : world.disk.Finds 2 names' (.ok i)) : names = names' := by
  obtain ⟨site, hresolve⟩ := hmount.finds_iff.mp hfinds
  obtain ⟨site', hresolve'⟩ := hmount.finds_iff.mp hfinds'
  have hnode := Disk.node_of_resolve hresolve
  have hnode' := Disk.node_of_resolve hresolve'
  have hkey := hmount.consistent.exclusive _ _ i (Disk.holder_inode hnode)
    (Disk.holder_inode hnode')
  rw [Prod.mk.injEq] at hkey
  rw [hkey.1, hnode'] at hnode
  cases hnode
  rfl

/-- A path is taken for what all of its components name exactly when there
are at most ten of them or the first ten lead to nothing: the others are not
looked at. -/
theorem ledByAll_iff (hreach : Reachable world) (path : CString) :
    LedByAll world path ↔
      (components path).length ≤ 10 ∨
        ∀ i, ¬ world.disk.Finds 2 ((components path).take 10) (.ok i) := by
  have hmount := hreach.steady.toMounted
  obtain ⟨hleads, hspares⟩ := path_leads_by_first_ten hreach path
  constructor
  · intro hled
    by_contra hneither
    rw [not_or, not_forall_not, Nat.not_le] at hneither
    obtain ⟨hlong, i, hten⟩ := hneither
    obtain ⟨result, hfinds, hrun⟩ := hmount.finds_pathToInode path 0
    rw [Nat.sub_zero, List.take_length, parse_eq_take] at hfinds
    obtain rfl := hfinds.unique hten
    obtain ⟨j, heq, -, hall⟩ := hled.leads _ _ _ hrun
    obtain rfl : i = j := Int.ofNat.inj heq
    have hnames := congrArg List.length (hmount.names_of_finds hten hall)
    rw [List.length_take] at hnames
    omega
  · rintro (hshort | hnone)
    · rw [List.take_of_length_le hshort] at hleads hspares
      exact ⟨hleads, hspares⟩
    · refine ⟨fun inum inode world' hrun => ?_, fun _ => hspares hnone⟩
      obtain ⟨i, -, -, hfinds⟩ := hleads inum inode world' hrun
      exact absurd hfinds (hnone i)

namespace Sample

/-- The path `/c/c/…` of `n` components. -/
def deepPath (n : Nat) : CString where
  bytes := (List.replicate n [slash, 99]).flatten
  nul_free := by simp [List.mem_flatten, List.mem_replicate, slash]

/-- The series that makes a directory of every depth up to ten. -/
def deepen : List Request :=
  (List.range' 1 10).map fun n => request (.mkdir (deepPath n) 0)

theorem deepen_ok : ∀ request ∈ deepen,
    request.call.Mutates ∧ request.call.Contract := by
  intro request hmem
  obtain ⟨n, hn, rfl⟩ := List.mem_map.mp hmem
  refine ⟨trivial, ?_⟩
  rw [List.mem_range'_1] at hn
  obtain ⟨hlow, hhigh⟩ := hn
  interval_cases n <;> decide

/-- The first ten of eleven components lead to a directory and all eleven to
nothing, and `fs_rmdir` of the eleven removes that directory. -/
structure Deep (world : World) : Prop where
  steady : Steady world
  reachable : Reachable world
  tenth : ∃ i, world.disk.Finds 2 (components (deepPath 11)).dropLast (.ok i)
  missing : ∀ i, ¬ world.disk.Finds 2 (components (deepPath 11)) (.ok i)
  removed : ∃ result world',
    run (request (.rmdir (deepPath 11))).perform world =
      some (result, world') ∧
    ∀ i, ¬ world'.disk.Finds 2 (components (deepPath 11)).dropLast (.ok i)

theorem deepened :
    ∃ replies world,
      serve deepen (Sample.world 64 zeroBlock).boot =
        some (replies, world) ∧ Deep world := by
  have hcons := consistent 64 zeroBlock (by decide) (by decide)
  have hhealthy := healthy 64 zeroBlock
  obtain ⟨replies, world, hserve, hsteady⟩ :=
    (Steady.boot hcons hhealthy).serve deepen deepen_ok
  have hreach : Reachable world := ⟨_, History.of_serve hcons hhealthy
    (fun request hmem _ => (deepen_ok request hmem).2) hserve⟩
  have hdeep : (serve deepen (Sample.world 64 zeroBlock).boot).map
      (fun result =>
        ((result.2.disk.resolve (components (deepPath 11)).dropLast).isOk,
          (result.2.disk.resolve (components (deepPath 11))).isOk,
          (run (request (.rmdir (deepPath 11))).perform result.2).map
            fun outcome => (outcome.2.disk.resolve
              (components (deepPath 11)).dropLast).isOk)) =
      some (true, false, some false) := by
    decide +kernel
  rw [hserve, Option.map_some, Option.some.injEq, Prod.mk.injEq,
    Prod.mk.injEq] at hdeep
  obtain ⟨hten, heleven, hremoved⟩ := hdeep
  obtain ⟨⟨result, world'⟩, hrun, hgone⟩ := Option.map_eq_some_iff.mp hremoved
  have hsteady' := hsteady.step
    (show (Call.rmdir (deepPath 11)).Contract by decide) hrun
  refine ⟨replies, world, hserve, hsteady, hreach,
    hsteady.isOk_resolve.mp hten, fun i hfound => ?_, result, world', hrun,
    fun i hfound => ?_⟩
  · rw [hsteady.isOk_resolve.mpr ⟨i, hfound⟩] at heleven
    cases heleven
  · have hgone : (world'.disk.resolve
        (components (deepPath 11)).dropLast).isOk = false := hgone
    rw [hsteady'.isOk_resolve.mpr ⟨i, hfound⟩] at hgone
    cases hgone

end Sample

/-- Below directories ten deep, a path of ten components is looked up whole
and one of eleven is not. -/
theorem ledByAll_iff_sample :
    ∃ replies world,
      serve Sample.deepen (Sample.world 64 zeroBlock).boot =
        some (replies, world) ∧
      LedByAll world (Sample.deepPath 10) ∧
      ¬ LedByAll world (Sample.deepPath 11) := by
  obtain ⟨replies, world, hserve, hdeep⟩ := Sample.deepened
  refine ⟨replies, world, hserve, (ledByAll_iff hdeep.reachable
    (Sample.deepPath 10)).mpr (Or.inl (by decide)), fun hled => ?_⟩
  rcases (ledByAll_iff hdeep.reachable (Sample.deepPath 11)).mp hled with
    hshort | hnone
  · exact absurd hshort (by decide)
  · obtain ⟨i, hten⟩ := hdeep.tenth
    exact hnone i hten

/-- An eleventh component is not looked up, and `fs_rmdir` of a name that is
missing in the tenth directory removes that directory. -/
theorem path_leads_beyond_ten :
    (¬ ∀ world path, Reachable world →
      ∀ inum inode world', run (pathToInode path 0) world =
          some (.ok (inum, inode), world') →
        ∃ i : Nat, inum = i ∧
          world.disk.Finds 2 (components path) (.ok i)) ∧
    ¬ ∀ world path, Reachable world →
      (∀ i, ¬ world.disk.Finds 2 (components path) (.ok i)) →
      ∀ i, world.disk.Finds 2 (components path).dropLast (.ok i) →
        ∀ ctx result world',
          run (Request.perform ⟨ctx, .rmdir path⟩) world =
              some (result, world') →
            world'.disk.Finds 2 (components path).dropLast (.ok i) := by
  obtain ⟨replies, world, -, hdeep⟩ := Sample.deepened
  obtain ⟨i, hten⟩ := hdeep.tenth
  constructor
  · intro hall
    obtain ⟨result, hfinds, hrun⟩ :=
      hdeep.steady.finds_pathToInode (Sample.deepPath 11) 0
    rw [Nat.sub_zero, List.take_length, parse_eq_take] at hfinds
    obtain rfl := hfinds.unique hten
    obtain ⟨j, -, hfound⟩ := hall world _ hdeep.reachable _ _ _ hrun
    exact hdeep.missing j hfound
  · intro hall
    obtain ⟨result, world', hrun, hgone⟩ := hdeep.removed
    exact hgone i (hall world _ hdeep.reachable hdeep.missing i hten _ _ _
      hrun)

end

end Fs5600
