/-
What a call on one path leaves as it is for every other path.
-/
import Fs5600.Writing

namespace Fs5600

open MachineWord EffectProgram Program LabelledWalk

/-- The object at `path` with number `i` is untouched from one disk to the
other, but for the entries of the directory `parent`. -/
structure Disk.Untouched (disk disk' : Disk) (parent : List Name)
    (path : List Slot) (names : List Name) (i : Nat) : Prop where
  node : disk'.node path = some (names, i)
  inode : disk'.inode i = disk.inode i
  data : ∀ k b, disk.holder (path, .data k) = some b → disk' b = disk b
  entries : (disk.inode i).isDir = true → names ≠ parent →
    disk'.entries i = disk.entries i

section

variable {disk disk' : Disk} {path q : List Slot} {names names' : List Name}
  {i j : Nat}

/-- A rewritten inode touches the object of that inode only. -/
theorem Disk.InodeRewrite.untouched
    (hrw : Disk.InodeRewrite disk disk' path names i)
    (hq : disk.node q = some (names', j)) (hne : names' ≠ names)
    (parent : List Name) : disk.Untouched disk' parent q names' j := by
  have hpath : q ≠ path := by
    rintro rfl
    rw [hrw.node] at hq
    cases hq
    exact hne rfl
  refine ⟨(hrw.node_eq q).trans hq, hrw.inode_eq hq hpath, ?_, ?_⟩
  · exact fun k b hheld => hrw.keeps q (.data k) b (Or.inl hpath) hheld
  · exact fun hdir _ => hrw.entries_eq hq hdir

/-- A rewritten entry touches its directory and what lies behind it. -/
theorem Disk.EntryRewrite.untouched {slot : Slot}
    (hrw : Disk.EntryRewrite disk disk' path names i slot)
    (hq : disk.node q = some (names', j))
    (hsite : ¬ path ++ [slot] <+: q) :
    disk.Untouched disk' names q names' j := by
  refine ⟨(hrw.node_eq hsite).trans hq, hrw.inode_eq hq, ?_, ?_⟩
  · exact fun k b hheld =>
      hrw.keeps q (.data k) b (Or.inr (by simp)) hheld
  · intro hdir hne
    refine hrw.entries_eq hq ?_ hdir
    rintro rfl
    rw [hrw.node] at hq
    cases hq
    exact hne rfl

/-- Names of an entry start the names of all that lies behind it. -/
theorem Disk.names_front {slot : Slot} {front : List Name} {child : Nat}
    (hnode : disk.node (path ++ [slot]) = some (front, child))
    (hq : disk.node q = some (names', j)) (hsite : path ++ [slot] <+: q) :
    front <+: names' := by
  obtain ⟨here, hhere, hpre⟩ := walk_front _ hsite hq
  rw [show walk disk.edge 2 (path ++ [slot]) = _ from hnode] at hhere
  cases hhere
  exact hpre

end

section

variable {world : World} (hmount : Mounted world) {names : List Name}
  {change : Change} (hvalid : change.Valid world names) {disk' : Disk}
  (hshows : change.Shows world.disk disk')

include hmount hvalid hshows

/-- A visible change touches nothing that does not lie at or behind its
target, but for the entries of the target's parent. -/
theorem Change.untouched {q : List Slot} {names' : List Name} {j : Nat}
    (hq : world.disk.node q = some (names', j))
    (hoff : ¬ change.target world.disk names <+: names') :
    world.disk.Untouched disk' (change.target world.disk names).dropLast q
      names' j := by
  have hentry : ∀ {path : List Slot} {inum : Nat} {slot : Slot},
      EntryOk world.disk names path inum slot →
      ¬ names ++ [(world.disk.entries inum slot).nameString] <+: names' →
      ¬ path ++ [slot] <+: q := by
    intro path inum slot hok hoff hsite
    have hedge := Disk.edge_eq_some.mpr ⟨hok.isDir, hok.valid, rfl⟩
    have hnode := Disk.node_behind hok.node slot []
    rw [hedge, List.append_nil] at hnode
    exact hoff (Disk.names_front hnode hq hsite)
  cases change with
  | attributes path inum inode =>
      refine (Change.inodeRewrite hmount hvalid hshows rfl).untouched hq ?_ _
      rintro rfl
      exact hoff List.prefix_rfl
  | shrink path inum len =>
      refine (Change.inodeRewrite hmount hvalid hshows rfl).untouched hq ?_ _
      rintro rfl
      exact hoff List.prefix_rfl
  | write path inum offset buf mtime fresh =>
      refine (Change.inodeRewrite hmount hvalid hshows rfl).untouched hq ?_ _
      rintro rfl
      exact hoff List.prefix_rfl
  | relabel path inum slot name =>
      have hrw := (Change.entryRewrite hmount hvalid hshows rfl).1
      rw [target, List.dropLast_concat]
      exact hrw.untouched hq (hentry hvalid.1 hoff)
  | remove path inum slot blocks =>
      have hrw := (Change.entryRewrite hmount hvalid hshows rfl).1
      rw [target, List.dropLast_concat]
      exact hrw.untouched hq (hentry hvalid.entry hoff)
  | insert path inum slot name inode dirflag blocks =>
      have hrw := (Change.entryRewrite hmount hvalid hshows rfl).1
      rw [target, List.dropLast_concat]
      refine hrw.untouched hq fun hsite => ?_
      obtain ⟨here, hhere, -⟩ := walk_front _ hsite hq
      have hnone := Disk.node_behind hvalid.node slot []
      rw [Disk.edge, hvalid.free, if_neg (by simp), List.append_nil] at hnone
      rw [show walk world.disk.edge 2 (path ++ [slot]) = _ from hnone]
        at hhere
      cases hhere

end

/-- The path that a call is about. -/
def Call.path : Call → Option CString
  | .getattr path | .readdir path | .create path _ | .mkdir path _
  | .unlink path | .rmdir path | .rename path _ | .chmod path _
  | .utime path _ | .truncate path _ | .read path _ _ | .write path _ _ =>
      some path
  | .init | .statfs => none

theorem Call.subject_eq {call : Call} {path : CString}
    (hpath : call.path = some path) : call.subject = parse path := by
  cases call <;> cases hpath <;> rfl

/-- The path `q` leads to the same inode as before; a file has its bytes, and
a directory, unless it is the one named `parent`, its entries. -/
structure Framed (world world' : World) (parent : List Name) (q : CString)
    (inum : Int) (inode : FsInode) : Prop where
  found : run (pathToInode q 0) world' = some (.ok (inum, inode), world')
  content : sIsReg inode.mode = true →
    fileContent world'.disk inode = fileContent world.disk inode
  entries : sIsDir inode.mode = true → components q ≠ parent →
    Directory.decode (world'.disk (inode.ptr 0)) =
      Directory.decode (world.disk (inode.ptr 0))

/-- An untouched object is found, and read, as before. -/
theorem Mounted.framed {world world' : World} (hmount : Mounted world')
    {parent : List Name} {q : CString} {site : List Slot} {i : Nat}
    (hcount : (components q).length ≤ 10)
    (hnode : world.disk.node site = some (parse q, i))
    (hsame : world.disk.Untouched world'.disk parent site (parse q) i) :
    Framed world world' parent q i (world.disk.inode i) := by
  have hresolve := Disk.resolve_of_node hmount.consistent.object hsame.node
  have hinode := hsame.inode
  refine ⟨?_, ?_, ?_⟩
  · rw [hmount.run_target hresolve, hinode]
  · intro hreg
    exact fileContent_congr rfl fun k hk =>
      hsame.data _ _ (Disk.holder_data hnode hreg hk)
  · intro hdir hne
    rw [← parse_eq_components hcount] at hne
    have hentries := hsame.entries hdir hne
    rw [Disk.entries, hinode] at hentries
    exact hentries

/-- A call on one path leaves every path that does not lead through it
alone. -/
theorem other_path_framed {world : World} (hreach : Reachable world)
    {request : Request} (hmut : request.call.Mutates)
    (hcontract : request.call.Contract) {p q : CString}
    (hp : request.call.path = some p) (hpcount : (components p).length ≤ 10)
    (hqcount : (components q).length ≤ 10) {inum : Int} {inode : FsInode}
    (hfound : run (pathToInode q 0) world =
      some (.ok (inum, inode), world))
    (hoff : ¬ components p <+: components q) :
    ∃ reply world', run request.perform world = some (reply, world') ∧
      Framed world world' (components p).dropLast q inum inode := by
  have hsteady := hreach.steady
  have hmount := hsteady.toMounted
  obtain ⟨site, i, hresolve, rfl, rfl, -⟩ := hmount.resolve_of_run hfound
  refine ⟨_, _, hsteady.run_perform hmut hcontract, ?_⟩
  cases hplan : request.plan world with
  | error status => exact ⟨hfound, fun _ => rfl, fun _ _ => rfl⟩
  | ok change =>
      obtain ⟨names, hvalid, htarget⟩ :=
        Request.plan_valid hmount hcontract hplan
      have hnode := Disk.node_of_resolve hresolve
      rw [Call.subject_eq hp, parse_eq_components hpcount] at htarget
      have hsame := Change.untouched hmount hvalid
        (Change.apply_shows hmount hvalid) hnode (by
          rw [htarget, parse_eq_components hqcount]
          exact hoff)
      rw [htarget] at hsame
      exact (Change.mounted hmount hvalid).framed hqcount hnode hsame

/-- The sample's `a` after the mode of `d/b` is changed. -/
theorem other_path_framed_sample :
    ∃ reply world',
      run (Sample.request (.chmod Sample.pathB 0o600)).perform
          (Sample.world 400 zeroBlock).boot = some (reply, world') ∧
      Framed (Sample.world 400 zeroBlock).boot world'
        (components Sample.pathB).dropLast Sample.pathA 4
        (Sample.fileInode 5000 5 6) :=
  other_path_framed
    (Sample.reachable 400 zeroBlock (by decide) (by decide))
    (show (Call.chmod Sample.pathB 0o600).Mutates from trivial)
    (by decide) rfl (by decide) (by decide)
    (Sample.run_pathA 400 zeroBlock (by decide) (by decide))
    (by decide)

end Fs5600
