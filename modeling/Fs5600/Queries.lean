/-
What the reading calls return, and the pointer slot behind the blocks of a
file, which reads past the end go through.
-/
import Fs5600.Objects

namespace Fs5600

open MachineWord EffectProgram Program LabelledWalk

/-- The listing of a directory as `filler` receives it. -/
def Disk.listing (disk : Disk) (dir : Directory) : List (Name × Stat) :=
  ((List.ofFn dir).filter fun entry => entry.valid).map fun entry =>
    (entry.nameString, inodeToStat (disk.inode entry.inode.toNat))

theorem Mounted.run_readdirLoop {world : World} (hmount : Mounted world)
    {entries : List FsDirent}
    (hrange : ∀ entry ∈ entries, entry.valid = true →
      entry.inode.toNat < world.disk.diskSize) :
    run (readdirLoop entries) world =
      some (.ok (0, (entries.filter fun entry => entry.valid).map
        fun entry => (entry.nameString,
          inodeToStat (world.disk.inode entry.inode.toNat))), world) := by
  induction entries with
  | nil => rfl
  | cons entry entries ih =>
      have hrest := ih fun entry' hmem =>
        hrange entry' (List.mem_cons_of_mem entry hmem)
      rw [readdirLoop]
      by_cases hvalid : entry.valid = true
      · have hread := hmount.run_readInode
          (hrange entry List.mem_cons_self hvalid)
        rw [if_pos hvalid, run_bind_ok (run_attempt hread),
          List.filter_cons_of_pos hvalid, List.map_cons]
        dsimp only
        rw [run_bind_ok hrest]
        rfl
      · rw [if_neg hvalid, List.filter_cons_of_neg hvalid]
        exact hrest

section

variable {world : World} (hmount : Mounted world) {path : CString}
  {site : List Slot} {inum : Nat}
  (hresolve : world.disk.resolve (parse path) = .ok (site, inum))

include hmount hresolve

theorem Mounted.run_fsReaddir (hdir : (world.disk.inode inum).isDir = true) :
    run (fsReaddir path) world =
      some (.ok (0, world.disk.listing (world.disk.entries inum)), world) := by
  have hnode := Disk.node_of_resolve hresolve
  rw [fsReaddir, run_bind_ok (hmount.run_target hresolve)]
  dsimp only
  rw [run_rejectIf_bind, if_neg (not_not.mpr hdir),
    run_bind_ok (run_attempt (hmount.run_readDirectory hnode hdir))]
  refine hmount.run_readdirLoop fun entry hmem hvalid => ?_
  obtain ⟨slot, rfl⟩ := List.mem_ofFn.mp hmem
  have hedge := Disk.edge_eq_some.mpr ⟨hdir, hvalid, rfl⟩
  have hchild := Disk.node_behind hnode slot []
  rw [hedge] at hchild
  exact (hmount.consistent.inode_range hchild).2.1

theorem Mounted.run_fsReaddir_notDir
    (hdir : ¬ (world.disk.inode inum).isDir = true) :
    run (fsReaddir path) world = some (.error (-eNotDir), world) := by
  rw [fsReaddir, run_bind_ok (hmount.run_target hresolve)]
  dsimp only
  rw [run_rejectIf_bind, if_pos hdir]

theorem Mounted.run_fsRead_notReg
    (hreg : ¬ (world.disk.inode inum).isReg = true) (len : Nat)
    (offset : Int) :
    run (fsRead path len offset) world =
      some (.error (-eIsDir), world) := by
  rw [fsRead, run_bind_ok (hmount.run_target hresolve), run_rejectIf_bind,
    if_pos hreg]

end

/-! Spare slots. -/

/-- A file that leaves the last pointer unused, and whose unused pointers
hold 0 or -1. -/
structure FsInode.Spare (inode : FsInode) : Prop where
  count : blockCount inode.length ≤ 1018
  slots : ∀ k : Fin 1019, blockCount inode.length ≤ k.val →
    inode.ptrs k = 0 ∨ inode.ptrs k = wordOfInt (-1)

/-- Every file has spare slots. -/
def Disk.Spare (disk : Disk) : Prop :=
  ∀ path names i, disk.node path = some (names, i) →
    (disk.inode i).isReg = true → (disk.inode i).Spare

theorem FsInode.Spare.shrink {inode : FsInode} (hspare : inode.Spare)
    {len : Nat} (hlen : len < 2147483648)
    (hle : blockCount len ≤ blockCount inode.length) :
    (inode.shrink len).Spare := by
  have hlength := inode.shrink_length len hlen
  have hcount := hspare.count
  refine ⟨by rw [hlength]; omega, fun k hk => ?_⟩
  rw [hlength] at hk
  simp only [FsInode.shrink, FsInode.dropPtrs]
  split
  · exact Or.inr rfl
  · exact hspare.slots k (by omega)

theorem FsInode.Spare.extend {inode : FsInode} (hspare : inode.Spare)
    {fresh : List Nat} {stop : Nat} (mtime : UInt32)
    (hsize : 0 ≤ inode.size.toInt)
    (hlength : fresh.length = blockCount stop - blockCount inode.length)
    (hstop : stop ≤ 4169728) : (inode.extend fresh stop mtime).Spare := by
  have hcount := hspare.count
  have hfit : blockCount stop ≤ 1018 := by
    rw [blockCount]
    omega
  have hlong := inode.extend_length fresh stop mtime hsize (by omega)
  refine ⟨?_, fun k hk => ?_⟩
  · rw [hlong, blockCount_max]
    omega
  · rw [hlong, blockCount_max] at hk
    have hold := hspare.slots k (by omega)
    have hnone : fresh[k.val - blockCount inode.length]? = none :=
      List.getElem?_eq_none (by omega)
    simp only [FsInode.extend, FsInode.placePtrs, hnone, ite_self]
    exact hold

/-- A read past the end of a file with spare slots: 0 leads to a block that is
read in vain, -1 to none. -/
theorem Mounted.run_fsRead_spare {world : World} (hmount : Mounted world)
    {path : CString} {site : List Slot} {inum : Nat}
    (hresolve : world.disk.resolve (parse path) = .ok (site, inum))
    (hreg : (world.disk.inode inum).isReg = true)
    (hspare : (world.disk.inode inum).Spare) {o len : Nat}
    (hlt : o < (world.disk.inode inum).length)
    (hpast : (world.disk.inode inum).length < o + len)
    (hbound : o + len < 9223372036854775808) :
    run (fsRead path len o) world =
      some (if (world.disk.inode inum).ptr
          (blockCount (world.disk.inode inum).length) = 0 then
        .ok ((((world.disk.inode inum).length - o : Nat) : Int),
          (fileContent world.disk (world.disk.inode inum)).drop o)
      else .error (-eIo), world) := by
  have hcount := hspare.count
  have hk : blockCount (world.disk.inode inum).length < 1019 := by omega
  rcases hspare.slots ⟨_, hk⟩ le_rfl with hzero | hminus
  · have hextra : ReadsSlot world (world.disk.inode inum)
        (blockCount (world.disk.inode inum).length) (world.disk 0) := by
      have hword : wordToInt 0 = ((0 : Nat) : Int) := by decide
      have hpos : 0 < world.disk.diskSize :=
        Nat.lt_trans Nat.two_pos hmount.two_lt
      refine ⟨hk, ?_⟩
      rw [hzero, hword]
      exact hmount.run_blockRead hpos
    rw [FsInode.ptr_of_lt _ hk, hzero, if_pos (by decide)]
    exact hmount.run_fsRead_short hresolve hreg hlt hpast hbound hextra
  · rw [FsInode.ptr_of_lt _ hk, hminus, if_neg (by decide)]
    refine hmount.run_fsRead_stop hresolve hreg hlt hpast hbound
      (some (-eIo)) ?_
    rw [run_bind_ok (run_ptrAt _ hk world), hminus]
    refine run_blockRead_fail hmount.reads fun b hseek => ?_
    have hnone : seekBlock (wordToInt (wordOfInt (-1))) = none := by decide
    rw [hnone] at hseek
    cases hseek

/-- What keeps spare slots spare: writes end before the last pointer, and new
inodes have no pointers. -/
def Change.Roomy : Change → Prop
  | .write _ _ offset buf _ _ => offset + buf.length ≤ 4169728
  | .insert _ _ _ _ inode _ _ => inode.isReg = true → inode.Spare
  | _ => True

theorem Change.spare {world : World} (hmount : Mounted world)
    {names : List Name} {change : Change}
    (hvalid : change.Valid world names) (hroomy : change.Roomy)
    (hspare : world.disk.Spare) : (change.apply world).disk.Spare := by
  intro q names' j hq hreg
  have hshows := Change.apply_shows hmount hvalid
  rcases Change.node_cases hmount hvalid hshows hq with
    ⟨names'', hold⟩ | ⟨inode, hnew⟩
  · rw [Change.inode_eq hmount hvalid hshows hold] at hreg ⊢
    have hobject := hmount.consistent.object _ _ _ hold
    cases change with
    | relabel | insert | remove => exact hspare q names'' j hold hreg
    | attributes path inum inode =>
        simp only [inodeAt, rewrittenInode] at hreg ⊢
        split at hreg
        next heq =>
          subst heq
          have hok : AttributesOk world.disk names path j inode := hvalid
          rw [hok.isReg] at hreg
          have hkept := hspare q names'' j hold hreg
          rw [if_pos rfl]
          have hlength : inode.length = (world.disk.inode j).length := by
            rw [FsInode.length, hok.size, FsInode.length]
          refine ⟨hlength ▸ hkept.count, fun k hk => ?_⟩
          rw [hok.ptrs]
          exact hkept.slots k (hlength ▸ hk)
        next hne =>
          rw [if_neg hne]
          exact hspare q names'' j hold hreg
    | shrink path inum len =>
        simp only [inodeAt, rewrittenInode] at hreg ⊢
        split at hreg
        next heq =>
          subst heq
          have hok : ShrinkOk world.disk names path j len := hvalid
          have hle := hok.le
          have hcount := hobject.blockCount_le
          rw [if_pos rfl]
          refine (hspare q names'' j hold hok.isReg).shrink ?_ hle
          rw [blockCount] at hle
          omega
        next hne =>
          rw [if_neg hne]
          exact hspare q names'' j hold hreg
    | write path inum offset buf mtime fresh =>
        simp only [inodeAt, rewrittenInode] at hreg ⊢
        split at hreg
        next heq =>
          subst heq
          have hok : WriteOk world names path j offset buf fresh := hvalid
          rw [if_pos rfl]
          exact (hspare q names'' j hold hok.isReg).extend mtime
            (hobject.size_range hok.isReg).1
            (lowestFree_eq_some hok.fresh).1 hroomy
        next hne =>
          rw [if_neg hne]
          exact hspare q names'' j hold hreg
  · cases change with
    | insert path inum slot name inode' dirflag blocks =>
        cases hnew
        rw [hshows.child.1] at hreg ⊢
        exact hroomy hreg
    | attributes | relabel | remove | shrink | write => cases hnew

end Fs5600
