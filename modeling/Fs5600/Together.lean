/-
Two claiming calls in different directories, whose searches keep apart, leave
the world that one of them leaves when it is served behind the other one.
Where both search before either of them marks its blocks, they may take the
same ones.
-/
import Fs5600.Serial
import Fs5600.SampleImage

namespace Fs5600

open MachineWord EffectProgram Program

/-- A claiming call that returns has kept to the pointers of an inode. -/
theorem Meant.perform_yields {disk : Disk} {request : Request}
    {site : List Slot} (hmeant : Meant disk request site) :
    request.perform.Yields fun _ => request.call.Contract := by
  obtain ⟨hclaims, hpromised, -, -⟩ := hmeant
  obtain ⟨ctx, call⟩ := request
  cases call with
  | create | mkdir | unlink =>
      exact Yields.of_next _ fun _ => hpromised
  | write path buf offset =>
      obtain ⟨hbuf, hpos⟩ := hpromised
      exact (fsWrite_yields ctx path hbuf hpos).bind fun _ hend =>
        ⟨hbuf, hpos, hend⟩
  | init | getattr | readdir | rmdir | rename | chmod | utime | truncate
  | read | statfs => cases hclaims

section

variable {world : World} (hsteady : Steady world)
  {requests : Bool → Request} {sites : Bool → List Slot}
  (haim : ∀ i, Aimed world.disk (requests i) (sites i))
  (hne : ∀ i, sites i ≠ sites !i) {replies : Bool → Reply} {world' : World}

include hsteady haim hne

/-- Calls that have both done all of their actions leave what one of them
leaves behind the other one. -/
theorem Joint.serial {phases : Bool → Phase} {inside : Bool → Prop}
    (hjoint : Joint world requests phases world' inside)
    (hdone : ∀ i, ∃ change, phases i = .acting change [] ∧
      replies i = .code change.result) :
    Steady world' ∧ ∃ i middle,
      run (requests i).perform world = some (.ok (replies i), middle) ∧
      run (requests !i).perform middle =
        some (.ok (replies !i), world') := by
  have hsync : world'.disk 1 = world'.globals.bitmap := by
    refine hjoint.sync.resolve_right fun ⟨i, hpending⟩ => ?_
    obtain ⟨change, hphase, -⟩ := hdone i
    rw [hphase] at hpending
    cases hpending
  rcases hjoint.ordered with ⟨hlooking, -⟩ | ⟨i, hahead⟩
  · obtain ⟨change, hphase, -⟩ := hdone false
    rw [hlooking false] at hphase
    cases hphase
  · obtain ⟨change, hphase, hreply⟩ := hdone i
    obtain ⟨change', hphase', hreply'⟩ := hdone !i
    rw [hphase, hphase'] at hahead
    obtain ⟨hplan, hplan', rfl⟩ := hahead.through hsteady (haim i) (haim !i)
      (hne i) hsync
    obtain ⟨names, hvalid, -⟩ :=
      Request.plan_valid hsteady.toMounted (haim i).contract hplan
    have hsteady' := hsteady.apply hvalid
    have hfirst := hsteady.run_perform (haim i).claims.mutates
      (haim i).contract
    have hsecond := hsteady'.run_perform (haim !i).claims.mutates
      (haim !i).contract
    rw [hplan] at hfirst
    rw [hplan'] at hsecond
    refine ⟨hsteady'.step (haim !i).contract hsecond, i,
      change.apply world, ?_, ?_⟩
    · rw [hreply]
      exact hfirst
    · rw [hreply']
      exact hsecond

/-- Calls that have both returned have done all of their actions. -/
theorem joint_of_returned {schedule : List Bool} {threads : Bool → Fs Reply}
    (hrun : serveTogether schedule requests world = some (threads, world'))
    (hreturned : ∀ i, threads i = .ret (replies i))
    (hapart : SearchesApart schedule requests world) :
    ∃ phases inside, Joint world requests phases world' inside ∧
      ∀ i, ∃ change, phases i = .acting change [] ∧
        replies i = .code change.result := by
  have hstart : Joint world requests (fun _ => .looking) world
      fun _ => False :=
    ⟨Or.inl ⟨fun _ => rfl, rfl⟩, fun _ _ hmark => (List.not_mem_nil hmark),
      Or.inl hsteady.bitmap.symm⟩
  have hobeys : ∀ i, (requests i).Abides world (requests i).perform
      .looking := by
    intro i
    obtain ⟨inum, hparent, hdir⟩ := (haim i).parent
    exact hsteady.abides_perform (haim i).claims (haim i).contract.inRange
      hparent hdir
  have hsees : ∀ phases state inside i,
      Joint world requests phases state inside →
        ((requests i).protocol world).sees (phases i) state :=
    fun _ _ _ i hjoint => hjoint.ordered.sees hsteady haim hne i
  obtain ⟨phases, inside, hjoint, hended⟩ := interleave_keeps hsees
    (fun _ _ _ _ _ _ _ hjoint henters hmay =>
      Joint.step hsteady haim hne hjoint henters hmay)
    hstart hobeys hapart hrun
  refine ⟨phases, inside, hjoint, fun i => ?_⟩
  have hi := hended i
  rw [hreturned i] at hi
  exact hi.done

end

namespace Sample

def pathDC : CString := ⟨[47, 100, 47, 99], by decide⟩

/-- The file `c` is created in the root, and the other call is about `d`. -/
def beside (call : Call) : Bool → Request
  | false => request (.create pathC 0o100644)
  | true => request call

def sites : Bool → List Slot
  | false => []
  | true => [1]

theorem sites_ne : sites false ≠ sites true := by decide

theorem beside_meant (call : Call) (hclaims : call.Claims)
    (hcontract : call.Contract) (hparent : call.subject.dropLast = [nameD])
    (hfile : ∀ path, call = .unlink path → path = pathB) (i : Bool) :
    Meant (world 400 zeroBlock).boot.disk (beside call i) (sites i) := by
  have hsteady := steady 400 zeroBlock (by decide) (by decide)
  have hresolve : ∀ {site names i},
      (disk 400 zeroBlock).node site = some (names, i) →
        (disk 400 zeroBlock).resolve names = .ok (site, i) :=
    Disk.resolve_of_node hsteady.consistent.object
  cases i with
  | false =>
      have hroot : (Call.create pathC 0o100644).subject.dropLast = [] := by
        decide
      refine ⟨trivial,
        (by decide : (Call.create pathC 0o100644).Contract),
        ⟨2, ?_, hsteady.consistent.root_dir⟩, fun path heq => by cases heq⟩
      rw [show (beside call false).call.subject.dropLast = [] from hroot]
      rfl
  | true =>
      refine ⟨hclaims, hcontract.promised, ⟨7, ?_, ?_⟩,
        fun path heq target i hthere => ?_⟩
      · rw [show (beside call true).call.subject.dropLast = [nameD] from
          hparent]
        exact hresolve (node_d 400 zeroBlock)
      · rw [show (world 400 zeroBlock).boot.disk.inode 7 = directoryInode 8
          from inode_d 400 zeroBlock]
        exact directoryInode_isDir 8
      · have hpath : parse path = [nameD, nameB] := by
          rw [hfile path heq]
          decide
        rw [hpath] at hthere
        have hsame := hthere.symm.trans (hresolve (node_b 400 zeroBlock))
        cases hsame
        decide +kernel

end Sample

/-- What a call has returned. -/
def returned : Fs Reply → Option Reply
  | .ret reply => some reply
  | _ => none

theorem eq_ret_of_returned {threads : Bool → Fs Reply} {reply : Reply}
    (hboth : (returned (threads false), returned (threads true)) =
      (some reply, some reply)) (i : Bool) : threads i = .ret reply := by
  have hone : ∀ {code : Fs Reply}, returned code = some reply →
      code = .ret reply := by
    intro code hcode
    cases code with
    | ret value => exact congrArg Program.ret (Option.some.inj hcode)
    | exit | undefined | call => cases hcode
  cases i with
  | false => exact hone (Prod.mk.inj hboth).1
  | true => exact hone (Prod.mk.inj hboth).2

/-- Whether a search is ahead: on a file system of no blocks it fails. -/
def searching : Fs Reply → Bool
  | .call .load next =>
      match next ⟨⟨0, 0⟩, .decode zeroBlock, zeroBlock, ⟨0, 0, 0, 0, 0⟩⟩ with
      | .exit _ => true
      | _ => false
  | _ => false

theorem Searching.detected {code : Fs Reply} (hsearching : Searching code) :
    searching code = true := by
  obtain ⟨n, next, hpos, rfl⟩ := hsearching
  obtain ⟨m, rfl⟩ := Nat.exists_eq_succ_of_ne_zero hpos.ne'
  rfl

/-- In the steps of the schedule the second call does not search. -/
def searchesOnce : List Bool → (Bool → Fs Reply) → World → Bool
  | [], _, _ => true
  | i :: schedule, threads, world =>
      match advance (threads i) world with
      | none => true
      | some (code, world') => !(i && searching (threads i)) &&
          searchesOnce schedule (Function.update threads i code) world'

theorem apart_of_searchesOnce {schedule : List Bool}
    {threads : Bool → Fs Reply} {world : World} {inside : Bool → Prop}
    (honce : searchesOnce schedule threads world = true)
    (houtside : ¬ inside true) :
    Apart handleShared Access.inMemory Searching SameBitmap schedule threads
      world inside := by
  induction schedule generalizing threads world inside with
  | nil => trivial
  | cons i schedule ih =>
      rw [searchesOnce, advance] at honce
      rw [Apart]
      cases hstep : (threads i).step handleShared Access.inMemory world with
      | none => trivial
      | some result =>
          rw [hstep] at honce
          obtain ⟨hquiet, hrest⟩ := Bool.and_eq_true_iff.mp honce
          cases i with
          | false =>
              refine ⟨fun _ j hj => ?_, ih hrest ?_⟩
              · rw [Bool.eq_true_of_not_eq_false hj]
                exact houtside
              · rw [Function.update_of_ne (by decide)]
                exact houtside
          | true =>
              have hnot : ¬ Searching (threads true) := fun hsearching => by
                rw [hsearching.detected] at hquiet
                cases hquiet
              refine ⟨fun henters => absurd henters hnot, ih hrest ?_⟩
              rw [Function.update_self]
              exact fun hinside => hinside.1.elim hnot houtside

end Fs5600
