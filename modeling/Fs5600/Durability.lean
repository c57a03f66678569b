/-
What a file holds after a series of calls and stops: the bytes that the
acknowledged calls have made of it, under the path to which they have moved it.
-/
import Fs5600.Crash
import Fs5600.Sessions
import Mathlib.Data.List.Forall2

namespace Fs5600

open MachineWord EffectProgram Program NameTree

/-- Where a file is, and its bytes as far as they are known. -/
structure FileRecord where
  path : List Name
  bytes : List (Option UInt8)
deriving DecidableEq

namespace FileRecord

/-- What a call that succeeds makes of a file.  The bytes that a longer
`truncate` brings into view are not known, and `unlink` ends the record. -/
def observe (record : FileRecord) : Call → Option FileRecord
  | .write path buf offset =>
      if parse path = record.path then
        some { record with
          bytes := record.bytes.take offset.toNat ++ buf.map some ++
            record.bytes.drop (offset.toNat + buf.length) }
      else some record
  | .truncate path len =>
      if parse path = record.path then
        some { record with
          bytes := record.bytes.take len.toNat ++
            List.replicate (len.toNat - record.bytes.length) none }
      else some record
  | .unlink path => if parse path = record.path then none else some record
  | .rename srcPath dstPath =>
      if parse srcPath <+: record.path then
        some { record with
          path := parse dstPath ++ record.path.drop (parse srcPath).length }
      else some record
  | _ => some record

/-- What is still known of a file when the machine has stopped in a call: not
where it is, if the call moves or removes it, and not how long it is, if the
call may change that. -/
def observeStop (record : FileRecord) : Call → Option FileRecord
  | .write path buf offset =>
      if parse path ≠ record.path then some record
      else if offset.toNat + buf.length ≤ record.bytes.length then
        some { record with
          bytes := record.bytes.take offset.toNat ++
            List.replicate buf.length none ++
            record.bytes.drop (offset.toNat + buf.length) }
      else none
  | .truncate path _ | .unlink path =>
      if parse path = record.path then none else some record
  | .rename srcPath _ =>
      if parse srcPath <+: record.path then none else some record
  | _ => some record

/-- Calls that are refused leave the file as it is. -/
def follow : FileRecord → List (Event × Option (Except Int Reply)) →
    Option FileRecord
  | record, [] => some record
  | record, (.stop request _, _) :: rest =>
      match record.observeStop request.call with
      | none => none
      | some record' => record'.follow rest
  | record, (.call request, some (.ok _)) :: rest =>
      match record.observe request.call with
      | none => none
      | some record' => record'.follow rest
  | record, (.call _, _) :: rest => record.follow rest

/-- What is known of a byte is right. -/
def Fits (known : Option UInt8) (byte : UInt8) : Prop :=
  ∀ b ∈ known, b = byte

/-- The tree has the file where the record says, with the bytes known. -/
def Describes (record : FileRecord) (tree : FileTree) : Prop :=
  ∃ attributes content,
    tree record.path = some (.leaf attributes content) ∧
      List.Forall₂ Fits record.bytes content

variable {record record' : FileRecord} {tree : FileTree}

theorem Describes.of_eq (hdescribes : record.Describes tree)
    {tree' : FileTree} (hsame : tree' record.path = tree record.path) :
    record.Describes tree' := by
  obtain ⟨attributes, content, hobject, hbytes⟩ := hdescribes
  exact ⟨attributes, content, hsame.trans hobject, hbytes⟩

theorem Describes.ne_none (hdescribes : record.Describes tree) :
    tree record.path ≠ none := by
  obtain ⟨attributes, content, hobject, -⟩ := hdescribes
  rw [hobject]
  exact Option.some_ne_none _

/-- What lies above a file is a directory in use. -/
theorem Describes.above (hdescribes : record.Describes tree)
    (hwf : WellFormed tree) {path : List Name}
    (hpre : path <+: record.path) (hne : path ≠ record.path) :
    (∃ attributes, tree path = some (.branch attributes)) ∧
      children tree path ≠ ∅ := by
  obtain ⟨attributes, content, hfile, -⟩ := hdescribes
  obtain ⟨rest, hrest⟩ := hpre
  cases rest with
  | nil => exact absurd ((List.append_nil _).symm.trans hrest) hne
  | cons name rest =>
      rw [← hrest] at hfile
      refine ⟨hwf.above (List.cons_ne_nil _ _) hfile, fun hempty => ?_⟩
      refine Set.eq_empty_iff_forall_notMem.mp hempty name fun hnone => ?_
      have hbelow := hwf.below_none hnone rest
      rw [List.append_assoc, List.singleton_append, hfile] at hbelow
      cases hbelow

/-- Another object put in its place leaves a file alone. -/
theorem Describes.put_other (hdescribes : record.Describes tree)
    {path : List Name} (hne : path ≠ record.path) (object : Object) :
    record.Describes (put tree path object) :=
  hdescribes.of_eq (Function.update_of_ne hne.symm _ _)

theorem Describes.erase_other (hdescribes : record.Describes tree)
    {path : List Name} (hpre : ¬ path <+: record.path) :
    record.Describes (erase tree path) :=
  hdescribes.of_eq (erase_beside hpre tree)

/-- A new leaf in the place of a file. -/
theorem describes_put {path : List Name} {known : List (Option UInt8)}
    {attributes : Attributes} {content : List UInt8}
    (hbytes : List.Forall₂ Fits known content) :
    FileRecord.Describes ⟨path, known⟩
      (put tree path (.leaf attributes content)) :=
  ⟨attributes, content, Function.update_self _ _ _, hbytes⟩

theorem fits_written (buf : List UInt8) :
    List.Forall₂ Fits (buf.map some) buf := by
  rw [List.forall₂_map_left_iff, List.forall₂_same]
  rintro byte - b hb
  exact (Option.mem_some.mp hb).symm

theorem fits_unknown {n : Nat} {bytes : List UInt8} (hn : bytes.length = n) :
    List.Forall₂ Fits (List.replicate n none) bytes := by
  refine List.forall₂_of_length_eq_of_get (by simpa using hn.symm) ?_
  intro i hleft hright b hb
  simp at hb

/-- The record of a file follows every call that succeeds. -/
theorem Describes.observe (hdescribes : record.Describes tree)
    {fs fs' : FileSystem} (htree : fs.tree = tree) (hwf : WellFormed tree)
    {request : Request} {reply : Reply}
    (hallows : fs.Allows request (.ok reply) fs')
    (hobserve : record.observe request.call = some record') :
    record'.Describes fs'.tree := by
  subst htree
  obtain ⟨ctx, call⟩ := request
  obtain ⟨attributes, content, hfile, hbytes⟩ := id hdescribes
  have hlength := hbytes.length_eq
  cases call with
  | init =>
      cases hobserve
      rw [hallows.2]
      exact hdescribes
  | getattr | readdir | read | statfs =>
      cases hobserve
      rw [hallows.2]
      exact hdescribes
  | create path mode | mkdir path mode =>
      cases hobserve
      obtain ⟨result, hmake, rfl⟩ := FileSystem.answer_eq_ok hallows
      obtain ⟨hfresh, -, -, rfl⟩ := FileSystem.make_eq_ok hmake
      refine hdescribes.put_other (fun hsame => ?_) _
      rw [hsame] at hfresh
      exact hdescribes.ne_none hfresh
  | unlink path =>
      obtain ⟨result, hunlink, rfl⟩ := FileSystem.answer_eq_ok hallows
      obtain ⟨attributes', content', hobject, -, rfl⟩ :=
        (FileSystem.unlink_eq_ok hwf).mp hunlink
      rw [FileRecord.observe] at hobserve
      split at hobserve
      · cases hobserve
      · next hne =>
          cases hobserve
          refine hdescribes.erase_other fun hpre => ?_
          obtain ⟨⟨_, hbranch⟩, -⟩ := hdescribes.above hwf hpre hne
          rw [hobject] at hbranch
          cases hbranch
  | rmdir path =>
      cases hobserve
      obtain ⟨result, hrmdir, rfl⟩ := FileSystem.answer_eq_ok hallows
      obtain ⟨attributes', hobject, hempty, -, rfl⟩ :=
        (FileSystem.rmdir_eq_ok hwf).mp hrmdir
      refine hdescribes.erase_other fun hpre => ?_
      by_cases hsame : parse path = record.path
      · rw [hsame, hfile] at hobject
        cases hobject
      · exact (hdescribes.above hwf hpre hsame).2 hempty
  | rename srcPath dstPath =>
      obtain ⟨result, hrename, rfl⟩ := FileSystem.answer_eq_ok hallows
      obtain ⟨-, hfresh, -, -, -, rfl⟩ :=
        (FileSystem.rename_eq_ok hwf).mp hrename
      rw [FileRecord.observe] at hobserve
      split at hobserve
      · next hpre =>
          cases hobserve
          obtain ⟨rest, hrest⟩ := hpre
          refine ⟨attributes, content, ?_, hbytes⟩
          dsimp only
          rw [← hrest, List.drop_left, move_target, hrest, hfile]
      · next hpre =>
          cases hobserve
          refine hdescribes.of_eq (move_other (fun htarget => ?_) hpre _)
          obtain ⟨rest, hrest⟩ := htarget
          refine hdescribes.ne_none ?_
          rw [← hrest]
          exact hwf.below_none hfresh rest
  | chmod path mode =>
      cases hobserve
      obtain ⟨result, hchmod, rfl⟩ := FileSystem.answer_eq_ok hallows
      obtain ⟨object, hobject, -, rfl⟩ := FileSystem.chmod_eq_ok hwf hchmod
      by_cases hsame : parse path = record.path
      · rw [hsame, hfile] at hobject
        cases hobject
        rw [hsame]
        exact describes_put hbytes
      · exact hdescribes.put_other hsame _
  | utime path modtime =>
      cases hobserve
      obtain ⟨result, hutime, rfl⟩ := FileSystem.answer_eq_ok hallows
      obtain ⟨attributes', content', hobject, -, rfl⟩ :=
        FileSystem.utime_eq_ok hwf hutime
      by_cases hsame : parse path = record.path
      · rw [hsame, hfile] at hobject
        cases hobject
        rw [hsame]
        exact describes_put hbytes
      · exact hdescribes.put_other hsame _
  | truncate path len =>
      obtain ⟨tail, hanswer⟩ := hallows
      obtain ⟨result, htruncate, rfl⟩ := FileSystem.answer_eq_ok hanswer
      obtain ⟨attributes', content', hobject, -, -, -, rfl⟩ :=
        FileSystem.truncate_eq_ok hwf htruncate
      rw [FileRecord.observe] at hobserve
      split at hobserve
      · next hsame =>
          cases hobserve
          rw [hsame, hfile] at hobject
          cases hobject
          rw [hsame]
          refine describes_put (List.rel_append
            (List.forall₂_take _ hbytes) (fits_unknown ?_))
          rw [List.length_map, List.length_range, hlength]
      · next hne =>
          cases hobserve
          exact hdescribes.put_other hne _
  | write path buf offset =>
      obtain ⟨result, hwrite, rfl⟩ := FileSystem.answer_eq_ok hallows
      obtain ⟨attributes', content', hobject, -, -, htree, -⟩ :=
        FileSystem.write_eq_ok hwf hwrite
      rw [FileRecord.observe] at hobserve
      rw [htree]
      split at hobserve
      · next hsame =>
          cases hobserve
          rw [hsame, hfile] at hobject
          cases hobject
          rw [hsame]
          exact describes_put (List.rel_append (List.rel_append
            (List.forall₂_take _ hbytes) (fits_written buf))
            (List.forall₂_drop _ hbytes))
      · next hne =>
          cases hobserve
          exact hdescribes.put_other hne _

/-- No more is known of a byte. -/
def Dims (known' known : Option UInt8) : Prop :=
  known' = none ∨ known' = known

theorem dims_refl (bytes : List (Option UInt8)) :
    List.Forall₂ Dims bytes bytes :=
  List.forall₂_same.mpr fun _ _ => Or.inr rfl

theorem dims_replicate {n : Nat} {bytes : List (Option UInt8)}
    (hn : bytes.length = n) :
    List.Forall₂ Dims (List.replicate n none) bytes := by
  refine List.forall₂_of_length_eq_of_get (by simpa using hn.symm) ?_
  intro i hleft hright
  exact Or.inl (by simp)

/-- One record says no more than another. -/
structure Blurs (record' record : FileRecord) : Prop where
  path : record'.path = record.path
  bytes : List.Forall₂ Dims record'.bytes record.bytes

theorem Blurs.refl (record : FileRecord) : record.Blurs record :=
  ⟨rfl, dims_refl record.bytes⟩

theorem Describes.blur (hdescribes : record.Describes tree)
    (hblurs : record'.Blurs record) : record'.Describes tree := by
  obtain ⟨attributes, content, hfile, hbytes⟩ := hdescribes
  rw [← hblurs.path] at hfile
  refine ⟨attributes, content, hfile, ?_⟩
  have hlength := hblurs.bytes.length_eq
  refine List.forall₂_of_length_eq_of_get
    (hlength.trans hbytes.length_eq) fun i hleft hright b hb => ?_
  rcases hblurs.bytes.get hleft (hlength ▸ hleft) with hnone | hsame
  · rw [hnone] at hb
    cases hb
  · rw [hsame] at hb
    exact hbytes.get (hlength ▸ hleft) hright b hb

theorem blurs_of_write {path : CString} {buf torn : List UInt8}
    {offset : Int} (hlength : torn.length = buf.length)
    (hobserve : record.observeStop (.write path buf offset) = some record') :
    record'.Blurs record ∧ ∃ record'',
      record.observe (.write path torn offset) = some record'' ∧
        record'.Blurs record'' := by
  rw [observeStop] at hobserve
  split at hobserve
  · next hne =>
      cases hobserve
      exact ⟨Blurs.refl _, record, if_neg hne, Blurs.refl _⟩
  next hsame =>
    split at hobserve
    · next hinside =>
        cases hobserve
        have hmiddle : record.bytes.take offset.toNat ++
            (record.bytes.drop offset.toNat).take buf.length ++
              record.bytes.drop (offset.toNat + buf.length) =
            record.bytes := by
          rw [List.append_assoc, ← List.drop_drop, List.take_append_drop,
            List.take_append_drop]
        have hhole : ((record.bytes.drop offset.toNat).take
            buf.length).length = buf.length := by
          rw [List.length_take, List.length_drop]
          omega
        have hold := List.rel_append (List.rel_append
          (dims_refl (record.bytes.take offset.toNat))
          (dims_replicate hhole))
          (dims_refl (record.bytes.drop (offset.toNat + buf.length)))
        dsimp only at hold
        rw [hmiddle] at hold
        refine ⟨⟨rfl, hold⟩, _, if_pos (not_not.mp hsame), rfl, ?_⟩
        rw [hlength]
        exact List.rel_append (List.rel_append (dims_refl _)
          (dims_replicate (by rw [List.length_map, hlength])))
          (dims_refl _)
    · cases hobserve

/-- What is known after a stop is known whether the call was made or not. -/
theorem blurs_of_observeStop {call : Call}
    (hobserve : record.observeStop call = some record') :
    record'.Blurs record ∧ ∃ record'',
      record.observe call = some record'' ∧ record'.Blurs record'' := by
  cases call with
  | write path buf offset => exact blurs_of_write rfl hobserve
  | truncate path len | unlink path =>
      rw [observeStop] at hobserve
      split at hobserve
      · cases hobserve
      · next hne =>
          cases hobserve
          exact ⟨Blurs.refl _, record, if_neg hne, Blurs.refl _⟩
  | rename srcPath dstPath =>
      rw [observeStop] at hobserve
      split at hobserve
      · cases hobserve
      · next hne =>
          cases hobserve
          exact ⟨Blurs.refl _, record, if_neg hne, Blurs.refl _⟩
  | init | getattr | readdir | create | mkdir | rmdir | chmod | utime | read
  | statfs =>
      cases hobserve
      exact ⟨Blurs.refl _, record, rfl, Blurs.refl _⟩

theorem Describes.observeStop (hdescribes : record.Describes tree)
    {fs fs' : FileSystem} (htree : fs.tree = tree) (hwf : WellFormed tree)
    {request : Request} (hstops : fs.Stops request fs')
    (hobserve : record.observeStop request.call = some record') :
    record'.Describes fs'.tree := by
  cases hstops with
  | before hless =>
      rw [hless.tree, htree]
      exact hdescribes.blur (blurs_of_observeStop hobserve).1
  | after hallows hless =>
      obtain ⟨record'', hafter, hblurs⟩ := (blurs_of_observeStop hobserve).2
      rw [hless.tree]
      exact (hdescribes.observe htree hwf hallows hafter).blur hblurs
  | torn hcall hobject htorn hallows hless =>
      rw [hcall] at hobserve
      obtain ⟨-, record'', hafter, hblurs⟩ :=
        blurs_of_write htorn.length hobserve
      rw [hless.tree]
      exact (hdescribes.observe htree hwf hallows hafter).blur hblurs

end FileRecord

/-- A call that is refused leaves the tree as it is. -/
theorem FileSystem.Allows.tree_of_error {fs fs' : FileSystem}
    {request : Request} {status : Int}
    (hallows : fs.Allows request (.error status) fs') :
    fs'.tree = fs.tree := by
  have hanswer : ∀ {outcome : Except Int (Int × FileSystem)},
      (Except.error status, fs') = fs.answer outcome → fs'.tree = fs.tree := by
    intro outcome heq
    cases outcome <;> cases heq
    rfl
  obtain ⟨ctx, call⟩ := request
  cases call with
  | init => rw [hallows.2]
  | getattr | readdir | read | statfs => rw [hallows.2]
  | truncate =>
      obtain ⟨tail, heq⟩ := hallows
      exact hanswer heq
  | create | mkdir | unlink | rmdir | rename | chmod | utime | write =>
      exact hanswer hallows

/-- What a record has become after a series of allowed outcomes is right. -/
theorem FileRecord.Describes.follow {fs fs' : FileSystem}
    {events : List Event} {outcomes : List (Option (Except Int Reply))}
    (hallowed : Simulation.Allowed
      (fun before event outcome after => (∃ world, Shown world before ∧
        Survivable world event) ∧ before.Undergoes event outcome after)
      fs events outcomes fs') {record record' : FileRecord}
    (hdescribes : record.Describes fs.tree)
    (hfollow : record.follow (events.zip outcomes) = some record') :
    record'.Describes fs'.tree := by
  induction hallowed generalizing record with
  | nil =>
      cases hfollow
      exact hdescribes
  | @cons before after last event outcome events outcomes hstep _ ih =>
      obtain ⟨⟨world, hshown, -⟩, hundergoes⟩ := hstep
      rw [List.zip_cons_cons] at hfollow
      cases event with
      | stop request k =>
          cases outcome with
          | some reply => exact hundergoes.elim
          | none =>
              rw [FileRecord.follow] at hfollow
              split at hfollow
              · cases hfollow
              · next record'' hobserve =>
                  exact ih (hdescribes.observeStop rfl hshown.wellFormed
                    hundergoes hobserve) hfollow
      | call request =>
          rcases outcome with _ | (status | reply)
          · exact hundergoes.elim
          · refine ih (hdescribes.of_eq ?_) hfollow
            rw [FileSystem.Allows.tree_of_error hundergoes]
          · rw [FileRecord.follow] at hfollow
            split at hfollow
            · cases hfollow
            · next record'' hobserve =>
                exact ih (hdescribes.observe rfl hshown.wellFormed
                  hundergoes hobserve) hfollow

/-- A read within a file returns the bytes that are known of it. -/
theorem FileRecord.Describes.read {world : World} {fs : FileSystem}
    (hshown : Shown world fs) {record : FileRecord}
    (hdescribes : record.Describes world.disk.tree) {path : CString}
    (hpath : parse path = record.path) (ctx : Context) {len offset : Nat}
    (hlen : 1 ≤ len) (hinside : offset + len ≤ record.bytes.length) :
    ∃ bytes, run (Request.perform ⟨ctx, .read path len offset⟩) world =
        some (.ok (.data len bytes), world) ∧
      List.Forall₂ Fits ((record.bytes.drop offset).take len) bytes := by
  obtain ⟨attributes, content, hfile, hbytes⟩ := hdescribes
  have hcons := hshown.steady.consistent
  rw [← hpath] at hfile
  rw [hbytes.length_eq] at hinside
  obtain ⟨⟨site, i⟩, hresolve, hobject⟩ := Disk.tree_eq_some_iff.mp hfile
  have hdir : ¬ (world.disk.inode i).isDir = true := fun hdir => by
    rw [Disk.object_of_isDir hdir] at hobject
    cases hobject
  rw [Disk.object_of_not_isDir hdir, Node.leaf.injEq] at hobject
  have hlength : (world.disk.inode i).length = content.length := by
    rw [← hobject.2, length_fileContent]
  have hsmall := (hcons.object _ _ _ (Disk.node_of_resolve hresolve)).size_range
    (hcons.isReg_of_resolve hresolve hdir)
  rw [FsInode.length] at hlength
  have hrun := hshown.run_read path hlen (Int.natCast_nonneg offset)
    (by omega) fun site' i' hresolve' _ => by
      rw [hresolve] at hresolve'
      cases hresolve'
      rw [FsInode.length]
      exact Or.inl (by omega)
  have hlookup : fs.tree.lookup (parse path) =
      .ok (.leaf attributes content) := by
    rw [hshown.tree, FileTree.lookup_eq_ok hcons.tree_wellFormed, hfile]
  rw [FileSystem.read, hlookup] at hrun
  dsimp only at hrun
  rw [Int.toNat_natCast] at hrun
  have hall : ((content.drop offset).take len).length = len := by
    rw [List.length_take, List.length_drop]
    omega
  rw [hall] at hrun
  exact ⟨_, hrun, List.forall₂_take _ (List.forall₂_drop _ hbytes)⟩

/-- No acknowledged write is lost: after any series of calls and stops on a
reachable file system, a file is where the acknowledged renames have put it,
and every read within it returns the bytes that the acknowledged writes and
truncations have made of it, but for those that a stopped write was about
to replace. -/
theorem undergo_keeps_acknowledged {image world : World}
    (hreach : Reachable image) {events : List Event}
    (hsurvivable : Simulation.Guarded World.undergo Survivable image events)
    {outcomes : List (Option (Except Int Reply))}
    (hanswers : Simulation.answers World.undergo image events =
      some (outcomes, world))
    {record record' : FileRecord}
    (hdescribes : record.Describes image.disk.tree)
    (hfollow : record.follow (events.zip outcomes) = some record') :
    record'.Describes world.disk.tree ∧
      ∀ path ctx len offset, parse path = record'.path → 1 ≤ len →
        offset + len ≤ record'.bytes.length →
        ∃ bytes, run (Request.perform ⟨ctx, .read path len (offset : Nat)⟩)
            world = some (.ok (.data len bytes), world) ∧
          List.Forall₂ FileRecord.Fits
            ((record'.bytes.drop offset).take len) bytes := by
  obtain ⟨outcomes', world', fs, hrun, hallowed, hshown⟩ :=
    undergo_simulates.restrict.run hreach.shown hsurvivable
  rw [hrun, Option.some.injEq, Prod.mk.injEq] at hanswers
  obtain ⟨rfl, rfl⟩ := hanswers
  have hlast := hdescribes.follow hallowed hfollow
  rw [hshown.tree] at hlast
  exact ⟨hlast, fun path ctx len offset hpath hlen hinside =>
    hlast.read hshown hpath ctx hlen hinside⟩

/-- `/d/b` is written to, `/d` is renamed to `/c`, and the machine stops in a
write of the second byte of `/c/b`. -/
theorem undergo_keeps_acknowledged_sample :
    let pathE : CString := ⟨[47, 99, 47, 98], by decide⟩
    let events := [
      Event.call (Sample.request (.write Sample.pathB [1, 2, 3] 0)),
      Event.call (Sample.request (.rename Sample.pathD Sample.pathC)),
      Event.stop (Sample.request (.write pathE [7] 1)) 1]
    let record : FileRecord := ⟨[[99], Sample.nameB], [some 1, none, some 3]⟩
    ∃ outcomes world,
      Simulation.answers World.undergo (Sample.world 400 zeroBlock).boot
        events = some (outcomes, world) ∧
      record.Describes world.disk.tree ∧
      ∀ path ctx len offset, parse path = record.path → 1 ≤ len →
        offset + len ≤ record.bytes.length →
        ∃ bytes, run (Request.perform ⟨ctx, .read path len (offset : Nat)⟩)
            world = some (.ok (.data len bytes), world) ∧
          List.Forall₂ FileRecord.Fits
            ((record.bytes.drop offset).take len) bytes := by
  intro pathE events record
  have hreach := Sample.reachable 400 zeroBlock (by decide) (by decide)
  have houtcomes : ((Simulation.answers World.undergo
      (Sample.world 400 zeroBlock).boot events).map fun result =>
        FileRecord.follow ⟨[Sample.nameD, Sample.nameB], []⟩
          (events.zip result.1)) = some (some record) := by
    decide +kernel
  obtain ⟨⟨outcomes, world⟩, hanswers, hfollow⟩ :=
    Option.map_eq_some_iff.mp houtcomes
  have hstart : FileRecord.Describes ⟨[Sample.nameD, Sample.nameB], []⟩
      (Sample.world 400 zeroBlock).boot.disk.tree := by
    have htree := hreach.steady.consistent.tree_of_node
      (Sample.node_b 400 zeroBlock)
    rw [Disk.object_of_not_isDir (by decide)] at htree
    exact ⟨_, _, htree, .nil⟩
  have hsurvivable : Simulation.Guarded World.undergo Survivable
      (Sample.world 400 zeroBlock).boot events :=
    ⟨⟨by decide, fun _ _ _ => trivial⟩, fun _ _ _ =>
      ⟨⟨trivial, fun _ _ _ => trivial⟩, fun _ _ _ =>
        ⟨⟨⟨by decide, fun _ _ _ => trivial⟩, trivial, id⟩,
          fun _ _ _ => trivial⟩⟩⟩
  exact ⟨outcomes, world, hanswers,
    undergo_keeps_acknowledged hreach hsurvivable hanswers hstart hfollow⟩

end Fs5600
