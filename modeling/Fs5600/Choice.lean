/-
What the claiming calls of two directories decide: neither choice changes
what the other one looks at, and they do not touch a common block.
-/
import Fs5600.Sight

namespace Fs5600

open MachineWord EffectProgram Program LabelledWalk

/-- What the kernel promises of a claiming call.  A write may end anywhere. -/
def Call.Promised : Call → Prop
  | .write _ buf offset => 1 ≤ buf.length ∧ 0 ≤ offset
  | other => other.Contract

theorem Call.Contract.promised {call : Call} (hcontract : call.Contract) :
    call.Promised := by
  cases call with
  | write path buf offset => exact ⟨hcontract.1, hcontract.2.1⟩
  | init | getattr | readdir | create | mkdir | unlink | rmdir | rename
  | chmod | utime | truncate | read | statfs => exact hcontract

/-- The request is about a name in the directory at `site`.  A directory is
never unlinked: the callers of `fs_unlink` see to that. -/
structure Meant (disk : Disk) (request : Request) (site : List Slot) :
    Prop where
  claims : request.call.Claims
  promised : request.call.Promised
  parent : ∃ inum,
    disk.resolve request.call.subject.dropLast = .ok (site, inum) ∧
      (disk.inode inum).isDir = true
  file : ∀ path, request.call = .unlink path → ∀ target i,
    disk.resolve (parse path) = .ok (target, i) →
      (disk.inode i).isDir = false

/-- A write that ends within the pointers of an inode, or another call. -/
structure Aimed (disk : Disk) (request : Request) (site : List Slot) : Prop
    extends Meant disk request site where
  contract : request.call.Contract

/-- The changes that a call on the path of these names may decide on, in the
directory at `site`. -/
inductive Choice (disk : Disk) (names : List Name) (site : List Slot) :
    Change → Prop
  | insert (inum : Nat) (slot : Slot) (name : Name) (inode : FsInode)
      (dirflag : Bool) (blocks : List Nat)
      (hparent : disk.resolve names.dropLast = .ok (site, inum))
      (hdir : (disk.inode inum).isDir = true) (hblocks : blocks ≠ []) :
      Choice disk names site
        (.insert site inum slot name inode dirflag blocks)
  | remove (inum : Nat) (slot : Slot) (blocks : List Nat)
      (hparent : disk.resolve names.dropLast = .ok (site, inum))
      (hdir : (disk.inode inum).isDir = true)
      (hfile : (disk.inode (disk.child inum slot)).isDir = false) :
      Choice disk names site (.remove site inum slot blocks)
  | write (path : List Slot) (inum offset : Nat) (buf : List UInt8)
      (mtime : UInt32) (fresh : List Nat)
      (htarget : disk.resolve names = .ok (path, inum))
      (hreg : (disk.inode inum).isReg = true)
      (hhome : path.dropLast = site) :
      Choice disk names site (.write path inum offset buf mtime fresh)

theorem World.planCreate_choice {world : World} {ctx : Context}
    {path : CString} {mode : UInt32} {dirflag : Bool} {change : Change}
    (hplan : world.planCreate ctx path mode dirflag = .ok change)
    {site : List Slot} {inum : Nat}
    (hparent : world.disk.resolve (parse path).dropLast = .ok (site, inum))
    (hdir : (world.disk.inode inum).isDir = true) :
    Choice world.disk (parse path) site change := by
  obtain ⟨site', inum', slot, blocks, hparent', -, -, -, hfree, rfl⟩ :=
    planCreate_eq_ok.mp hplan
  rw [hparent] at hparent'
  cases hparent'
  refine .insert _ _ _ _ _ _ hparent hdir fun hnil => ?_
  have hlength := (lowestFree_eq_some hfree).1
  rw [hnil, List.length_nil] at hlength
  cases dirflag <;> cases hlength

/-- A directory on the way is the parent of what the whole path names. -/
theorem Disk.dropLast_of_resolve {disk : Disk} {names : List Name}
    {path site : List Slot} {i inum : Nat}
    (htarget : disk.resolve names = .ok (path, i))
    (hparent : disk.resolve names.dropLast = .ok (site, inum)) :
    path.dropLast = site := by
  rcases List.eq_nil_or_concat names with rfl | ⟨front, name, rfl⟩
  · cases htarget
    cases hparent
    rfl
  · rw [List.concat_eq_append] at htarget hparent
    rw [List.dropLast_concat] at hparent
    rw [Disk.resolve_snoc, hparent] at htarget
    simp only [Except.bind] at htarget
    split at htarget
    · split at htarget
      · cases htarget
      · cases htarget
        exact List.dropLast_concat
    · cases htarget

theorem Aimed.choice {world : World} {request : Request} {site : List Slot}
    (haim : Aimed world.disk request site) {change : Change}
    (hplan : request.plan world = .ok change) :
    Choice world.disk request.call.subject site change := by
  obtain ⟨⟨hclaims, -, ⟨inum, hparent, hdir⟩, hfile⟩, hcontract⟩ := haim
  obtain ⟨ctx, call⟩ := request
  cases call with
  | create path mode => exact World.planCreate_choice hplan hparent hdir
  | mkdir path mode => exact World.planCreate_choice hplan hparent hdir
  | unlink path =>
      have hplan : world.planUnlink path = .ok change := hplan
      rw [World.planUnlink] at hplan
      cases hresolve : world.disk.resolve (parse path) with
      | error status => rw [hresolve] at hplan; cases hplan
      | ok there =>
          obtain ⟨site', inum', slot, hparent', -, hfound, rfl⟩ :=
            Disk.resolve_parent (parse_ne_nil hcontract) hresolve
          have hsame := hparent.symm.trans hparent'
          cases hsame
          rw [hresolve] at hplan
          simp only [World.planRemove, hparent', hfound] at hplan
          cases hplan
          exact .remove _ _ _ hparent hdir (hfile path rfl _ _ hresolve)
  | write path buf offset =>
      obtain ⟨target, i, fresh, htarget, hreg, -, -, rfl⟩ :=
        World.planWrite_eq_ok.mp hplan
      exact .write _ _ _ _ _ _ htarget hreg
        (Disk.dropLast_of_resolve htarget hparent)
  | init | getattr | readdir | rmdir | rename | chmod | utime | truncate
  | read | statfs => cases hclaims

section

variable {disk disk' : Disk} {names : List Name} {site : List Slot}
  {change : Change} (hchoice : Choice disk names site change)

include hchoice

theorem Choice.acting : change.Acting := by
  cases hchoice <;> trivial

theorem Choice.home_eq : change.home = site := by
  cases hchoice with
  | insert | remove => rfl
  | write path inum offset buf mtime fresh htarget hreg hhome => exact hhome

theorem Choice.spares : change.SparesDirs disk := by
  cases hchoice with
  | insert | write => trivial
  | remove inum slot blocks hparent hdir hfile => exact hfile

theorem Choice.mark_taken {blocks : List Nat}
    (hmark : .mark blocks ∈ change.acts disk) : change.taken ≠ [] := by
  cases hchoice with
  | insert inum slot name inode dirflag blocks hparent hdir hblocks =>
      exact hblocks
  | remove => simp [Change.acts] at hmark
  | write path inum offset buf mtime fresh =>
      rcases List.mem_append.mp hmark with hmark | hstore
      · rintro hnil
        rw [if_pos (show fresh = [] from hnil)] at hmark
        cases hmark
      · cases (storeActs_plain _ hstore).1

theorem Choice.rewrites_held {b : Nat} (hrw : change.Rewrites disk b) :
    ∃ key, change.Touches key ∧ disk.holder key = some b := by
  cases hchoice with
  | insert inum slot name inode dirflag blocks hparent hdir =>
      exact ⟨_, rfl, hrw ▸
        Disk.holder_entries (Disk.node_of_resolve hparent) hdir⟩
  | remove inum slot blocks hparent hdir =>
      exact ⟨_, rfl, hrw ▸
        Disk.holder_entries (Disk.node_of_resolve hparent) hdir⟩
  | write path inum offset buf mtime fresh htarget =>
      rcases hrw with rfl | ⟨k, hdata⟩
      · exact ⟨(path, .inode), ⟨rfl, Role.noConfusion⟩,
          Disk.holder_inode (Disk.node_of_resolve htarget)⟩
      · exact ⟨(path, .data k), ⟨rfl, Role.noConfusion⟩, hdata⟩

/-- A disk that looks the same has the same blocks to rewrite. -/
theorem Choice.rewrites_congr (hsight : Sight names disk disk') {b : Nat}
    (hrw : change.Rewrites disk' b) : change.Rewrites disk b := by
  cases hchoice with
  | insert inum slot name inode dirflag blocks hparent =>
      rw [Change.Rewrites, hsight.parent_inode hparent] at hrw
      exact hrw
  | remove inum slot blocks hparent =>
      rw [Change.Rewrites, hsight.parent_inode hparent] at hrw
      exact hrw
  | write path inum offset buf mtime fresh htarget =>
      refine hrw.imp_right fun ⟨k, hdata⟩ => ⟨k, ?_⟩
      have hnode := Disk.node_of_resolve
        (hsight.resolve_eq.trans htarget)
      rw [Disk.holder_of_node hnode, Disk.owned,
        hsight.inode_eq htarget] at hdata
      rw [Disk.holder_of_node (Disk.node_of_resolve htarget), Disk.owned]
      exact hdata

end

/-- Changes in different directories rewrite blocks under different keys. -/
theorem Change.touches_apart {change change' : Change}
    (hhomes : change.home ≠ change'.home) {key : List Slot × Role}
    (htouches : change.Touches key) : ¬ change'.Touches key := by
  intro htouches'
  cases change with
  | attributes | shrink | write =>
      cases change' with
      | attributes | shrink | write =>
          exact hhomes
            (congrArg List.dropLast (htouches.1.symm.trans htouches'.1))
      | relabel | insert | remove =>
          rw [Touches] at htouches'
          rw [htouches'] at htouches
          exact htouches.2 rfl
  | relabel | insert | remove =>
      rw [Touches] at htouches
      subst htouches
      cases change' with
      | attributes | shrink | write => exact htouches'.2 rfl
      | relabel | insert | remove => exact hhomes (congrArg Prod.fst htouches')

/-! Decisions again. -/

section

variable {world world' : World} {request : Request} {change : Change}

/-- A call that takes no blocks decides without a look at the bitmap. -/
theorem Request.plan_of_taken (hclaims : request.call.Claims)
    (hplan : request.plan world = .ok change) (htaken : change.taken = [])
    (hdisk : world'.disk = world.disk) : request.plan world' = .ok change := by
  have hcreate : ∀ ctx (path : CString) mode dirflag,
      world.planCreate ctx path mode dirflag ≠ .ok change := by
    intro ctx path mode dirflag hplan
    obtain ⟨site, inum, slot, blocks, -, -, -, -, hfree, rfl⟩ :=
      World.planCreate_eq_ok.mp hplan
    have hlength := (lowestFree_eq_some hfree).1
    rw [show blocks = [] from htaken, List.length_nil] at hlength
    cases dirflag <;> cases hlength
  obtain ⟨ctx, call⟩ := request
  cases call with
  | create path mode => exact absurd hplan (hcreate _ _ _ _)
  | mkdir path mode => exact absurd hplan (hcreate _ _ _ _)
  | unlink path =>
      simp only [plan, World.planUnlink, World.planRemove] at hplan ⊢
      rw [hdisk]
      exact hplan
  | write path buf offset =>
      obtain ⟨target, i, fresh, htarget, hreg, hinside, hfree, rfl⟩ :=
        World.planWrite_eq_ok.mp hplan
      have hnil : fresh = [] := htaken
      subst hnil
      have hlength := (lowestFree_eq_some hfree).1
      refine World.planWrite_eq_ok.mpr ⟨target, i, [], ?_⟩
      rw [hdisk, ← hlength, List.length_nil, lowestFree_zero]
      exact ⟨htarget, hreg, hinside, rfl, rfl⟩
  | init | getattr | readdir | rmdir | rename | chmod | utime | truncate
  | read | statfs => cases hclaims

/-- Two worlds in which a call sees the same let it decide alike, if they have
the same bitmap or the call takes no blocks. -/
theorem Request.plan_congr (hclaims : request.call.Claims) {disk : Disk}
    (hsight : Sight request.call.subject disk world.disk)
    (hsight' : Sight request.call.subject disk world'.disk)
    (hplan : request.plan world = .ok change)
    (hmap : world'.globals.bitmap = world.globals.bitmap ∨
      change.taken = []) : request.plan world' = .ok change := by
  let onto (other : World) : World :=
    { other with device := { other.device with disk := disk } }
  have hback : ∀ other : World, Sight request.call.subject disk other.disk →
      request.plan other = request.plan (onto other) :=
    fun other hother => Sight.plan_eq hclaims hother rfl
  rw [hback world hsight] at hplan
  rw [hback world' hsight']
  rcases hmap with hmap | htaken
  · have hsame : request.plan (onto world') = request.plan (onto world) :=
      Sight.plan_eq hclaims (.refl _ disk) hmap
    exact hsame.trans hplan
  · exact plan_of_taken hclaims hplan htaken rfl

end

/-! Two changes. -/

/-- A change, and what a call on the path of these names, in another
directory, decides behind it. -/
structure Successive (world : World) (change change' : Change)
    (names : List Name) : Prop where
  valid : ∃ names, change.Valid world names
  acting : change.Acting
  valid' : ∃ names, change'.Valid (change.apply world) names
  choice : ∃ site, Choice world.disk names site change'
  sight : Sight names world.disk (change.apply world).disk
  homes : change.home ≠ change'.home
  before : change'.taken = [] → ∃ names, change'.Valid world names

section

variable {world : World} (hmount : Mounted world) {change : Change}

include hmount

/-- What a change stores is in use behind it. -/
theorem Change.put_marked {names : List Name}
    (hvalid : change.Valid world names) (hacting : change.Acting) {b : Nat}
    {buf : Block} (hput : .put b buf ∈ change.acts world.disk) :
    Marked ((change.apply world).disk 1) b := by
  rw [apply_bitmap hmount hvalid, marked_map hmount hvalid]
  rcases put_cases hmount hvalid hput with htaken | ⟨hrw, -⟩
  · exact ⟨taken_not_released hmount hvalid htaken, Or.inl htaken⟩
  · obtain ⟨key, htouches, hheld⟩ := rewrites_held hvalid hrw
    refine ⟨fun hreleased => ?_,
      Or.inr (hmount.consistent.range key b hheld).2.2⟩
    obtain ⟨key', hdropped, hheld'⟩ := released_dropped hvalid hreleased
    rw [hmount.consistent.exclusive _ _ _ hheld hheld'] at htouches
    cases change with
    | insert | write => exact hdropped
    | remove path inum slot blocks =>
        cases htouches
        have hlength : (path ++ [slot]).length ≤ path.length :=
          List.IsPrefix.length_le hdropped
        rw [List.length_append, List.length_singleton] at hlength
        omega
    | attributes | relabel | shrink => cases hacting

variable (hnever : world.device.writeFails = never) {change' : Change}
  {names : List Name} (hpair : Successive world change change' names)

include hpair

/-- Both changes store different blocks. -/
theorem Successive.puts_apart {b : Nat} {buf buf' : Block}
    (hput : .put b buf ∈ change.acts world.disk) :
    Act.put b buf' ∉ change'.acts (change.apply world).disk := by
  intro hput'
  obtain ⟨_, hvalid⟩ := hpair.valid
  obtain ⟨_, hvalid'⟩ := hpair.valid'
  obtain ⟨site, hchoice⟩ := hpair.choice
  have hmount' := Change.mounted hmount hvalid
  rcases Change.put_cases hmount' hvalid' hput' with htaken | ⟨hrw, -⟩
  · exact (Change.taken_free hmount' hvalid' htaken).2.2
      (Change.put_marked hmount hvalid hpair.acting hput)
  · obtain ⟨key', htouches', hheld'⟩ :=
      hchoice.rewrites_held (hchoice.rewrites_congr hpair.sight hrw)
    rcases Change.put_cases hmount hvalid hput with htaken | ⟨hrw, -⟩
    · exact (Change.taken_free hmount hvalid htaken).2.2
        (hmount.consistent.range key' b hheld').2.2
    · obtain ⟨key, htouches, hheld⟩ := Change.rewrites_held hvalid hrw
      rw [hmount.consistent.exclusive _ _ _ hheld hheld'] at htouches
      exact Change.touches_apart hpair.homes htouches htouches'

/-- What the second change gives back was in use before the first one. -/
theorem Successive.released_apart {b : Nat}
    (hreleased : b ∈ change'.released world.disk) : b ∉ change.taken := by
  intro htaken
  obtain ⟨_, hvalid⟩ := hpair.valid
  obtain ⟨site, hchoice⟩ := hpair.choice
  have hnone : change'.taken = [] := by
    cases hchoice with
    | insert | write => cases hreleased
    | remove => rfl
  obtain ⟨_, hbefore⟩ := hpair.before hnone
  obtain ⟨key, -, hheld⟩ := Change.released_dropped hbefore hreleased
  exact (Change.taken_free hmount hvalid htaken).2.2
    (hmount.consistent.range key b hheld).2.2

include hnever

/-- The acts of the second change are those that it would have before the
first one. -/
theorem Successive.acts_eq :
    change'.acts (change.apply world).disk = change'.acts world.disk := by
  obtain ⟨_, hvalid'⟩ := hpair.valid'
  obtain ⟨_, hvalid⟩ := hpair.valid
  have hmount' := Change.mounted hmount hvalid
  have hsight := hpair.sight
  have hputs : ∀ b buf, .put b buf ∈ change'.acts (change.apply world).disk →
      (change.apply world).disk b = world.disk b := by
    intro b buf hput
    have hone := Change.put_ne_one hmount' hvalid' hput
    rw [← Change.applyActs_acts hpair.acting hnever]
    exact applyActs_disk_of_notMem hone (fun buf' hput' =>
      hpair.puts_apart hmount hput' hput) world
  obtain ⟨site, hchoice⟩ := hpair.choice
  cases hchoice with
  | insert inum slot name inode dirflag blocks hparent =>
      simp only [Change.acts, hsight.parent_inode hparent,
        hsight.parent _ _ hparent]
  | remove inum slot blocks hparent =>
      simp only [Change.acts, hsight.parent_inode hparent,
        hsight.parent _ _ hparent]
  | write path inum offset buf mtime fresh htarget =>
      simp only [Change.acts, hsight.inode_eq htarget] at hputs ⊢
      congr 1
      simp only [storeActs]
      congr 2
      refine List.map_congr_left fun k hk => ?_
      congr 1
      refine mergedBlock_congr (hputs _ (mergedBlock _ _ _ _ _ k)
        (List.mem_append_right _ (List.mem_append_left _
          (List.mem_cons_of_mem _ (List.mem_map.mpr ⟨k, hk, rfl⟩))))) _ _ _

/-- Acts of both changes do not clash, unless one gives back what the other
one takes. -/
theorem Successive.not_clashes {act act' : Act}
    (hact : act ∈ change.acts world.disk)
    (hact' : act' ∈ change'.acts world.disk)
    (hmaps : act.remaps = false ∨ change'.taken = []) :
    ¬ act.Clashes act' := by
  intro hclash
  obtain ⟨_, hvalid⟩ := hpair.valid
  obtain ⟨_, hvalid'⟩ := hpair.valid'
  cases act with
  | put b buf =>
      cases act' with
      | put b' buf' =>
          rw [← hpair.acts_eq hmount hnever] at hact'
          have hsame : b = b' := hclash
          subst hsame
          exact hpair.puts_apart hmount hact hact'
      | mark | clear | count | sync => exact hclash
  | mark blocks =>
      cases act' with
      | clear blocks' =>
          have htaken := (Change.mark_taken hvalid hact).1
          have hreleased := (Change.clear_released hact').1
          refine hclash fun b hb' hb => ?_
          rw [htaken] at hb
          rw [hreleased] at hb'
          exact hpair.released_apart hmount hb' hb
      | put | mark | count | sync => exact hclash
  | clear blocks =>
      cases act' with
      | mark blocks' =>
          rcases hmaps with hmaps | hnone
          · cases hmaps
          · rw [← hpair.acts_eq hmount hnever] at hact'
            exact (Change.mark_taken hvalid' hact').2 hnone
      | put | clear | count | sync => exact hclash
  | count | sync => exact hclash

end

/-- The bits that a valid change sets are bits of the bitmap. -/
theorem Change.acts_fit {world : World} (hmount : Mounted world)
    {names : List Name} {change : Change} (hvalid : change.Valid world names)
    {act : Act} (hact : act ∈ change.acts world.disk) : act.Fits := by
  cases act with
  | mark blocks =>
      obtain ⟨rfl, -⟩ := mark_taken hvalid hact
      exact fun b hb => (taken_free hmount hvalid hb).2.1.trans_le
        hmount.consistent.size_le
  | put | clear | count | sync => trivial

/-! Requests. -/

section

variable {world : World} (hsteady : Steady world) {request request' : Request}
  {site site' : List Slot} (haim : Aimed world.disk request site)
  (haim' : Aimed world.disk request' site') (hne : site ≠ site')
  {change change' : Change} (hplan : request.plan world = .ok change)

/-- What a call that sees nothing of the other one decides. -/
theorem Aimed.choice_of_sight {state : World}
    (haim : Aimed world.disk request site)
    (hsight : Sight request.call.subject world.disk state.disk)
    (hplan : request.plan state = .ok change) :
    Choice world.disk request.call.subject site change := by
  let other : World :=
    { state with device := { state.device with disk := world.disk } }
  have hsame : request.plan other = .ok change :=
    Request.plan_congr haim.claims hsight (.refl _ _) hplan (Or.inl rfl)
  have hother : Aimed other.disk request site := haim
  exact hother.choice hsame

include hsteady haim haim' hne hplan

/-- A call in another directory sees nothing of a choice, however far it is
carried out. -/
theorem Aimed.sight {did todo : List Act}
    (hacts : did ++ todo = change.acts world.disk) {state : World}
    (hstate : state.sansMap = (applyActs did world).sansMap) :
    Sight request'.call.subject world.disk state.disk := by
  obtain ⟨names, hvalid, -⟩ :=
    Request.plan_valid hsteady.toMounted haim.contract hplan
  obtain ⟨inum, hparent, hdir⟩ := haim'.parent
  have hchoice := haim.choice hplan
  have hpartly := Change.partly hsteady.toMounted hvalid hacts hstate
  exact hpartly.sight hsteady.toMounted hvalid hchoice.acting hchoice.spares
    hparent hdir fun hhome => hne (hchoice.home_eq.symm.trans hhome)

theorem Aimed.sight_apply :
    Sight request'.call.subject world.disk (change.apply world).disk := by
  refine haim.sight hsteady haim' hne hplan (List.append_nil _) ?_
  rw [Change.applyActs_acts (haim.choice hplan).acting hsteady.writes]

/-- What the other call decides behind the first choice. -/
theorem Aimed.successive
    (hplan' : request'.plan (change.apply world) = .ok change') :
    Successive world change change' request'.call.subject := by
  obtain ⟨names, hvalid, -⟩ :=
    Request.plan_valid hsteady.toMounted haim.contract hplan
  have hsight := haim.sight_apply hsteady haim' hne hplan
  have hchoice := haim.choice hplan
  have hchoice' := haim'.choice_of_sight hsight hplan'
  refine ⟨⟨names, hvalid⟩, hchoice.acting, ?_, ⟨site', hchoice'⟩, hsight, ?_,
    fun htaken => ?_⟩
  · obtain ⟨names', hvalid', -⟩ := Request.plan_valid
      (hsteady.apply hvalid).toMounted haim'.contract hplan'
    exact ⟨names', hvalid'⟩
  · rw [hchoice.home_eq, hchoice'.home_eq]
    exact hne
  · obtain ⟨names', hvalid', -⟩ := Request.plan_valid hsteady.toMounted
      haim'.contract (Request.plan_congr haim'.claims hsight (.refl _ _)
        hplan' (Or.inr htaken))
    exact ⟨names', hvalid'⟩

end

end Fs5600
