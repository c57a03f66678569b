/-
Laws of sessions: calls on paths that are apart commute, a file holds what
the acknowledged writes have made of it, and a session of creations and
renamings can be undone.
-/
import Fs5600.Lib.Reordering
import Fs5600.Refinement

namespace Fs5600

open MachineWord EffectProgram Program NameTree

/-- What a mutating call returns when it succeeds. -/
def Call.result : Call → Int
  | .write _ buf _ => buf.length
  | _ => 0

/-- The edit that a mutating call makes when it succeeds, and how many free
blocks it takes.  The bytes that a longer `truncate` brings into view are
left out. -/
def FileTree.effect (tree : FileTree) (request : Request) :
    Option (TreeEdit × Int) :=
  match request.call, tree request.call.subject with
  | .create path mode, _ =>
      some (.put (parse path)
        (.leaf (FileSystem.newAttributes request.ctx mode) []), 1)
  | .mkdir path mode, _ =>
      some (.put (parse path)
        (.branch (FileSystem.newAttributes request.ctx
          (mode ||| sIfdir))), 2)
  | .unlink path, some object | .rmdir path, some object =>
      some (.erase (parse path), -objectCost object)
  | .rename srcPath dstPath, _ =>
      some (.move (parse srcPath) (parse dstPath), 0)
  | .chmod path mode, some object =>
      some (.put (parse path) (updateAttributes (fun attributes =>
        { attributes with mode :=
          (attributes.mode &&& ~~~permissionsMask) |||
            (mode &&& permissionsMask) }) object), 0)
  | .utime path modtime, some (.leaf attributes content) =>
      some (.put (parse path)
        (.leaf { attributes with mtime := wordOfInt modtime } content), 0)
  | .truncate path len, some (.leaf attributes content) =>
      some (.put (parse path) (.leaf attributes (content.take len.toNat)),
        (blockCount len.toNat : Int) - blockCount content.length)
  | .write path buf offset, some (.leaf attributes content) =>
      some (.put (parse path)
        (.leaf { attributes with mtime := wordOfInt (request.ctx.time 0) }
          (content.take offset.toNat ++ buf ++
            content.drop (offset.toNat + buf.length))),
        FileSystem.growth content (offset.toNat + buf.length))
  | _, _ => none

/-- No `truncate` makes its file longer. -/
def FileTree.CutsShort (tree : FileTree) : Call → Prop
  | .truncate path len => ∀ attributes content,
      tree (parse path) = some (.leaf attributes content) →
        len ≤ content.length
  | _ => True

theorem FileSystem.Allows.effect {fs fs' : FileSystem} {request : Request}
    {reply : Reply} (hallows : fs.Allows request (.ok reply) fs')
    (hwf : WellFormed fs.tree) (hmut : request.call.Mutates)
    (hcut : fs.tree.CutsShort request.call) :
    ∃ edit demand, fs.tree.effect request = some (edit, demand) ∧
      reply = .code request.call.result ∧
      fs'.tree = edit.apply fs.tree ∧ (fs'.free : Int) = fs.free - demand := by
  obtain ⟨ctx, call⟩ := request
  cases call with
  | create path mode =>
      obtain ⟨result, hmake, rfl⟩ := answer_eq_ok hallows
      obtain ⟨-, hfree, rfl, rfl⟩ := make_eq_ok hmake
      refine ⟨_, _, rfl, rfl, rfl, ?_⟩
      rw [objectCost, List.length_nil] at hfree
      change ((fs.free - 1 : Nat) : Int) = fs.free - 1
      omega
  | mkdir path mode =>
      obtain ⟨result, hmake, rfl⟩ := answer_eq_ok hallows
      obtain ⟨-, hfree, rfl, rfl⟩ := make_eq_ok hmake
      refine ⟨_, _, rfl, rfl, rfl, ?_⟩
      rw [objectCost] at hfree
      change ((fs.free - 2 : Nat) : Int) = fs.free - 2
      omega
  | unlink path =>
      obtain ⟨result, hunlink, rfl⟩ := answer_eq_ok hallows
      obtain ⟨attributes, content, hobject, rfl, rfl⟩ :=
        (unlink_eq_ok hwf).mp hunlink
      refine ⟨.erase (parse path), -objectCost (.leaf attributes content),
        ?_, rfl, rfl, ?_⟩
      · simp only [FileTree.effect, Call.subject, hobject]
      · change ((fs.free + objectCost (.leaf attributes content) : Nat) :
          Int) = _
        omega
  | rmdir path =>
      obtain ⟨result, hrmdir, rfl⟩ := answer_eq_ok hallows
      obtain ⟨attributes, hobject, -, rfl, rfl⟩ :=
        (rmdir_eq_ok hwf).mp hrmdir
      refine ⟨.erase (parse path), -objectCost (.branch attributes),
        ?_, rfl, rfl, ?_⟩
      · simp only [FileTree.effect, Call.subject, hobject]
      · change ((fs.free + objectCost (.branch attributes) : Nat) : Int) = _
        omega
  | rename srcPath dstPath =>
      obtain ⟨result, hrename, rfl⟩ := answer_eq_ok hallows
      obtain ⟨-, -, -, -, rfl, rfl⟩ := (rename_eq_ok hwf).mp hrename
      exact ⟨_, _, rfl, rfl, rfl, (Int.sub_zero _).symm⟩
  | chmod path mode =>
      obtain ⟨result, hchmod, rfl⟩ := answer_eq_ok hallows
      obtain ⟨object, hobject, rfl, rfl⟩ := chmod_eq_ok hwf hchmod
      refine ⟨.put (parse path) _, 0, ?_, rfl, rfl, (Int.sub_zero _).symm⟩
      simp only [FileTree.effect, Call.subject, hobject]
  | utime path modtime =>
      obtain ⟨result, hutime, rfl⟩ := answer_eq_ok hallows
      obtain ⟨attributes, content, hobject, rfl, rfl⟩ :=
        utime_eq_ok hwf hutime
      refine ⟨.put (parse path) _, 0, ?_, rfl, rfl, (Int.sub_zero _).symm⟩
      simp only [FileTree.effect, Call.subject, hobject]
  | truncate path len =>
      obtain ⟨tail, hanswer⟩ := hallows
      obtain ⟨result, htruncate, rfl⟩ := answer_eq_ok hanswer
      obtain ⟨attributes, content, hobject, hlen, hle, rfl, rfl⟩ :=
        truncate_eq_ok hwf htruncate
      have hshort := hcut attributes content hobject
      have hnone : len.toNat - content.length = 0 := by omega
      refine ⟨.put (parse path) (.leaf attributes (content.take len.toNat)),
        (blockCount len.toNat : Int) - blockCount content.length, ?_, rfl,
        ?_, ?_⟩
      · simp only [FileTree.effect, Call.subject, hobject]
      · rw [hnone, List.range_zero, List.map_nil, List.append_nil]
        rfl
      · change ((fs.free + (blockCount content.length -
          blockCount len.toNat) : Nat) : Int) = _
        omega
  | write path buf offset =>
      obtain ⟨result, hwrite, rfl⟩ := answer_eq_ok hallows
      obtain ⟨attributes, content, hobject, hfree, rfl, htree, hleft⟩ :=
        write_eq_ok hwf hwrite
      refine ⟨.put (parse path) _,
        growth content (offset.toNat + buf.length), ?_, rfl, htree, ?_⟩
      · simp only [FileTree.effect, Call.subject, hobject]
      · omega
  | init | getattr | readdir | read | statfs => cases hmut

/-! Paths that a call is about. -/

def Call.sites : Call → List (List Name)
  | .rename srcPath dstPath => [parse srcPath, parse dstPath]
  | other => [other.subject]

/-- `q` lies at or below a path that the call is about. -/
def Call.Covers (call : Call) (q : List Name) : Prop :=
  ∃ path ∈ call.sites, path <+: q

theorem Call.covers_subject (call : Call) : call.Covers call.subject := by
  refine ⟨call.subject, ?_, List.prefix_rfl⟩
  cases call <;> exact List.mem_cons_self

section

variable {tree tree' : FileTree} {request : Request}

theorem FileTree.effect_sites {edit : TreeEdit} {demand : Int}
    (heffect : tree.effect request = some (edit, demand)) :
    edit.sites = request.call.sites := by
  obtain ⟨ctx, call⟩ := request
  cases call with
  | create | mkdir | rename =>
      cases heffect
      rfl
  | init | getattr | readdir | read | statfs => cases heffect
  | unlink path | rmdir path | chmod path =>
      cases hobject : tree (parse path) with
      | none => simp [effect, Call.subject, hobject] at heffect
      | some object =>
          simp only [effect, Call.subject, hobject] at heffect
          cases heffect
          rfl
  | utime path | truncate path | write path =>
      rcases hobject : tree (parse path) with _ | ⟨_ | _⟩
      · simp [effect, Call.subject, hobject] at heffect
      · simp [effect, Call.subject, hobject] at heffect
      · simp only [effect, Call.subject, hobject] at heffect
        cases heffect
        rfl

/-- What a call does depends on its own paths. -/
theorem FileTree.effect_congr
    (hagree : ∀ q, request.call.Covers q → tree' q = tree q) :
    tree'.effect request = tree.effect request := by
  rw [effect, effect, hagree _ request.call.covers_subject]

/-- What a call leaves of the tree and of the free blocks when it succeeds. -/
def FileTree.play (state : FileTree × Int) (request : Request) :
    FileTree × Int :=
  match state.1.effect request with
  | none => state
  | some (edit, demand) => (edit.apply state.1, state.2 - demand)

theorem FileTree.play_outside {state : FileTree × Int} {q : List Name}
    (hout : ¬ request.call.Covers q) :
    (FileTree.play state request).1 q = state.1 q := by
  rw [play]
  split
  · rfl
  · next edit demand heffect =>
      refine Edit.apply_outside fun hcovers => hout ?_
      rw [Edit.Covers, effect_sites heffect] at hcovers
      exact hcovers

theorem FileTree.play_of_effect {state : FileTree × Int} {edit : TreeEdit}
    {demand : Int} (heffect : state.1.effect request = some (edit, demand)) :
    FileTree.play state request = (edit.apply state.1, state.2 - demand) := by
  rw [play, heffect]

theorem FileTree.play_of_none {state : FileTree × Int}
    (heffect : state.1.effect request = none) :
    FileTree.play state request = state := by
  rw [play, heffect]

end

/-- Calls whose paths are apart. -/
def Call.Apart (call call' : Call) : Prop :=
  ∀ path ∈ call.sites, ∀ path' ∈ call'.sites,
    ¬ path <+: path' ∧ ¬ path' <+: path

theorem Call.Apart.symm {call call' : Call} (hapart : call.Apart call') :
    call'.Apart call :=
  fun path hpath path' hpath' => (hapart path' hpath' path hpath).symm

theorem Call.Apart.not_covers {call call' : Call}
    (hapart : call.Apart call') {q : List Name} (hcovers : call.Covers q) :
    ¬ call'.Covers q := by
  obtain ⟨path, hpath, hpre⟩ := hcovers
  rintro ⟨path', hpath', hpre'⟩
  obtain ⟨hleft, hright⟩ := hapart path hpath path' hpath'
  rcases List.prefix_or_prefix_of_prefix hpre hpre' with hle | hle
  · exact hleft hle
  · exact hright hle

/-- Calls whose paths are apart have the same effect in either order. -/
theorem FileTree.play_comm {request request' : Request}
    (hapart : request.call.Apart request'.call) (state : FileTree × Int) :
    FileTree.play (FileTree.play state request') request =
      FileTree.play (FileTree.play state request) request' := by
  have hsame : (FileTree.play state request').1.effect request =
      state.1.effect request :=
    effect_congr fun q hcovers => play_outside (hapart.not_covers hcovers)
  have hsame' : (FileTree.play state request).1.effect request' =
      state.1.effect request' :=
    effect_congr fun q hcovers =>
      play_outside (hapart.symm.not_covers hcovers)
  cases heffect : state.1.effect request with
  | none =>
      rw [play_of_none (hsame.trans heffect), play_of_none heffect]
  | some change =>
      cases heffect' : state.1.effect request' with
      | none =>
          rw [play_of_none heffect', play_of_none (hsame'.trans heffect')]
      | some change' =>
          obtain ⟨edit, demand⟩ := change
          obtain ⟨edit', demand'⟩ := change'
          have hedits : edit.Apart edit' := by
            rw [Edit.Apart, effect_sites heffect, effect_sites heffect']
            exact hapart
          rw [play_of_effect (hsame.trans heffect),
            play_of_effect (hsame'.trans heffect'), play_of_effect heffect,
            play_of_effect heffect']
          refine Prod.ext (Edit.apply_comm hedits state.1) ?_
          change state.2 - demand' - demand = state.2 - demand - demand'
          omega

/-! Sessions in which every call succeeds. -/

theorem Reachable.shown {world : World} (hreach : Reachable world) :
    Shown world { world.shown with counted := false } := by
  obtain ⟨image, hhistory⟩ := hreach
  obtain ⟨hsteady, hannounced⟩ := hhistory.keeps (P := Announced)
    (fun _ _ hcontract => hcontract)
    (fun world request reply world' hsteady hcontract hrun hannounced => by
      rcases hsteady.step_cases hcontract hrun with
        rfl | rfl | ⟨change, names, -, hvalid, -, rfl⟩
      · exact hannounced
      · exact Announced.boot hsteady.consistent
      · exact hannounced.apply hsteady.toMounted hvalid)
    (Announced.boot hhistory.consistent)
  exact ⟨hsteady, rfl, rfl, rfl, hannounced, fun h => by cases h⟩

/-- A mutating call that its caller may make and that lengthens no file by
`truncate`. -/
def Clean (world : World) (request : Request) : Prop :=
  Orderly world request ∧ request.call.Mutates ∧
    world.disk.tree.CutsShort request.call

/-- A session in which every call succeeds does to the tree what its calls
do. -/
theorem Shown.plays {world world' : World} {fs : FileSystem}
    (hshown : Shown world fs) {requests : List Request}
    (hclean : Simulation.Guarded World.step Clean world requests)
    {replies : List (Except Int Reply)}
    (hserve : serve requests world = some (replies, world'))
    (hok : ∀ reply ∈ replies, reply.isOk = true) :
    (world'.disk.tree,
      (freeCount (world'.disk 1) world'.disk.diskSize : Int)) =
      requests.foldl FileTree.play (fs.tree, (fs.free : Int)) := by
  induction requests generalizing world fs replies with
  | nil =>
      cases hserve
      rw [List.foldl_nil, hshown.tree, hshown.free]
  | cons request requests ih =>
      obtain ⟨⟨horderly, hmut, hcut⟩, hnext⟩ := hclean
      obtain ⟨reply, after, fs', hstep, hallows, hafter⟩ :=
        perform_simulates world fs request hshown horderly
      rw [serve_eq_answers, Simulation.answers, hstep] at hserve
      dsimp only at hserve
      rw [Option.map_eq_some_iff] at hserve
      obtain ⟨⟨rest, last⟩, hrest, heq⟩ := hserve
      cases heq
      have hreply := hok reply List.mem_cons_self
      cases reply with
      | error status => cases hreply
      | ok reply =>
          rw [← hshown.tree] at hcut
          obtain ⟨edit, demand, heffect, -, htree, hfree⟩ :=
            hallows.effect hshown.wellFormed hmut hcut
          rw [List.foldl_cons, FileTree.play_of_effect heffect, ← htree,
            ← hfree]
          exact ih hafter (hnext _ _ hstep)
            ((serve_eq_answers requests after).trans hrest)
            fun other hmem => hok other (List.mem_cons_of_mem _ hmem)

/-- All paths of a call lie below a directory. -/
def Call.Within (home : List Name) (call : Call) : Prop :=
  ∀ path ∈ call.sites, home <+: path

instance (home : List Name) (call : Call) : Decidable (call.Within home) :=
  inferInstanceAs (Decidable (∀ path ∈ call.sites, home <+: path))

theorem Call.Within.apart {home home' : List Name} {call call' : Call}
    (hwithin : call.Within home) (hwithin' : call'.Within home')
    (hleft : ¬ home <+: home') (hright : ¬ home' <+: home) :
    call.Apart call' := by
  have hincomparable : ∀ path, home <+: path → ¬ home' <+: path := by
    intro path hpath hpath'
    rcases List.prefix_or_prefix_of_prefix hpath hpath' with hle | hle
    · exact hleft hle
    · exact hright hle
  refine fun path hpath path' hpath' => ⟨fun hle => ?_, fun hle => ?_⟩
  · exact hincomparable path' ((hwithin path hpath).trans hle)
      (hwithin' path' hpath')
  · exact hincomparable path (hwithin path hpath)
      ((hwithin' path' hpath').trans hle)

/-- The homes of two clients in the sample image. -/
def Sample.home : Bool → List Name
  | true => [nameA]
  | false => [nameD]

/-- The call that takes a call back. -/
def Call.inverse : Call → Option Call
  | .create path _ => some (.unlink path)
  | .mkdir path _ => some (.rmdir path)
  | .rename srcPath dstPath => some (.rename dstPath srcPath)
  | _ => none

/-- The calls that take back a session, last one first. -/
def undo (ctx : Context) (requests : List Request) : List Request :=
  requests.reverse.filterMap fun request =>
    request.call.inverse.map (Request.mk ctx)

theorem undo_cons {ctx : Context} {request : Request} {call : Call}
    (hinverse : request.call.inverse = some call) (requests : List Request) :
    undo ctx (request :: requests) = undo ctx requests ++ [⟨ctx, call⟩] := by
  rw [undo, undo, List.reverse_cons, List.filterMap_append]
  simp [hinverse]

theorem Shown.isDir_of_leaf {world : World} {fs : FileSystem}
    (hshown : Shown world fs) {names : List Name} {attributes : Attributes}
    {content : List UInt8}
    (hobject : fs.tree names = some (.leaf attributes content))
    {site : List Slot} {i : Nat}
    (hresolve : world.disk.resolve names = .ok (site, i)) :
    (world.disk.inode i).isDir = false := by
  rw [hshown.tree, Disk.tree_of_resolve hresolve] at hobject
  by_contra hdir
  rw [Disk.object_of_isDir (Bool.eq_true_of_not_eq_false hdir)] at hobject
  cases hobject

theorem Shown.no_entries {world : World} {fs : FileSystem}
    (hshown : Shown world fs) {names : List Name}
    (hempty : children fs.tree names = ∅)
    {site : List Slot} {i : Nat}
    (hresolve : world.disk.resolve names = .ok (site, i))
    (hdir : (world.disk.inode i).isDir = true) (slot : Slot) :
    (world.disk.entries i slot).valid = false := by
  rw [hshown.tree] at hempty
  exact (hshown.steady.consistent.children_empty
    (Disk.node_of_resolve hresolve) hdir).mp hempty slot

/-- A request that may only be answered with success is. -/
theorem Shown.forced {world : World} {fs fs' : FileSystem}
    (hshown : Shown world fs) {request : Request}
    (horderly : Orderly world request)
    (hforced : ∀ reply back, fs.Allows request reply back →
      reply = .ok (.code 0) ∧ back = fs') :
    ∃ world', run request.perform world = some (.ok (.code 0), world') ∧
      Shown world' fs' := by
  obtain ⟨reply, world', back, hrun, hallows, hshown'⟩ :=
    perform_simulates world fs request hshown horderly
  obtain ⟨rfl, rfl⟩ := hforced reply back hallows
  exact ⟨world', hrun, hshown'⟩

section

variable {world : World} {fs : FileSystem} (hshown : Shown world fs)
  (ctx : Context)

include hshown

theorem Shown.run_unlink {path : CString} (hne : components path ≠ [])
    {attributes : Attributes} {content : List UInt8}
    (hobject : fs.tree (parse path) = some (.leaf attributes content)) :
    ∃ world', run (Request.perform ⟨ctx, .unlink path⟩) world =
        some (.ok (.code 0), world') ∧
      Shown world'
        (fs.without (parse path) (.leaf attributes content)) := by
  refine hshown.forced ⟨hne, fun site i hresolve =>
    hshown.isDir_of_leaf hobject hresolve⟩ fun reply back hallows => ?_
  have hunlink := (FileSystem.unlink_eq_ok hshown.wellFormed).mpr
    ⟨_, _, hobject, rfl, rfl⟩
  have heq : (reply, back) = fs.answer (fs.unlink (parse path)) := hallows
  rw [hunlink] at heq
  cases heq
  exact ⟨rfl, rfl⟩

theorem Shown.run_rmdir {path : CString} (hne : components path ≠ [])
    {attributes : Attributes}
    (hobject : fs.tree (parse path) = some (.branch attributes))
    (hempty : children fs.tree (parse path) = ∅) :
    ∃ world', run (Request.perform ⟨ctx, .rmdir path⟩) world =
        some (.ok (.code 0), world') ∧
      Shown world' (fs.without (parse path) (.branch attributes)) := by
  refine hshown.forced ⟨hne, fun site i hresolve hdir =>
    Or.inl (hshown.no_entries hempty hresolve hdir)⟩
    fun reply back hallows => ?_
  have hrmdir := (FileSystem.rmdir_eq_ok hshown.wellFormed).mpr
    ⟨_, hobject, hempty, rfl, rfl⟩
  have heq : (reply, back) = fs.answer (fs.rmdir (parse path)) := hallows
  rw [hrmdir] at heq
  cases heq
  exact ⟨rfl, rfl⟩

theorem Shown.run_rename {srcPath dstPath : CString}
    (hthere : fs.tree (parse srcPath) ≠ none)
    (hfresh : fs.tree (parse dstPath) = none)
    (hlength : (parse dstPath).length = (parse srcPath).length)
    (hparent : (parse srcPath).dropLast = (parse dstPath).dropLast) :
    ∃ world', run (Request.perform ⟨ctx, .rename srcPath dstPath⟩) world =
        some (.ok (.code 0), world') ∧
      Shown world' { fs with
        tree := move fs.tree (parse srcPath) (parse dstPath) } := by
  refine hshown.forced ⟨trivial, fun _ _ _ => trivial⟩
    fun reply back hallows => ?_
  have hrename := (FileSystem.rename_eq_ok hshown.wellFormed).mpr
    ⟨hthere, hfresh, hlength, hparent, rfl, rfl⟩
  have heq : (reply, back) =
      fs.answer (fs.rename (parse srcPath) (parse dstPath)) := hallows
  rw [hrename] at heq
  cases heq
  exact ⟨rfl, rfl⟩

end

/-- The inverse of a call that has succeeded succeeds in what the call has
left, and gives back what it had found. -/
theorem FileSystem.Allows.inverse {fs fs' after : FileSystem}
    {request : Request} {call : Call} {reply : Reply} (ctx : Context)
    (hwf : WellFormed fs.tree) (hallows : fs.Allows request (.ok reply) fs')
    (hinverse : request.call.inverse = some call)
    (hcontract : request.call.Contract) (htree : after.tree = fs'.tree)
    (hfree : after.free = fs'.free) {world : World}
    (hshown : Shown world after) :
    ∃ world' back, run (Request.perform ⟨ctx, call⟩) world =
        some (.ok (.code 0), world') ∧ Shown world' back ∧
      back.tree = fs.tree ∧ back.free = fs.free := by
  obtain ⟨ctx', original⟩ := request
  cases original with
  | create path mode =>
      cases hinverse
      obtain ⟨result, hmake, -⟩ := answer_eq_ok hallows
      obtain ⟨hfresh, hroom, -, rfl⟩ := make_eq_ok hmake
      have hobject : after.tree (parse path) =
          some (.leaf (newAttributes ctx' mode) []) := by
        rw [htree]
        exact Function.update_self _ _ _
      obtain ⟨world', hrun, hback⟩ :=
        hshown.run_unlink ctx hcontract.1 hobject
      refine ⟨world', _, hrun, hback, ?_, ?_⟩
      · rw [without, htree]
        exact hwf.erase_put hfresh _
      · rw [without, hfree]
        exact Nat.sub_add_cancel hroom
  | mkdir path mode =>
      cases hinverse
      obtain ⟨result, hmake, -⟩ := answer_eq_ok hallows
      obtain ⟨hfresh, hroom, -, rfl⟩ := make_eq_ok hmake
      have hobject : after.tree (parse path) =
          some (.branch (newAttributes ctx' (mode ||| sIfdir))) := by
        rw [htree]
        exact Function.update_self _ _ _
      have hempty : children after.tree (parse path) = ∅ := by
        refine Set.eq_empty_of_forall_notMem fun name hname => hname ?_
        rw [htree]
        refine (Function.update_of_ne ?_ _ _).trans
          (hwf.below_none hfresh [name])
        simp
      obtain ⟨world', hrun, hback⟩ :=
        hshown.run_rmdir ctx hcontract.1 hobject hempty
      refine ⟨world', _, hrun, hback, ?_, ?_⟩
      · rw [without, htree]
        exact hwf.erase_put hfresh _
      · rw [without, hfree]
        exact Nat.sub_add_cancel hroom
  | rename srcPath dstPath =>
      cases hinverse
      obtain ⟨result, hrename, -⟩ := answer_eq_ok hallows
      obtain ⟨hthere, hfresh, hlength, hparent, -, rfl⟩ :=
        (rename_eq_ok hwf).mp hrename
      have hne : ¬ parse dstPath <+: parse srcPath := fun hpre => hthere (by
        rw [← hpre.eq_of_length hlength, hfresh])
      have hmoved : after.tree (parse dstPath) ≠ none := by
        have hroot := move_target fs.tree (parse srcPath) (parse dstPath) []
        rw [List.append_nil, List.append_nil] at hroot
        rw [htree]
        exact fun hnone => hthere (hroot.symm.trans hnone)
      have hgone : after.tree (parse srcPath) = none := by
        rw [htree]
        exact move_source hne List.prefix_rfl fs.tree
      obtain ⟨world', hrun, hback⟩ :=
        hshown.run_rename ctx hmoved hgone hlength.symm hparent.symm
      refine ⟨world', _, hrun, hback, ?_, hfree⟩
      dsimp only
      rw [htree]
      exact hwf.move_move hfresh
  | init | getattr | readdir | unlink | rmdir | chmod | utime | truncate
  | read | write | statfs => cases hinverse

theorem Shown.undo {world world' : World} {fs : FileSystem}
    (hshown : Shown world fs) (ctx : Context) {requests : List Request}
    (hall : ∀ request ∈ requests,
      request.call.inverse ≠ none ∧ request.call.Contract)
    {replies : List (Except Int Reply)}
    (hserve : serve requests world = some (replies, world'))
    (hok : ∀ reply ∈ replies, reply.isOk = true) :
    ∃ last back,
      serve (undo ctx requests) world' =
        some (List.replicate requests.length (.ok (.code 0)), last) ∧
      Shown last back ∧ back.tree = fs.tree ∧ back.free = fs.free := by
  induction requests generalizing world fs replies with
  | nil =>
      cases hserve
      exact ⟨_, fs, rfl, hshown, rfl, rfl⟩
  | cons request requests ih =>
      obtain ⟨hsome, hcontract⟩ := hall request List.mem_cons_self
      obtain ⟨call, hinverse⟩ := Option.ne_none_iff_exists'.mp hsome
      have horderly : Orderly world request := by
        refine ⟨hcontract, fun _ _ _ => ?_⟩
        cases hcall : request.call <;> rw [hcall] at hinverse <;> trivial
      obtain ⟨reply, after, fs', hstep, hallows, hafter⟩ :=
        perform_simulates world fs request hshown horderly
      rw [serve_eq_answers, Simulation.answers, hstep] at hserve
      dsimp only at hserve
      rw [Option.map_eq_some_iff] at hserve
      obtain ⟨⟨rest, last⟩, hrest, heq⟩ := hserve
      cases heq
      have hreply := hok reply List.mem_cons_self
      cases reply with
      | error status => cases hreply
      | ok reply =>
          obtain ⟨middle, back, hundo, hmiddle, htree, hfree⟩ := ih hafter
            (fun other hmem => hall other (List.mem_cons_of_mem _ hmem))
            ((serve_eq_answers requests after).trans hrest)
            (fun other hmem => hok other (List.mem_cons_of_mem _ hmem))
          obtain ⟨last', back', hrun, hlast, htree', hfree'⟩ :=
            hallows.inverse ctx hshown.wellFormed hinverse hcontract htree
              hfree hmiddle
          refine ⟨last', back', ?_, hlast, htree', hfree'⟩
          rw [undo_cons hinverse, serve_eq_answers, Simulation.answers_append
            ((serve_eq_answers _ _).symm.trans hundo), Simulation.answers,
            show World.step middle ⟨ctx, call⟩ = _ from hrun,
            List.length_cons, List.replicate_succ']
          rfl

/-- A session of creations and renamings, all of them successful, is taken
back by the inverse calls in the reverse order: each of these succeeds, and in
the end the tree and the number of free blocks are what they were. -/
theorem serve_undo {image world : World} (hreach : Reachable image)
    (ctx : Context) {requests : List Request}
    (hall : ∀ request ∈ requests,
      request.call.inverse ≠ none ∧ request.call.Contract)
    {replies : List (Except Int Reply)}
    (hserve : serve requests image = some (replies, world))
    (hok : ∀ reply ∈ replies, reply.isOk = true) :
    ∃ last,
      serve (undo ctx requests) world =
        some (List.replicate requests.length (.ok (.code 0)), last) ∧
      last.disk.tree = image.disk.tree ∧
      freeCount (last.disk 1) last.disk.diskSize =
        freeCount (image.disk 1) image.disk.diskSize := by
  obtain ⟨last, back, hundo, hlast, htree, hfree⟩ :=
    hreach.shown.undo ctx hall hserve hok
  rw [hlast.tree] at htree
  rw [hlast.free] at hfree
  exact ⟨last, hundo, htree, hfree⟩

/-- `/d` is renamed to `/c` after `/d/c` has been made in it. -/
theorem serve_undo_sample :
    let requests := [
      Sample.request (.mkdir ⟨[47, 100, 47, 99], by decide⟩ 0o755),
      Sample.request (.rename Sample.pathD Sample.pathC),
      Sample.request (.create Sample.pathD 0o100644)]
    ∃ world replies last,
      serve requests (Sample.world 400 zeroBlock).boot =
        some (replies, world) ∧
      serve (undo Sample.context requests) world =
        some (List.replicate 3 (.ok (.code 0)), last) ∧
      last.disk.tree = (Sample.world 400 zeroBlock).boot.disk.tree ∧
      freeCount (last.disk 1) last.disk.diskSize =
        freeCount ((Sample.world 400 zeroBlock).boot.disk 1)
          (Sample.world 400 zeroBlock).boot.disk.diskSize := by
  intro requests
  have hreplies : ((serve requests (Sample.world 400 zeroBlock).boot).map
      fun result => result.1.all Except.isOk) = some true := by
    decide +kernel
  obtain ⟨⟨replies, world⟩, hserve, hok⟩ :=
    Option.map_eq_some_iff.mp hreplies
  rw [List.all_eq_true] at hok
  have hall : ∀ request ∈ requests,
      request.call.inverse ≠ none ∧ request.call.Contract := by
    intro request hmem
    simp only [requests, List.mem_cons, List.not_mem_nil, or_false] at hmem
    rcases hmem with rfl | rfl | rfl
    · exact ⟨Option.some_ne_none _, by decide⟩
    · exact ⟨Option.some_ne_none _, trivial⟩
    · exact ⟨Option.some_ne_none _, by decide⟩
  obtain ⟨last, hundo, htree, hfree⟩ := serve_undo
    (Sample.reachable 400 zeroBlock (by decide) (by decide)) Sample.context
    hall hserve hok
  exact ⟨world, replies, last, hserve, hundo, htree, hfree⟩

end Fs5600
