/-
The joint invariant of two claiming calls in different directories: from the
first choice on one of them is ahead, and the other one has chosen, if it has,
what it would choose behind it.
-/
import Fs5600.FileClaiming
import Fs5600.Choice

namespace Fs5600

open MachineWord EffectProgram Program

/-! The order of two calls. -/

/-- How far the call has come that is the second in order: it has not chosen
yet, or it has chosen as it would behind `change`.  `todo` are the acts that
are still missing in `change`, and the last argument are its own acts. -/
inductive Behind (world : World) (change : Change) (todo : List Act)
    (request : Request) : Phase → List Act → Prop
  | looking : Behind world change todo request .looking []
  | acting (change' : Change) (did' todo' : List Act)
      (hplan : request.plan (change.apply world) = .ok change')
      (hacts : did' ++ todo' = change'.acts world.disk)
      (hmaps : (∀ act ∈ todo, act.remaps = false) ∨ change'.taken = []) :
      Behind world change todo request (.acting change' todo') did'

/-- Both calls have come so far, and the first one is the first in order. -/
inductive Ahead (world : World) (request request' : Request) :
    Phase → Phase → World → Prop
  | acting (change : Change) (did todo did' : List Act) (phase' : Phase)
      (state : World) (hplan : request.plan world = .ok change)
      (hacts : did ++ todo = change.acts world.disk)
      (hbehind : Behind world change todo request' phase' did')
      (hstate : state.sansMap =
        (applyActs did' (applyActs did world)).sansMap) :
      Ahead world request request' (.acting change todo) phase' state

section

variable {world state state' : World} (hsteady : Steady world)
  {request request' : Request} {site site' : List Slot}
  (haim : Aimed world.disk request site)
  (haim' : Aimed world.disk request' site') (hne : site ≠ site')
  {phase phase' next : Phase}
  (hahead : Ahead world request request' phase phase' state)

include hsteady haim haim' hne hahead

/-- The first call goes on. -/
theorem Ahead.first (hmoves : Moves phase state state' next) :
    Ahead world request request' next phase' state' := by
  cases hmoves with
  | idle => exact hahead
  | act change acts todo =>
      cases hahead with
      | acting _ did _ did' _ _ hplan hacts hbehind hstate =>
          rw [← List.append_assoc] at hacts
          have hmem : ∀ act ∈ acts, act ∈ change.acts world.disk := by
            intro act hact
            rw [← hacts]
            exact List.mem_append_left _ (List.mem_append_right _ hact)
          refine .acting change (did ++ acts) todo did' _ _ hplan hacts ?_ ?_
          · cases hbehind with
            | looking => exact .looking
            | acting change' did' todo' hplan' hacts' hmaps =>
                exact .acting change' did' todo' hplan' hacts'
                  (hmaps.imp_left fun hnone act hact =>
                    hnone act (List.mem_append_right acts hact))
          · rw [applyActs_append, applyActs_sansMap acts hstate]
            cases hbehind with
            | looking => rfl
            | acting change' did' todo' hplan' hacts' hmaps =>
                have hpair := haim.successive hsteady haim' hne hplan hplan'
                obtain ⟨_, hvalid⟩ := hpair.valid
                obtain ⟨_, hvalid'⟩ := hpair.valid'
                have hmem' : ∀ act ∈ did', act ∈ change'.acts world.disk := by
                  intro act hact
                  rw [← hacts']
                  exact List.mem_append_left _ hact
                refine applyActs_exchange (fun act hact other hother => ?_)
                  (fun act hact => Change.acts_fit hsteady.toMounted hvalid
                    (hmem act hact)) (fun act hact => ?_) _
                · exact hpair.not_clashes hsteady.toMounted hsteady.writes
                    (hmem act hact) (hmem' other hother)
                    (hmaps.imp_left fun hnone =>
                      hnone act (List.mem_append_left todo hact))
                · refine Change.acts_fit (hsteady.apply hvalid).toMounted
                    hvalid' ?_
                  rw [hpair.acts_eq hsteady.toMounted hsteady.writes]
                  exact hmem' act hact

omit hsteady haim haim' hne

/-- The second call goes on. -/
theorem Ahead.second (hmoves : Moves phase' state state' next) :
    Ahead world request request' phase next state' := by
  cases hmoves with
  | idle => exact hahead
  | act change' acts todo =>
      cases hahead with
      | acting change did todo' did' _ _ hplan hacts hbehind hstate =>
          cases hbehind with
          | acting _ _ _ hplan' hacts' hmaps =>
              refine .acting change did todo' (did' ++ acts) _ _ hplan hacts
                (.acting change' _ todo hplan' ?_ hmaps) ?_
              · rw [List.append_assoc, hacts']
              · rw [applyActs_append]
                exact applyActs_sansMap acts hstate

end

/-- Whatever part of its acts a change has done: the bitmap is updated, or no
update is missing. -/
theorem Change.acts_split {change : Change} {disk : Disk}
    {did todo : List Act} (hacts : did ++ todo = change.acts disk) :
    (∀ act ∈ did, act.remaps = false) ∨ ∀ act ∈ todo, act.remaps = false := by
  have honce : (change.acts disk).countP Act.remaps ≤ 1 :=
    acts_once disk
  rw [← hacts, List.countP_append] at honce
  have hzero : ∀ acts : List Act, acts.countP Act.remaps = 0 →
      ∀ act ∈ acts, act.remaps = false := fun acts hnone act hact =>
    Bool.eq_false_iff.mpr (List.countP_eq_zero.mp hnone act hact)
  rcases Nat.eq_zero_or_pos (did.countP Act.remaps) with hnone | hpos
  · exact Or.inl (hzero did hnone)
  · exact Or.inr (hzero todo (by omega))

section

variable {world state : World} (hsteady : Steady world)
  {request request' : Request} {site site' : List Slot}
  (haim : Aimed world.disk request site)
  (haim' : Aimed world.disk request' site') (hne : site ≠ site')
  {change : Change} (hplan : request.plan world = .ok change)
  {did todo : List Act} (hacts : did ++ todo = change.acts world.disk)
  (hstate : state.sansMap = (applyActs did world).sansMap)

include hsteady haim hplan hacts hstate

/-- The bitmap in memory is that from before the change or that behind it. -/
theorem Aimed.bitmap_cases :
    state.globals.bitmap = world.globals.bitmap ∧
        (∀ act ∈ did, act.remaps = false) ∨
      state.globals.bitmap = (change.apply world).globals.bitmap ∧
        ∀ act ∈ todo, act.remaps = false := by
  rw [World.globals_of_sansMap hstate]
  rcases Change.acts_split hacts with hdid | htodo
  · exact Or.inl ⟨applyActs_bitmap did world hdid, hdid⟩
  · refine Or.inr ⟨?_, htodo⟩
    rw [← Change.applyActs_acts (haim.choice hplan).acting hsteady.writes,
      ← hacts, applyActs_append, applyActs_bitmap todo _ htodo]

include haim' hne

/-- What the second call sees before it chooses. -/
theorem Aimed.undisturbed :
    Undisturbed request'.call.subject world state := by
  have hbeside := (applyActs_beside did world).trans
    (World.beside_of_sansMap hstate)
  refine ⟨hbeside, haim.sight hsteady haim' hne hplan hacts hstate,
    fun b hb => ?_⟩
  obtain ⟨names, hvalid, -⟩ :=
    Request.plan_valid hsteady.toMounted haim.contract hplan
  have hreserved : ∀ world : World, Steady world →
      Marked world.globals.bitmap b := by
    intro world hsteady
    rw [hsteady.bitmap]
    exact hsteady.consistent.reserved b hb
  rcases haim.bitmap_cases hsteady hplan hacts hstate with
    ⟨hmap, -⟩ | ⟨hmap, -⟩
  · exact hmap ▸ hreserved world hsteady
  · exact hmap ▸ hreserved _ (hsteady.apply hvalid)

/-- The second call chooses.  Where the first one has still to clear its
blocks, the calls change places. -/
theorem Ahead.choose {change' : Change}
    (hplan' : request'.plan state = .ok change')
    (hmarks : ∀ blocks, .mark blocks ∈ todo → change'.taken = []) :
    Ahead world request request' (.acting change todo)
        (.acting change' (change'.acts world.disk)) state ∨
      Ahead world request' request
        (.acting change' (change'.acts world.disk)) (.acting change todo)
        state := by
  have hsight := haim.sight hsteady haim' hne hplan hacts hstate
  have hsight' := haim.sight_apply hsteady haim' hne hplan
  have hsecond : ((change.apply world).globals.bitmap = state.globals.bitmap ∨
        change'.taken = []) →
      ((∀ act ∈ todo, act.remaps = false) ∨ change'.taken = []) →
      Ahead world request request' (.acting change todo)
        (.acting change' (change'.acts world.disk)) state := by
    intro hmap hmaps
    exact .acting change did todo [] _ _ hplan hacts
      (.acting change' [] _ (Request.plan_congr haim'.claims hsight hsight'
        hplan' hmap) (List.nil_append _) hmaps) hstate
  rcases haim.bitmap_cases hsteady hplan hacts hstate with
    ⟨hmap, -⟩ | ⟨hmap, htodo⟩
  · by_cases hnone : change'.taken = []
    · exact Or.inl (hsecond (Or.inr hnone) (Or.inr hnone))
    · by_cases hclear : ∀ act ∈ todo, act.remaps = false
      · refine Or.inl (hsecond (Or.inl ?_) (Or.inl hclear))
        rw [World.globals_of_sansMap hstate, ←
          Change.applyActs_acts (haim.choice hplan).acting hsteady.writes,
          ← hacts, applyActs_append, applyActs_bitmap todo _ hclear]
      · -- the pending update clears: the first call takes no blocks
        have htaken : change.taken = [] := by
          push Not at hclear
          obtain ⟨act, hact, hremaps⟩ := hclear
          cases act with
          | mark blocks => exact absurd (hmarks blocks hact) hnone
          | clear blocks =>
              refine (Change.clear_released (?_ : .clear blocks ∈
                change.acts world.disk)).2
              rw [← hacts]
              exact List.mem_append_right did hact
          | put | count | sync => exact absurd rfl hremaps
        have hfirst : request'.plan world = .ok change' :=
          Request.plan_congr haim'.claims hsight (.refl _ _) hplan'
            (Or.inl hmap.symm)
        have hback := haim'.sight_apply hsteady haim hne.symm hfirst
        exact Or.inr (.acting change' [] _ did _ _ hfirst (List.nil_append _)
          (.acting change did todo (Request.plan_congr haim.claims
            (.refl _ _) hback hplan (Or.inr htaken)) hacts (Or.inr htaken))
          hstate)
  · exact Or.inl (hsecond (Or.inl hmap.symm) (Or.inl htodo))

end

/-! What both calls can count on. -/

/-- The acts that a call has still to do. -/
def Phase.todo : Phase → List Act
  | .looking => []
  | .acting _ todo => todo

/-- The missing acts of a call update the bitmap at most once, store it
behind the update, and put nothing else into its block. -/
structure Phase.Careful (phase : Phase) : Prop where
  once : phase.todo.countP Act.remaps ≤ 1
  tidy : Tidy phase.todo
  spares : ∀ buf, .put 1 buf ∉ phase.todo

section

variable {phase phase' : Phase} {state state' : World}
  (hcareful : phase.Careful) (hmoves : Moves phase state state' phase')

include hcareful hmoves

/-- Before a call marks its blocks, it leaves the bitmap alone. -/
theorem Phase.Careful.marks {blocks : List Nat}
    (hmark : .mark blocks ∈ phase'.todo) :
    .mark blocks ∈ phase.todo ∧ SameBitmap state state' := by
  cases hmoves with
  | idle => exact ⟨hmark, rfl⟩
  | act change acts todo =>
      refine ⟨List.mem_append_right acts hmark,
        applyActs_bitmap acts state fun act hact => ?_⟩
      have honce : (acts ++ todo).countP Act.remaps ≤ 1 := hcareful.once
      have hpos : 0 < todo.countP Act.remaps :=
        List.countP_pos_iff.mpr ⟨_, hmark, rfl⟩
      rw [List.countP_append] at honce
      exact Bool.eq_false_iff.mpr
        (List.countP_eq_zero.mp (by omega) act hact)

/-- Behind its last store of the bitmap block 1 holds the bitmap, unless it
did not before and no store was missing. -/
theorem Phase.Careful.synced (hlast : .sync ∉ phase'.todo)
    (hstart : .sync ∈ phase.todo ∨ state.disk 1 = state.globals.bitmap) :
    state'.disk 1 = state'.globals.bitmap := by
  cases hmoves with
  | idle => exact hstart.resolve_left hlast
  | act change acts todo =>
      refine Tidy.synced hcareful.tidy hlast (hstart.imp_left fun hmem => ?_)
        fun buf hput => hcareful.spares buf (List.mem_append_left todo hput)
      exact (List.mem_append.mp hmem).resolve_right hlast

end

theorem Phase.careful_looking : Phase.looking.Careful :=
  ⟨Nat.zero_le 1, trivial, fun _ => List.not_mem_nil⟩

theorem Phase.careful {world : World} (hmount : Mounted world)
    {names : List Name} {change : Change} (hvalid : change.Valid world names)
    {did todo : List Act} (hacts : did ++ todo = change.acts world.disk) :
    (Phase.acting change todo).Careful := by
  have honce : (change.acts world.disk).countP Act.remaps ≤ 1 :=
    Change.acts_once world.disk
  have htidy : Tidy (change.acts world.disk) := Change.acts_tidy world.disk
  rw [← hacts] at honce htidy
  refine ⟨?_, htidy.back, fun buf hput => ?_⟩
  · rw [List.countP_append] at honce
    exact (Nat.le_add_left _ _).trans honce
  · exact Change.put_ne_one hmount hvalid
      (hacts ▸ List.mem_append_right did hput) rfl

section

variable {world state : World} (hsteady : Steady world)
  {request request' : Request} {site site' : List Slot}
  (haim : Aimed world.disk request site)
  (haim' : Aimed world.disk request' site') (hne : site ≠ site')
  {phase phase' : Phase}
  (hahead : Ahead world request request' phase phase' state)

include hsteady haim haim' hne hahead

theorem Ahead.sees_first : (request.protocol world).sees phase state := by
  cases hahead with
  | acting change did todo did' _ _ hplan hacts hbehind hstate =>
      obtain ⟨names, hvalid, -⟩ :=
        Request.plan_valid hsteady.toMounted haim.contract hplan
      have hmount := hsteady.toMounted
      refine ⟨((applyActs_beside did world).trans
        (applyActs_beside did' _)).trans (World.beside_of_sansMap hstate),
        fun b buf hput => ?_⟩
      have hmem : Act.put b buf ∈ change.acts world.disk := by
        rw [← hacts]
        exact List.mem_append_right did hput
      have hone := Change.put_ne_one hmount hvalid hmem
      have hfirst : (applyActs did world).disk b = world.disk b :=
        applyActs_disk_of_notMem hone (fun buf' => Change.acts_apart hmount
          hvalid (haim.choice hplan).acting hacts hput) world
      rw [World.disk_of_sansMap hstate hone]
      refine (applyActs_disk_of_notMem hone (fun buf' hdid => ?_) _).trans
        hfirst
      cases hbehind with
      | looking => cases hdid
      | acting change' did' todo' hplan' hacts' hmaps =>
          have hpair := haim.successive hsteady haim' hne hplan hplan'
          refine hpair.puts_apart hmount hmem (?_ : Act.put b buf' ∈ _)
          rw [hpair.acts_eq hmount hsteady.writes, ← hacts']
          exact List.mem_append_left _ hdid

theorem Ahead.sees_second : (request'.protocol world).sees phase' state := by
  cases hahead with
  | acting change did todo did' _ _ hplan hacts hbehind hstate =>
      cases hbehind with
      | looking => exact haim.undisturbed hsteady haim' hne hplan hacts hstate
      | acting change' _ todo' hplan' hacts' hmaps =>
          have hmount := hsteady.toMounted
          have hpair := haim.successive hsteady haim' hne hplan hplan'
          obtain ⟨_, hvalid⟩ := hpair.valid
          obtain ⟨_, hvalid'⟩ := hpair.valid'
          have hmount' := (hsteady.apply hvalid).toMounted
          refine ⟨((applyActs_beside did world).trans
            (applyActs_beside did' _)).trans (World.beside_of_sansMap hstate),
            fun b buf hput => ?_⟩
          rw [← hpair.acts_eq hmount hsteady.writes] at hacts'
          have hmem : Act.put b buf ∈
              change'.acts (change.apply world).disk := by
            rw [← hacts']
            exact List.mem_append_right did' hput
          have hone := Change.put_ne_one hmount' hvalid' hmem
          obtain ⟨site'', hchoice'⟩ := hpair.choice
          rw [World.disk_of_sansMap hstate hone]
          refine (applyActs_disk_of_notMem hone (fun buf' =>
            Change.acts_apart hmount' hvalid' hchoice'.acting hacts' hput)
              _).trans
            (applyActs_disk_of_notMem hone (fun buf' hdid => ?_) _)
          refine hpair.puts_apart hmount (?_ : Act.put b buf' ∈ _) hmem
          rw [← hacts]
          exact List.mem_append_left _ hdid

theorem Ahead.careful : phase.Careful ∧ phase'.Careful := by
  cases hahead with
  | acting change did todo did' _ _ hplan hacts hbehind hstate =>
      obtain ⟨names, hvalid, -⟩ :=
        Request.plan_valid hsteady.toMounted haim.contract hplan
      refine ⟨Phase.careful hsteady.toMounted hvalid hacts, ?_⟩
      cases hbehind with
      | looking => exact Phase.careful_looking
      | acting change' _ todo' hplan' hacts' hmaps =>
          have hpair := haim.successive hsteady haim' hne hplan hplan'
          obtain ⟨_, hvalid'⟩ := hpair.valid'
          rw [← hpair.acts_eq hsteady.toMounted hsteady.writes] at hacts'
          exact Phase.careful (hsteady.apply hvalid).toMounted hvalid' hacts'

end

/-- Once both calls are through, the second one has been served behind the
first one. -/
theorem Ahead.through {world state : World} (hsteady : Steady world)
    {request request' : Request} {site site' : List Slot}
    (haim : Aimed world.disk request site)
    (haim' : Aimed world.disk request' site') (hne : site ≠ site')
    {change change' : Change}
    (hahead : Ahead world request request' (.acting change [])
      (.acting change' []) state)
    (hsync : state.disk 1 = state.globals.bitmap) :
    request.plan world = .ok change ∧
      request'.plan (change.apply world) = .ok change' ∧
      state = change'.apply (change.apply world) := by
  cases hahead with
  | acting _ did _ did' _ _ hplan hacts hbehind hstate =>
      cases hbehind with
      | acting _ _ _ hplan' hacts' hmaps =>
          have hpair := haim.successive hsteady haim' hne hplan hplan'
          obtain ⟨_, hvalid⟩ := hpair.valid
          obtain ⟨_, hvalid'⟩ := hpair.valid'
          obtain ⟨_, hchoice'⟩ := hpair.choice
          have hsteady' := hsteady.apply hvalid
          have hlast := hsteady'.apply hvalid'
          rw [List.append_nil] at hacts hacts'
          rw [hacts, hacts', Change.applyActs_acts hpair.acting
            hsteady.writes, ← hpair.acts_eq hsteady.toMounted hsteady.writes,
            Change.applyActs_acts hchoice'.acting hsteady'.writes] at hstate
          refine ⟨hplan, hplan', World.eq_of_sansMap hstate ?_⟩
          rw [hsync, World.globals_of_sansMap hstate, hlast.bitmap]

theorem Call.Claims.mutates {call : Call} (hclaims : call.Claims) :
    call.Mutates := by
  cases call with
  | create | mkdir | unlink | write => trivial
  | init | getattr | readdir | rmdir | rename | chmod | utime | truncate
  | read | statfs => cases hclaims

/-! The joint invariant. -/

/-- Two calls, neither of which has chosen, or one ahead of the other. -/
def Ordered (world : World) (requests : Bool → Request)
    (phases : Bool → Phase) (state : World) : Prop :=
  (∀ i, phases i = .looking) ∧ state = world ∨
    ∃ i, Ahead world (requests i) (requests !i) (phases i) (phases !i) state

/-- Who has still to mark its blocks is inside its critical region, and block
1 holds the bitmap unless a store of it is missing. -/
structure Joint (world : World) (requests : Bool → Request)
    (phases : Bool → Phase) (state : World) (inside : Bool → Prop) :
    Prop where
  ordered : Ordered world requests phases state
  marks : ∀ i blocks, .mark blocks ∈ (phases i).todo → inside i
  sync : state.disk 1 = state.globals.bitmap ∨ ∃ i, .sync ∈ (phases i).todo

section

variable {world state state' : World} (hsteady : Steady world)
  {requests : Bool → Request} {sites : Bool → List Slot}
  (haim : ∀ i, Aimed world.disk (requests i) (sites i))
  (hne : ∀ i, sites i ≠ sites !i) {phases : Bool → Phase}
  (hordered : Ordered world requests phases state)

include hsteady haim hne hordered

theorem Ordered.sees (i : Bool) :
    ((requests i).protocol world).sees (phases i) state := by
  rcases hordered with ⟨hlooking, rfl⟩ | ⟨j, hahead⟩
  · rw [hlooking i]
    refine Undisturbed.mk (.refl state) (.refl _ _) fun b hb => ?_
    rw [hsteady.bitmap]
    exact hsteady.consistent.reserved b hb
  · rcases Bool.eq_or_eq_not i j with rfl | rfl
    · exact hahead.sees_first hsteady (haim _) (haim _) (hne _)
    · exact hahead.sees_second hsteady (haim _) (haim _) (hne _)

theorem Ordered.careful (i : Bool) : (phases i).Careful := by
  rcases hordered with ⟨hlooking, rfl⟩ | ⟨j, hahead⟩
  · rw [hlooking i]
    exact Phase.careful_looking
  · have hcareful := hahead.careful hsteady (haim _) (haim _) (hne _)
    rcases Bool.eq_or_eq_not i j with rfl | rfl
    · exact hcareful.1
    · exact hcareful.2

theorem Ordered.moves {i : Bool} {phase' : Phase}
    (hmoves : Moves (phases i) state state' phase') :
    Ordered world requests (Function.update phases i phase') state' := by
  rcases hordered with ⟨hlooking, rfl⟩ | ⟨j, hahead⟩
  · rw [hlooking i] at hmoves
    cases hmoves
    rw [← hlooking i, Function.update_eq_self]
    exact Or.inl ⟨hlooking, rfl⟩
  · refine Or.inr ⟨j, ?_⟩
    rcases Bool.eq_or_eq_not i j with rfl | rfl
    · rw [Function.update_self, Function.update_of_ne (by simp)]
      exact hahead.first hsteady (haim _) (haim _) (hne _) hmoves
    · rw [Function.update_self, Function.update_of_ne (by simp)]
      exact hahead.second hmoves

theorem Ordered.chooses {i : Bool} (hlooking : phases i = .looking)
    {change : Change} (hplan : (requests i).plan state = .ok change)
    (hmarks : ∀ blocks, .mark blocks ∈ (phases !i).todo →
      change.taken = []) :
    Ordered world requests (Function.update phases i
      (.acting change (change.acts world.disk))) state := by
  rcases hordered with ⟨hall, rfl⟩ | ⟨j, hahead⟩
  · refine Or.inr ⟨i, ?_⟩
    rw [Function.update_self, Function.update_of_ne (by simp), hall]
    exact .acting change [] _ [] _ _ hplan (List.nil_append _) .looking rfl
  · rcases Bool.eq_or_eq_not i j with rfl | rfl
    · rw [hlooking] at hahead
      cases hahead
    · rw [Bool.not_not] at hmarks
      cases hphase : phases j with
      | looking => rw [hphase] at hahead; cases hahead
      | acting first todo =>
          rw [hlooking, hphase] at hahead
          rw [hphase] at hmarks
          cases hahead with
          | acting _ did _ did' _ _ hfirst hacts hbehind hstate =>
              cases hbehind
              rcases Ahead.choose hsteady (haim _) (haim _) (hne _) hfirst
                hacts hstate hplan hmarks with hahead | hahead
              · refine Or.inr ⟨j, ?_⟩
                rw [Function.update_self, Function.update_of_ne (by simp),
                  hphase]
                exact hahead
              · refine Or.inr ⟨!j, ?_⟩
                rw [Bool.not_not, Function.update_self,
                  Function.update_of_ne (by simp), hphase]
                exact hahead

variable {inside : Bool → Prop} {i : Bool} {phase' : Phase}

/-- A call goes on; `entered` says that it is inside before its step ends. -/
theorem Joint.moves {entered : Prop}
    (hothers : ∀ j, j ≠ i → ∀ blocks, .mark blocks ∈ (phases j).todo →
      inside j)
    (hself : ∀ blocks, .mark blocks ∈ (phases i).todo → entered)
    (hsync : state.disk 1 = state.globals.bitmap ∨
      ∃ j, .sync ∈ (phases j).todo)
    (hmoves : Moves (phases i) state state' phase') :
    Joint world requests (Function.update phases i phase') state'
      (Function.update inside i (entered ∧ SameBitmap state state')) := by
  have hcareful := hordered.careful hsteady haim hne i
  refine ⟨hordered.moves hsteady haim hne hmoves, fun j blocks hmark => ?_,
    ?_⟩
  · by_cases hj : j = i
    · subst hj
      rw [Function.update_self] at hmark ⊢
      obtain ⟨hpending, hsame⟩ := hcareful.marks hmoves hmark
      exact ⟨hself blocks hpending, hsame⟩
    · rw [Function.update_of_ne hj] at hmark ⊢
      exact hothers j hj blocks hmark
  · by_cases hlater : .sync ∈ phase'.todo
    · refine Or.inr ⟨i, ?_⟩
      rw [Function.update_self]
      exact hlater
    · rcases hsync with hsame | ⟨j, hpending⟩
      · exact Or.inl (hcareful.synced hmoves hlater (Or.inr hsame))
      · by_cases hj : j = i
        · subst hj
          exact Or.inl (hcareful.synced hmoves hlater (Or.inl hpending))
        · refine Or.inr ⟨j, ?_⟩
          rw [Function.update_of_ne hj]
          exact hpending

omit hordered

/-- A step that the protocol allows keeps the joint invariant. -/
theorem Joint.step (hjoint : Joint world requests phases state inside)
    {code : Fs Reply} (hapart : Searching code → ∀ j, j ≠ i → ¬ inside j)
    (hmay : (requests i).May world code (phases i) state state' phase') :
    Joint world requests (Function.update phases i phase') state'
      (Function.update inside i
        ((Searching code ∨ inside i) ∧ SameBitmap state state')) := by
  have hordered := hjoint.ordered
  generalize hphase : phases i = phase at hmay
  cases hmay with
  | move hmoves =>
      rw [← hphase] at hmoves
      exact Joint.moves hsteady haim hne hordered
        (fun j _ => hjoint.marks j)
        (fun blocks hmark => Or.inr (hjoint.marks i blocks hmark))
        hjoint.sync hmoves
  | choose change hplan hsearch hmoves =>
      have hview := hordered.sees hsteady haim hne i
      rw [hphase] at hview
      have hchoice := (haim i).choice_of_sight (Undisturbed.sight hview) hplan
      have hchosen := hordered.chooses hsteady haim hne hphase hplan
        fun blocks hmark => by
          by_contra htaken
          exact hapart (hsearch htaken) (!i) (by simp)
            (hjoint.marks (!i) blocks hmark)
      rw [← Function.update_self i (Phase.acting change _) phases] at hmoves
      rw [← Function.update_idem
        (Phase.acting change (change.acts world.disk)) phase' phases]
      refine Joint.moves hsteady haim hne hchosen (fun j hj => ?_)
        (fun blocks hmark => ?_) ?_ hmoves
      · rw [Function.update_of_ne hj]
        exact hjoint.marks j
      · rw [Function.update_self] at hmark
        exact Or.inl (hsearch (hchoice.mark_taken hmark))
      · refine hjoint.sync.imp_right fun ⟨j, hpending⟩ => ⟨j, ?_⟩
        have hj : j ≠ i := by
          rintro rfl
          rw [hphase] at hpending
          cases hpending
        rw [Function.update_of_ne hj]
        exact hpending

end

end Fs5600
