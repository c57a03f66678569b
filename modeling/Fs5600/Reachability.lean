/-
Histories of a file system on a device without errors: what one step does,
and what holds in every state that requests can reach.
-/
import Fs5600.Service

namespace Fs5600

open MachineWord EffectProgram Program

/-- A mounted file system on a device without errors. -/
structure Steady (world : World) : Prop extends Mounted world where
  writes : world.device.writeFails = never

/-- A request that is allowed in this world is served. -/
def Step (allowed : World → Request → Prop) (world world' : World) : Prop :=
  ∃ request reply, allowed world request ∧
    run request.perform world = some (reply, world')

/-- A history of allowed requests. -/
abbrev Reaches (allowed : World → Request → Prop) : World → World → Prop :=
  Relation.ReflTransGen (Step allowed)

/-- A world reached from a consistent image, on a device without errors, by
`fs_init` and a history of allowed requests. -/
structure History (allowed : World → Request → Prop) (image world : World) :
    Prop where
  consistent : Consistent image.disk image.device.size
  healthy : image.device.Healthy
  steps : ∃ result start, run fsInit image = some (result, start) ∧
    Reaches allowed start world

/-- Every request within the contract. -/
def anyCall (_ : World) (request : Request) : Prop := request.call.Contract

/-- Every mutating request within the contract. -/
def anyUpdate (_ : World) (request : Request) : Prop :=
  request.call.Mutates ∧ request.call.Contract

def Reachable (world : World) : Prop := ∃ image, History anyCall image world

/-- The result and the world of a plan without device errors. -/
def World.outcome (world : World) :
    Except Int Change → Except Int Int × World
  | .error status => (.error status, world)
  | .ok change => (.ok change.result, change.apply world)

theorem Steady.boot {world : World}
    (hcons : Consistent world.disk world.device.size)
    (hhealthy : world.device.Healthy) : Steady world.boot :=
  ⟨⟨hcons, hhealthy.1, rfl, rfl⟩, hhealthy.2⟩

section

variable {world world' : World} {request : Request}
  {reply : Except Int Reply} (hsteady : Steady world)

include hsteady

theorem Steady.apply {change : Change} {names : List Name}
    (hvalid : change.Valid world names) : Steady (change.apply world) :=
  ⟨Change.mounted hsteady.toMounted hvalid, applyAll_writeFails hsteady.writes⟩

/-- Without device errors a mutating call returns its plan's error and
changes nothing, or makes the planned change. -/
theorem Steady.run_inRange (hmut : request.call.Mutates)
    (hrange : request.call.InRange) :
    run request.perform world =
      some (match request.plan world with
        | .error status => (.error status, world)
        | .ok change =>
            (.ok (.code change.result), change.apply world)) := by
  rw [hsteady.toMounted.run_inRange hmut hrange]
  cases request.plan world with
  | error status => rfl
  | ok change =>
      rw [World.carryOut, commit_healthy hsteady.writes]
      rfl

theorem Steady.run_perform (hmut : request.call.Mutates)
    (hcontract : request.call.Contract) :
    run request.perform world =
      some (match request.plan world with
        | .error status => (.error status, world)
        | .ok change =>
            (.ok (.code change.result), change.apply world)) :=
  hsteady.run_inRange hmut hcontract.inRange

theorem Steady.run_follows {code : Fs Int} {plan : Except Int Change}
    (hfollows : Follows code world plan) :
    run code world = some (world.outcome plan) := by
  cases plan with
  | error status => exact hfollows
  | ok change =>
      rw [Follows, Performs, commit_healthy hsteady.writes] at hfollows
      exact hfollows

/-- All that one step can do. -/
theorem Steady.step_cases (hcontract : request.call.Contract)
    (hrun : run request.perform world = some (reply, world')) :
    world' = world ∨ world' = world.boot ∨
      ∃ change names, request.plan world = .ok change ∧
        change.Valid world names ∧
        change.target world.disk names = request.call.subject ∧
        world' = change.apply world := by
  by_cases hmut : request.call.Mutates
  · rw [hsteady.run_perform hmut hcontract] at hrun
    cases hplan : request.plan world with
    | error status =>
        rw [hplan] at hrun
        cases hrun
        exact Or.inl rfl
    | ok change =>
        rw [hplan] at hrun
        cases hrun
        obtain ⟨names, hvalid, htarget⟩ :=
          Request.plan_valid hsteady.toMounted hcontract hplan
        exact Or.inr (Or.inr ⟨change, names, rfl, hvalid, htarget, rfl⟩)
  · by_cases hinit : request.call = .init
    · rw [Request.run_init hinit hsteady.consistent hsteady.reads] at hrun
      cases hrun
      exact Or.inr (Or.inl rfl)
    · exact Or.inl (run_reads (Request.perform_reads hmut hinit)
        hsteady.reads hrun)

theorem Steady.step (hcontract : request.call.Contract)
    (hrun : run request.perform world = some (reply, world')) :
    Steady world' := by
  rcases hsteady.step_cases hcontract hrun with
    rfl | rfl | ⟨change, names, -, hvalid, -, rfl⟩
  · exact hsteady
  · exact Steady.boot hsteady.consistent ⟨hsteady.reads, hsteady.writes⟩
  · exact hsteady.apply hvalid

/-- What every allowed step keeps, every history keeps. -/
theorem Steady.keeps {allowed : World → Request → Prop} {P : World → Prop}
    (hallowed : ∀ world request, allowed world request →
      request.call.Contract)
    (hstep : ∀ world request reply world', Steady world →
      allowed world request →
      run request.perform world = some (reply, world') → P world → P world')
    (hstart : P world) (hreaches : Reaches allowed world world') :
    Steady world' ∧ P world' := by
  induction hreaches with
  | refl => exact ⟨hsteady, hstart⟩
  | tail _ hlast ih =>
      obtain ⟨hsteady', hkept⟩ := ih
      obtain ⟨request, reply, hok, hrun⟩ := hlast
      exact ⟨hsteady'.step (hallowed _ _ hok) hrun,
        hstep _ request reply _ hsteady' hok hrun hkept⟩

end

section

variable {allowed : World → Request → Prop} {image world : World}
  (hhistory : History allowed image world)

include hhistory

/-- A history starts in the world that `fs_init` leaves. -/
theorem History.reaches : Reaches allowed image.boot world := by
  obtain ⟨result, start, hinit, hreaches⟩ := hhistory.steps
  rw [run_fsInit hhistory.consistent hhistory.healthy.1] at hinit
  cases hinit
  exact hreaches

/-- Induction over a history. -/
theorem History.keeps {P : World → Prop}
    (hallowed : ∀ world request, allowed world request →
      request.call.Contract)
    (hstep : ∀ world request reply world', Steady world →
      allowed world request →
      run request.perform world = some (reply, world') → P world → P world')
    (hstart : P image.boot) : Steady world ∧ P world :=
  (Steady.boot hhistory.consistent hhistory.healthy).keeps hallowed hstep
    hstart hhistory.reaches

theorem History.steady
    (hallowed : ∀ world request, allowed world request →
      request.call.Contract) : Steady world :=
  (hhistory.keeps hallowed (P := fun _ => True)
    (fun _ _ _ _ _ _ _ _ => trivial) trivial).1

end

theorem Reachable.steady {world : World} (hreach : Reachable world) :
    Steady world := by
  obtain ⟨image, hhistory⟩ := hreach
  exact hhistory.steady fun _ _ hcontract => hcontract

theorem Reachable.boot {image : World}
    (hcons : Consistent image.disk image.device.size)
    (hhealthy : image.device.Healthy) : Reachable image.boot :=
  ⟨image, hcons, hhealthy, _, _, run_fsInit hcons hhealthy.1,
    Relation.ReflTransGen.refl⟩

/-! Runs of `serve`. -/

/-- A series of mutating calls is never undefined and keeps the file system
mounted. -/
theorem Steady.serve {world : World} (hsteady : Steady world)
    (requests : List Request)
    (hall : ∀ request ∈ requests,
      request.call.Mutates ∧ request.call.Contract) :
    ∃ replies world', serve requests world = some (replies, world') ∧
      Steady world' := by
  induction requests generalizing world with
  | nil => exact ⟨[], world, rfl, hsteady⟩
  | cons request requests ih =>
      obtain ⟨hmut, hcontract⟩ := hall request List.mem_cons_self
      have hrun := hsteady.run_perform hmut hcontract
      obtain ⟨replies, world', hserve, hsteady'⟩ :=
        ih (hsteady.step hcontract hrun) fun request' hmem =>
          hall request' (List.mem_cons_of_mem request hmem)
      have hall' := serve_cons requests hrun
      rw [hserve] at hall'
      exact ⟨_, world', hall', hsteady'⟩

/-- Served requests are a history. -/
theorem reaches_of_serve {allowed : World → Request → Prop}
    {requests : List Request} {world world' : World}
    {replies : List (Except Int Reply)}
    (hall : ∀ request ∈ requests, ∀ world, allowed world request)
    (hserve : serve requests world = some (replies, world')) :
    Reaches allowed world world' := by
  induction requests generalizing world replies with
  | nil =>
      cases hserve
      exact Relation.ReflTransGen.refl
  | cons request requests ih =>
      cases hrun : run request.perform world with
      | none => simp [serve, hrun] at hserve
      | some result =>
          obtain ⟨reply, next⟩ := result
          rw [serve_cons requests hrun, Option.map_eq_some_iff] at hserve
          obtain ⟨rest, hrest, heq⟩ := hserve
          cases heq
          refine Relation.ReflTransGen.head ⟨request, reply,
            hall request List.mem_cons_self world, hrun⟩ (ih ?_ hrest)
          exact fun request' hmem =>
            hall request' (List.mem_cons_of_mem request hmem)

theorem History.of_serve {allowed : World → Request → Prop}
    {requests : List Request} {image world : World}
    {replies : List (Except Int Reply)}
    (hcons : Consistent image.disk image.device.size)
    (hhealthy : image.device.Healthy)
    (hall : ∀ request ∈ requests, ∀ world, allowed world request)
    (hserve : serve requests image.boot = some (replies, world)) :
    History allowed image world :=
  ⟨hcons, hhealthy, _, _, run_fsInit hcons hhealthy.1,
    reaches_of_serve hall hserve⟩

end Fs5600
