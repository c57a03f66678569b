/-
The writing half of a call as a list of effects.  A call first reads and
decides; what it then does to the disk and to the globals is fixed, up to the
block write at which the device may fail.
-/
import Fs5600.Device

namespace Fs5600

open EffectProgram Program

inductive Effect where
  | write (b : Nat) (buf : Block)
  | modify (change : Globals → Globals)

def Effect.apply : Effect → World → World
  | .write b buf, world => world.issued.put b buf
  | .modify change, world => world.modify change

/-- The block that an effect writes. -/
def Effect.target : Effect → Option Nat
  | .write b _ => some b
  | .modify _ => none

/-- The number of block writes. -/
def writeCount (effects : List Effect) : Nat :=
  (effects.filterMap Effect.target).length

/-- The `k`-th coming access fails, and no other. -/
def failsAt (k : Nat) : Nat → Bool := fun n => n == k

/-- No block is written twice. -/
def WritesOnce (effects : List Effect) : Prop :=
  (effects.filterMap Effect.target).Nodup

/-- All effects in order, on a device that does not fail. -/
def applyAll (effects : List Effect) (world : World) : World :=
  effects.foldl (fun world effect => effect.apply world) world

/-- The effects in order up to the first write that fails. -/
def commit : List Effect → World → Except Int Unit × World
  | [], world => (.ok (), world)
  | .write b buf :: effects, world =>
      if world.device.writeFails 0 then (.error (-eIo), world.issued)
      else commit effects (world.issued.put b buf)
  | .modify change :: effects, world => commit effects (world.modify change)

section

variable (effect : Effect) (effects others : List Effect) (world : World)

@[simp] theorem applyAll_nil : applyAll [] world = world := rfl

@[simp] theorem applyAll_cons : applyAll (effect :: effects) world =
    applyAll effects (effect.apply world) := rfl

theorem applyAll_append : applyAll (effects ++ others) world =
    applyAll others (applyAll effects world) := by
  simp only [applyAll, List.foldl_append]

theorem commit_append : commit (effects ++ others) world =
    match commit effects world with
    | (.error status, world') => (.error status, world')
    | (.ok (), world') => commit others world' := by
  induction effects generalizing world with
  | nil => rfl
  | cons effect effects ih =>
      cases effect with
      | write b buf =>
          simp only [List.cons_append, commit]
          split
          · rfl
          · exact ih _
      | modify change => exact ih _

@[simp] theorem Effect.apply_size :
    (effect.apply world).device.size = world.device.size := by
  cases effect <;> rfl

@[simp] theorem Effect.apply_readFails :
    (effect.apply world).device.readFails = world.device.readFails := by
  cases effect <;> rfl

@[simp] theorem applyAll_size :
    (applyAll effects world).device.size = world.device.size := by
  induction effects generalizing world with
  | nil => rfl
  | cons effect effects ih => rw [applyAll_cons, ih, Effect.apply_size]

@[simp] theorem applyAll_readFails :
    (applyAll effects world).device.readFails = world.device.readFails := by
  induction effects generalizing world with
  | nil => rfl
  | cons effect effects ih => rw [applyAll_cons, ih, Effect.apply_readFails]

end

section

variable {effects others : List Effect} {world world' : World}

theorem Effect.apply_writeFails (effect : Effect)
    (hnever : world.device.writeFails = never) :
    (effect.apply world).device.writeFails = never := by
  cases effect with
  | write b buf =>
      simp only [Effect.apply, World.put_writeFails, World.issued, hnever]
      rfl
  | modify change => exact hnever

theorem applyAll_writeFails (hnever : world.device.writeFails = never) :
    (applyAll effects world).device.writeFails = never := by
  induction effects generalizing world with
  | nil => exact hnever
  | cons effect effects ih => exact ih (effect.apply_writeFails hnever)

/-- A block that is not written keeps its contents. -/
theorem applyAll_disk_of_notMem {b : Nat}
    (hnot : ∀ buf, Effect.write b buf ∉ effects) :
    (applyAll effects world).disk b = world.disk b := by
  induction effects generalizing world with
  | nil => rfl
  | cons effect effects ih =>
      rw [applyAll_cons,
        ih fun buf hmem => hnot buf (List.mem_cons_of_mem effect hmem)]
      cases effect with
      | write b' buf =>
          have hne : b ≠ b' := by
            rintro rfl
            exact hnot buf List.mem_cons_self
          exact Function.update_of_ne hne _ _
      | modify change => rfl

theorem mem_targets {b : Nat} :
    b ∈ effects.filterMap Effect.target ↔
      ∃ buf, Effect.write b buf ∈ effects := by
  rw [List.mem_filterMap]
  constructor
  · rintro ⟨effect, hmem, htarget⟩
    cases effect with
    | write b' buf => cases htarget; exact ⟨buf, hmem⟩
    | modify change => cases htarget
  · rintro ⟨buf, hmem⟩
    exact ⟨_, hmem, rfl⟩

/-- A block that is written once holds what was written. -/
theorem applyAll_disk_of_once {b : Nat} {buf : Block}
    (honce : WritesOnce effects) (hmem : Effect.write b buf ∈ effects) :
    (applyAll effects world).disk b = buf := by
  obtain ⟨front, back, rfl⟩ := List.append_of_mem hmem
  have hnot : ∀ buf', Effect.write b buf' ∉ back := by
    intro buf' hlater
    rw [WritesOnce, List.filterMap_append] at honce
    have hback := (List.nodup_append.mp honce).2.1
    exact (List.nodup_cons.mp hback).1 (mem_targets.mpr ⟨buf', hlater⟩)
  rw [applyAll_append, applyAll_cons, applyAll_disk_of_notMem hnot]
  exact Function.update_self _ _ _

theorem WritesOnce.front (honce : WritesOnce (effects ++ others)) :
    WritesOnce effects := by
  rw [WritesOnce, List.filterMap_append] at honce
  exact (List.nodup_append.mp honce).1

/-- Writing leaves the globals alone. -/
theorem applyAll_globals_of_write
    (hwrite : ∀ effect ∈ effects, ∃ b buf, effect = Effect.write b buf) :
    (applyAll effects world).globals = world.globals := by
  induction effects generalizing world with
  | nil => rfl
  | cons effect effects ih =>
      obtain ⟨b, buf, rfl⟩ := hwrite effect List.mem_cons_self
      rw [applyAll_cons, ih fun effect hmem =>
        hwrite effect (List.mem_cons_of_mem _ hmem)]
      rfl

theorem commit_healthy (hnever : world.device.writeFails = never) :
    commit effects world = (.ok (), applyAll effects world) := by
  induction effects generalizing world with
  | nil => rfl
  | cons effect effects ih =>
      have happly := effect.apply_writeFails hnever
      cases effect with
      | write b buf =>
          rw [commit, hnever, never_apply, if_neg (by simp)]
          exact ih happly
      | modify change => exact ih happly

theorem commit_ok (hok : commit effects world = (.ok (), world')) :
    world' = applyAll effects world := by
  induction effects generalizing world with
  | nil => cases hok; rfl
  | cons effect effects ih =>
      cases effect with
      | write b buf =>
          rw [commit] at hok
          split at hok
          · cases hok
          · exact ih hok
      | modify change => exact ih hok

/-- A device that fails once, at write `k`, stops a commit there, or lets all
of it through. -/
theorem commit_failsAt (effects : List Effect) {k : Nat}
    (hfails : world.device.writeFails = failsAt k) :
    (writeCount effects ≤ k ∧
      commit effects world = (.ok (), applyAll effects world)) ∨
    ∃ front b buf back, effects = front ++ Effect.write b buf :: back ∧
      writeCount front = k ∧
      commit effects world =
        (.error (-eIo), (applyAll front world).issued) := by
  induction effects generalizing world k with
  | nil => exact Or.inl ⟨Nat.zero_le k, rfl⟩
  | cons effect effects ih =>
      cases effect with
      | write b buf =>
          cases k with
          | zero =>
              refine Or.inr ⟨[], b, buf, effects, rfl, rfl, ?_⟩
              rw [commit, hfails, if_pos (by decide)]
              rfl
          | succ k =>
              have hshift : (world.issued.put b buf).device.writeFails =
                  failsAt k := by
                funext n
                change world.device.writeFails (n + 1) = failsAt k n
                simp [hfails, failsAt]
              have hpass : commit (.write b buf :: effects) world =
                  commit effects (world.issued.put b buf) := by
                rw [commit, hfails, if_neg (by simp [failsAt])]
              rcases ih hshift with ⟨hle, hall⟩ |
                ⟨front, b', buf', back, rfl, hcount, hstop⟩
              · exact Or.inl ⟨Nat.succ_le_succ hle, hpass.trans hall⟩
              · exact Or.inr ⟨.write b buf :: front, b', buf', back, rfl,
                  congrArg Nat.succ hcount, hpass.trans hstop⟩
      | modify change =>
          have hsame : (world.modify change).device.writeFails =
              failsAt k := hfails
          rcases ih hsame with ⟨hle, hall⟩ |
            ⟨front, b', buf', back, rfl, hcount, hstop⟩
          · exact Or.inl ⟨hle, hall⟩
          · exact Or.inr ⟨.modify change :: front, b', buf', back, rfl,
              hcount, hstop⟩

end

/-- Code that performs the effects and then returns the value. -/
def Performs {A : Type} (code : Fs A) (world : World)
    (effects : List Effect) (value : A) : Prop :=
  run code world =
    some ((commit effects world).1.map fun _ => value,
      (commit effects world).2)

section

variable {A B : Type} {code : Fs A} {next : A → Fs B} {world : World}
  {effects others : List Effect} {value : A} {result : B}

theorem Performs.pure (value : A) (world : World) :
    Performs (Pure.pure value) world [] value := rfl

theorem Performs.of_read (hrun : run code world = some (.ok value, world)) :
    Performs code world [] value := hrun

theorem Performs.bind (hcode : Performs code world effects value)
    (hnext : Performs (next value) (applyAll effects world) others result) :
    Performs (code >>= next) world (effects ++ others) result := by
  rw [Performs, commit_append]
  rw [Performs] at hcode
  cases hcommit : commit effects world with
  | mk status world' =>
      rw [hcommit] at hcode
      cases status with
      | error status => exact run_bind_error hcode
      | ok done =>
          rw [run_bind_ok hcode, commit_ok hcommit]
          exact hnext

theorem Performs.bind_read
    (hrun : run code world = some (.ok value, world))
    (hnext : Performs (next value) world others result) :
    Performs (code >>= next) world others result :=
  Performs.bind (Performs.of_read hrun) hnext

theorem Performs.bind_cons {effect : Effect}
    (hcode : Performs code world [effect] value)
    (hnext : Performs (next value) (effect.apply world) others result) :
    Performs (code >>= next) world (effect :: others) result :=
  Performs.bind hcode hnext

theorem Performs.modify {change : Globals → Globals}
    (change' : Globals → Globals)
    (hchange : change world.globals = change' world.globals) :
    Performs (modifyGlobals change) world [.modify change'] () := by
  simp only [Performs, run_modifyGlobals, commit, World.modify, hchange]
  rfl

theorem Performs.write {b : Nat} (buf : Block) (hpos : 0 < b)
    (hsize : b < world.device.size) (hb : b < 32768) :
    Performs (blockWrite buf b) world [.write b buf] () := by
  rw [Performs, run_blockWrite buf hpos hsize hb, commit]
  split <;> rfl

theorem Performs.require {test : Prop} [Decidable test] (htest : test)
    (world : World) : Performs (Program.require test) world [] () := by
  rw [Program.require, if_pos htest]
  exact Performs.pure () world

theorem Performs.rejectIf {test : Prop} [Decidable test] (htest : ¬ test)
    (status : Int) (world : World) :
    Performs (Program.rejectIf test status) world [] () := by
  rw [Program.rejectIf, if_neg htest]
  exact Performs.pure () world

end

end Fs5600
