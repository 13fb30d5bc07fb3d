import Packrat.Proofs.WriteOnce

set_option autoImplicit false

namespace Packrat

variable {ν : Type}

/-- An activation with the number of those that were running when it began. -/
structure Entry (ν : Type) extends Activation ν where
  depth : Nat

namespace Entry

def mark (call : Call) (entry : Entry ν) : Entry ν :=
  if entry.call = call then { entry with recursive := true } else entry

def taint (depth : Nat) (entry : Entry ν) : Entry ν :=
  if entry.depth > depth then { entry with tainted := true } else entry

def plant (call : Call) (seed : Seed ν) (entry : Entry ν) : Entry ν :=
  if entry.call = call then { entry with recursive := false, seed := some seed } else entry

end Entry

abbrev Roster (ν : Type) := List (Entry ν)

namespace Roster

def lookup (roster : Roster ν) (call : Call) : Option (Entry ν) :=
  roster.find? fun entry => entry.call = call

def enter (roster : Roster ν) (call : Call) : Roster ν :=
  { call, depth := roster.length } :: roster

def leave (roster : Roster ν) (call : Call) : Roster ν :=
  roster.filter fun entry => entry.call ≠ call

def reenter (roster : Roster ν) (call : Call) : Roster ν :=
  match roster.lookup call with
  | none => roster
  | some own => (roster.map (Entry.mark call)).map (Entry.taint own.depth)

def plant (roster : Roster ν) (call : Call) (seed : Seed ν) : Roster ν :=
  roster.map (Entry.plant call seed)

inductive Step : Roster ν → Roster ν → Prop
  | kept (roster : Roster ν) : Step roster roster
  | entered {roster : Roster ν} {call : Call} (new : roster.lookup call = none) :
      Step roster (roster.enter call)
  | reentered {roster : Roster ν} {call : Call} (running : (roster.lookup call).isSome = true) :
      Step roster (roster.reenter call)
  | regrown (roster : Roster ν) (call : Call) (seed : Seed ν) : Step roster (roster.plant call seed)
  | left (roster : Roster ν) (call : Call) : Step roster (roster.leave call)
  | cleared (roster : Roster ν) : Step roster []

end Roster

/-- In a stack of activations, those outside of one were running when it began. -/
def Activation.filed : List (Activation ν) → Roster ν
  | [] => []
  | activation :: outer => { activation with depth := outer.length } :: filed outer

namespace Activation

variable {activation : Activation ν} {activations outer : List (Activation ν)} {entry own : Entry ν}
  {call : Call}

theorem length_filed (activations : List (Activation ν)) :
    (filed activations).length = activations.length := by
  induction activations with
  | nil => rfl
  | cons activation outer ih => simp [filed, ih]

theorem map_filed (activations : List (Activation ν)) :
    (filed activations).map Entry.toActivation = activations := by
  induction activations with
  | nil => rfl
  | cons activation outer ih => simp [filed, ih]

theorem mem_of_filed (member : entry ∈ filed activations) : entry.toActivation ∈ activations := by
  rw [← map_filed activations]
  exact List.mem_map_of_mem member

theorem call_mem (member : entry ∈ filed activations) : entry.call ∈ activations.map Activation.call :=
  List.mem_map_of_mem (mem_of_filed member)

theorem depth_lt (member : entry ∈ filed activations) : entry.depth < activations.length := by
  induction activations with
  | nil => cases member
  | cons activation outer ih =>
    rcases List.mem_cons.mp member with rfl | inside
    next => exact Nat.lt_succ_self outer.length
    next => exact Nat.lt_succ_of_lt (ih inside)

theorem map_outer (change : Entry ν → Entry ν) (other : call ∉ outer.map Activation.call)
    (same : ∀ entry ∈ filed outer, entry.call ≠ call → change entry = entry) :
    (filed outer).map change = filed outer := by
  refine (List.map_congr_left fun entry member => ?_).trans (List.map_id _)
  exact same entry member fun own => other (own ▸ call_mem member)

theorem length_reenter (call : Call) (activations : List (Activation ν)) :
    (reenter call activations).length = activations.length := by
  have calls := congrArg List.length (calls_reenter call activations)
  rwa [List.length_map, List.length_map] at calls

theorem filed_reenter (distinct : (activations.map Activation.call).Nodup)
    (member : own ∈ filed activations) :
    filed (reenter own.call activations) =
      ((filed activations).map (Entry.mark own.call)).map (Entry.taint own.depth) := by
  induction activations with
  | nil => cases member
  | cons activation outer ih =>
    obtain ⟨apart, distinct⟩ := List.nodup_cons.mp distinct
    -- The walk down the stack ends at the call, where the test for a greater depth begins to fail.
    rcases List.mem_cons.mp member with rfl | inside
    next =>
      have marked := map_outer (Entry.mark activation.call) apart fun _ _ other => if_neg other
      have tainted := map_outer (Entry.taint outer.length) apart fun _ inside _ =>
        if_neg (Nat.not_lt.mpr (depth_lt inside).le)
      simp [reenter, filed, Entry.mark, Entry.taint, marked, tainted]
    next =>
      have other : activation.call ≠ own.call := fun same => apart (same ▸ call_mem inside)
      have deeper : own.depth < outer.length := depth_lt inside
      simp [reenter, filed, Entry.mark, Entry.taint, other, deeper, ih distinct inside, length_reenter]

theorem filed_plant (distinct : (activations.map Activation.call).Nodup)
    (innermost : activations.head? = some activation) (seed : Seed ν) :
    filed (plant seed activations) = (filed activations).map (Entry.plant activation.call seed) := by
  obtain ⟨outer, rfl⟩ : ∃ outer, activations = activation :: outer := List.head?_eq_some_iff.mp innermost
  obtain ⟨apart, _⟩ := List.nodup_cons.mp distinct
  have others := map_outer (Entry.plant activation.call seed) apart fun _ _ other => if_neg other
  simp [plant, filed, Entry.plant, others]

theorem filed_tail (distinct : (activations.map Activation.call).Nodup)
    (innermost : activations.head? = some activation) :
    filed activations.tail = (filed activations).leave activation.call := by
  obtain ⟨outer, rfl⟩ : ∃ outer, activations = activation :: outer := List.head?_eq_some_iff.mp innermost
  obtain ⟨apart, _⟩ := List.nodup_cons.mp distinct
  rw [filed, Roster.leave, List.filter_cons_of_neg (by simp), List.tail_cons, eq_comm, List.filter_eq_self]
  intro entry member
  exact decide_eq_true fun same : entry.call = activation.call => apart (same ▸ call_mem member)

end Activation

open Activation (filed)

/-- The roster has the activations of the stack, and their depths are their places in it. -/
structure Roster.Files (roster : Roster ν) (active : Active ν) : Prop where
  same : roster.Perm (filed active.activations)
  distinct : (active.activations.map Activation.call).Nodup

namespace Roster.Files

variable {roster : Roster ν} {active : Active ν} {activation : Activation ν} {call : Call}

theorem mem_filed {entry : Entry ν} (files : roster.Files active)
    (found : roster.lookup call = some entry) :
    entry ∈ filed active.activations ∧ entry.call = call :=
  ⟨files.same.mem_iff.mp (List.mem_of_find?_eq_some found), by simpa using List.find?_some found⟩

theorem find? (files : roster.Files active) (call : Call) :
    (roster.lookup call).map Entry.toActivation = active.find? call := by
  rw [Active.find?_eq]
  cases found : roster.lookup call with
  | none =>
    rw [Option.map_none, eq_comm, List.find?_eq_none]
    intro activation member own
    rw [← Activation.map_filed active.activations] at member
    obtain ⟨entry, filed, rfl⟩ := List.mem_map.mp member
    exact List.find?_eq_none.mp found entry (files.same.mem_iff.mpr filed) own
  | some own =>
    obtain ⟨member, rfl⟩ := files.mem_filed found
    have running := Activation.mem_of_filed member
    cases first : active.activations.find? fun activation => activation.call = own.call with
    | none => exact absurd (decide_eq_true rfl) (List.find?_eq_none.mp first _ running)
    | some activation =>
      have same : activation.call = own.call := by simpa using List.find?_some first
      rw [List.inj_on_of_nodup_map files.distinct (List.mem_of_find?_eq_some first) running same]
      rfl

theorem enter (files : roster.Files active) (new : active.find? call = none) :
    (roster.enter call).Files (active.push call) where
  same := by
    rw [Roster.enter, files.same.length_eq, Activation.length_filed]
    exact files.same.cons _
  distinct := by
    refine List.nodup_cons.mpr ⟨fun member => ?_, files.distinct⟩
    obtain ⟨activation, running, own⟩ := List.mem_map.mp member
    rw [Active.find?_eq, List.find?_eq_none] at new
    exact new activation running (decide_eq_true own)

theorem reenter (files : roster.Files active) (running : (roster.lookup call).isSome = true) :
    (roster.reenter call).Files (active.reenter call) where
  same := by
    obtain ⟨own, found⟩ := Option.isSome_iff_exists.mp running
    obtain ⟨member, rfl⟩ := files.mem_filed found
    simp only [Roster.reenter, found, Active.reenter, Activation.filed_reenter files.distinct member]
    exact (files.same.map _).map _
  distinct := by simpa [Active.reenter] using files.distinct

theorem plant (files : roster.Files active) (innermost : active.innermost? = some activation)
    (seed : Seed ν) : (roster.plant activation.call seed).Files (active.plant seed) where
  same := by
    simp only [Active.plant, Activation.filed_plant files.distinct innermost]
    exact files.same.map _
  distinct := by simpa [Active.plant] using files.distinct

theorem leave (files : roster.Files active) (innermost : active.innermost? = some activation) :
    (roster.leave activation.call).Files active.pop where
  same := by
    simp only [Active.pop, Activation.filed_tail files.distinct innermost]
    exact files.same.filter _
  distinct := files.distinct.sublist ((List.tail_sublist _).map _)

end Roster.Files

namespace Moment

open Packrat.Grammar
open Packrat.Parser (settle popped_settle)

variable {grammar : Grammar} {config : Config} {before after : Moment}

theorem Tallied.innermost {machine : Machine Stored} {own : Pending} {pending : List Pending}
    {past : List (Signal Stored)} (tallied : Tallied config ⟨machine, own :: pending, past⟩) :
    ∃ activation, machine.active.innermost? = some activation ∧ activation.call = own.call := by
  have first := congrArg List.head? tallied.active
  simpa [Machine.calls, Active.innermost?] using first

theorem Next.files (next : Next grammar before after) (tallied : before.Tallied config)
    {roster : Roster Stored} (files : roster.Files before.machine.active) :
    ∃ later, roster.Step later ∧ later.Files after.machine.active := by
  cases next with
  | aside | told | handed | hit => exact ⟨roster, .kept roster, files⟩
  | bound => exact ⟨[], .cleared roster, .refl [], List.nodup_nil⟩
  | @reentered machine pending past own _ _ _ _ _ _ active =>
    have running : (roster.lookup own.call).isSome = true := by
      rw [← Option.isSome_map, files.find? own.call, active]
      rfl
    exact ⟨_, .reentered running, machine.active_missed own.call own.memoized ▸ files.reenter running⟩
  | @begun machine pending past own _ _ inactive =>
    have new : roster.lookup own.call = none := by
      rw [← Option.map_eq_none_iff, files.find? own.call, inactive]
    have entered := files.enter inactive
    rw [← machine.active_missed own.call own.memoized] at entered
    exact ⟨_, .entered new, entered⟩
  | regrown seed innermost =>
    exact ⟨_, .regrown roster _ seed, files.plant innermost seed⟩
  | @closed machine pending past own outcome =>
    obtain ⟨activation, innermost, same⟩ := tallied.innermost
    have left := files.leave innermost
    rw [← (popped_settle own.call own.memoized outcome machine).active] at left
    exact ⟨_, .left roster activation.call, left⟩

/-- At every moment the stack of activations is what the engine's own bookkeeping, in no order and by
depths, has come to. -/
theorem Passes.files {source : Source} {moment : Moment}
    (passes : Passes grammar (.start source config) moment) (outside : BoundOutside moment.history) :
    ∃ roster, Relation.ReflTransGen Roster.Step [] roster ∧ roster.Files moment.machine.active := by
  induction passes with
  | refl => exact ⟨[], .refl, .refl [], List.nodup_nil⟩
  | @tail before after passes next ih =>
    obtain ⟨added, same⟩ := next.history
    have earlier := (same ▸ outside : BoundOutside (added ++ _)).older
    obtain ⟨roster, led, files⟩ := ih earlier
    obtain ⟨later, step, files⟩ := next.files (Passes.tallied passes earlier (.start source config)) files
    exact ⟨later, led.tail step, files⟩

end Moment

end Packrat
