import Mathlib.Data.List.Forall2
import Packrat.Proofs.Budget
import Packrat.Proofs.Indifference

set_option autoImplicit false

namespace Packrat

variable {ν : Type}

-- The calls of a journal.

def openCalls : List (Signal ν) → List Call
  | [] => []
  | .step call _ .entering :: earlier => call :: openCalls earlier
  | .step _ _ (.leaving _) :: earlier => (openCalls earlier).tail
  | .step _ _ (.failed _) :: earlier => (openCalls earlier).tail
  | _ :: earlier => openCalls earlier

def Step.Silent : Step ν → Prop
  | .entering | .leaving _ | .failed _ => False
  | .checked _ | .reentered _ | .grew | .stored | .withheld => True

theorem openCalls_step {step : Step ν} (silent : step.Silent) (call : Call) (index : Nat)
    (earlier : List (Signal ν)) : openCalls (.step call index step :: earlier) = openCalls earlier := by
  cases step <;> first | rfl | exact silent.elim

def Balanced (added : List (Signal ν)) : Prop :=
  ∀ earlier, openCalls (added ++ earlier) = openCalls earlier

namespace Balanced

theorem nil : Balanced (ν := ν) [] :=
  fun _ => rfl

theorem append {later added : List (Signal ν)} (first : Balanced later) (second : Balanced added) :
    Balanced (later ++ added) := by
  intro earlier
  rw [List.append_assoc, first, second]

theorem quiet {signal : Signal ν} {added : List (Signal ν)} (balanced : Balanced added)
    (silent : ∀ earlier, openCalls (signal :: earlier) = openCalls earlier) :
    Balanced (signal :: added) := by
  intro earlier
  rw [List.cons_append, silent, balanced]

theorem enclose {call : Call} {start : Nat} {last : Signal ν} {added : List (Signal ν)}
    (balanced : Balanced added)
    (left : ∀ earlier, openCalls (last :: earlier) = (openCalls earlier).tail) :
    Balanced (last :: (added ++ [.step call start .entering])) := by
  intro earlier
  rw [List.cons_append, left, List.append_assoc, balanced]
  rfl

end Balanced

-- How activations change.

structure Activation.Follows (before after : Activation ν) : Prop where
  call : after.call = before.call
  seed : after.seed = before.seed
  -- The flags may have been raised, and are not taken back.
  recursive : before.recursive = true → after.recursive = true
  tainted : before.tainted = true → after.tainted = true

structure Activation.Ages (before after : Activation ν) : Prop where
  call : after.call = before.call
  tainted : before.tainted = true → after.tainted = true

namespace Activation

theorem forall₂_trans {S : Activation ν → Activation ν → Prop}
    (transitive : ∀ first second third, S first second → S second third → S first third)
    {before middle after : List (Activation ν)} (first : List.Forall₂ S before middle)
    (second : List.Forall₂ S middle after) : List.Forall₂ S before after := by
  induction first generalizing after with
  | nil => exact second
  | cons one _ ih =>
    cases second with
    | cons two rest => exact .cons (transitive _ _ _ one two) (ih rest)

variable {before middle after : Activation ν}

theorem Follows.refl (activation : Activation ν) : Follows activation activation :=
  ⟨rfl, rfl, id, id⟩

theorem Follows.trans (first : Follows before middle) (second : Follows middle after) :
    Follows before after :=
  ⟨second.call.trans first.call, second.seed.trans first.seed,
    second.recursive ∘ first.recursive, second.tainted ∘ first.tainted⟩

theorem Follows.ages (follows : Follows before after) : Ages before after :=
  ⟨follows.call, follows.tainted⟩

theorem Ages.trans (first : Ages before middle) (second : Ages middle after) :
    Ages before after :=
  ⟨second.call.trans first.call, second.tainted ∘ first.tainted⟩

theorem follows_reenter (call : Call) (activations : List (Activation ν)) :
    List.Forall₂ Follows activations (reenter call activations) := by
  induction activations with
  | nil => exact .nil
  | cons activation outer ih =>
    unfold reenter
    split
    next => exact .cons ⟨rfl, rfl, fun _ => rfl, id⟩ (List.forall₂_same.mpr fun _ _ => .refl _)
    next => exact .cons ⟨rfl, rfl, id, fun _ => rfl⟩ ih

theorem exists_former {former later : List (Activation ν)}
    (follows : List.Forall₂ Follows former later) {activation : Activation ν}
    (member : activation ∈ later) : ∃ first ∈ former, first.Follows activation := by
  induction follows with
  | nil => cases member
  | cons first _ ih =>
    rcases List.mem_cons.mp member with rfl | inside
    next => exact ⟨_, List.mem_cons_self, first⟩
    next =>
      obtain ⟨other, present, same⟩ := ih inside
      exact ⟨other, List.mem_cons_of_mem _ present, same⟩

def Tainted (depth : Nat) (activations : List (Activation ν)) : Prop :=
  ∀ activation ∈ activations.take depth, activation.tainted = true

theorem Tainted.ages {depth : Nat} {before after : List (Activation ν)}
    (tainted : Tainted depth before) (ages : List.Forall₂ Ages before after) :
    Tainted depth after := by
  induction ages generalizing depth with
  | nil => exact tainted
  | cons first _ ih =>
    cases depth with
    | zero => simp [Tainted]
    | succ depth =>
      simp only [Tainted, List.take_succ_cons, List.forall_mem_cons] at tainted ⊢
      exact ⟨first.tainted tainted.1, ih tainted.2⟩

def Beyond (depth : Nat) (before after : List (Activation ν)) : Prop :=
  Tainted depth after ∨ after.drop depth = before.drop depth

theorem Beyond.trans {depth : Nat} {before middle after : List (Activation ν)}
    (first : Beyond depth before middle) (second : Beyond depth middle after)
    (ages : List.Forall₂ Ages middle after) : Beyond depth before after := by
  rcases first with tainted | same
  next => exact .inl (tainted.ages ages)
  next => exact second.imp_right fun equal => equal.trans same

theorem beyond_reenter (call : Call) (depth : Nat) (activations : List (Activation ν)) :
    Beyond depth activations (reenter call activations) := by
  -- All activations inside the one that is entered again are tainted.
  induction activations generalizing depth with
  | nil => exact .inr rfl
  | cons activation outer ih =>
    cases depth with
    | zero => exact .inl (by simp [Tainted])
    | succ depth =>
      unfold reenter
      split
      next => exact .inr rfl
      next =>
        refine (ih depth).imp (fun tainted => ?_) fun same => same
        simpa [Tainted] using tainted

structure Kept (before after : List (Activation ν)) : Prop where
  follows : List.Forall₂ Follows before after
  beyond : ∀ depth, Beyond depth before after

structure Grown (before after : List (Activation ν)) : Prop where
  all : List.Forall₂ Ages before after
  -- The innermost activation may have a new seed, those around it have not.
  outer : List.Forall₂ Follows before.tail after.tail
  beyond : ∀ depth, Beyond (depth + 1) before after

theorem ages_of_follows {before after : List (Activation ν)}
    (follows : List.Forall₂ Follows before after) : List.Forall₂ Ages before after :=
  follows.imp fun _ _ => Follows.ages

namespace Kept

variable {before middle after : List (Activation ν)}

theorem refl (activations : List (Activation ν)) : Kept activations activations :=
  ⟨List.forall₂_same.mpr fun _ _ => .refl _, fun _ => .inr rfl⟩

theorem trans (first : Kept before middle) (second : Kept middle after) : Kept before after where
  follows := forall₂_trans (S := Follows) (fun _ _ _ => .trans) first.follows second.follows
  beyond depth := (first.beyond depth).trans (second.beyond depth) (ages_of_follows second.follows)

theorem grown (kept : Kept before after) : Grown before after where
  all := ages_of_follows kept.follows
  outer := by
    cases kept.follows with
    | nil => exact .nil
    | cons _ rest => exact rest
  beyond depth := kept.beyond (depth + 1)

end Kept

namespace Grown

variable {before middle after : List (Activation ν)}

theorem trans (first : Grown before middle) (second : Grown middle after) : Grown before after where
  all := forall₂_trans (S := Ages) (fun _ _ _ => .trans) first.all second.all
  outer := forall₂_trans (S := Follows) (fun _ _ _ => .trans) first.outer second.outer
  beyond depth := (first.beyond depth).trans (second.beyond depth) second.all

theorem around {activation : Activation ν} (grown : Grown (activation :: before) after) :
    Kept before after.tail where
  follows := grown.outer
  beyond depth := by
    refine (grown.beyond depth).imp (fun tainted other member => ?_) fun same => by simpa using same
    refine tainted other ?_
    cases after with
    | nil => simp at member
    | cons first rest => exact List.mem_cons_of_mem _ member

end Grown

theorem grown_plant (seed : Seed ν) (activations : List (Activation ν)) :
    Grown activations (plant seed activations) := by
  cases activations with
  | nil => exact ⟨.nil, .nil, fun _ => .inr rfl⟩
  | cons activation outer =>
    exact ⟨.cons ⟨rfl, id⟩ (List.forall₂_same.mpr fun _ _ => ⟨rfl, id⟩),
      List.forall₂_same.mpr fun _ _ => .refl _, fun _ => .inr rfl⟩

theorem calls_of_ages {before after : List (Activation ν)} (ages : List.Forall₂ Ages before after) :
    after.map Activation.call = before.map Activation.call := by
  induction ages with
  | nil => rfl
  | cons first _ ih => simp [first.call, ih]

end Activation

-- How the machine changes.

def Machine.calls (machine : Machine ν) : List Call :=
  machine.active.activations.map Activation.call

/-- A machine later in a run, whose activations have changed in a given way. -/
structure Machine.LaterBy (R : List (Activation ν) → List (Activation ν) → Prop)
    (before after : Machine ν) : Prop where
  source : after.source = before.source
  config : after.config = before.config
  active : R before.active.activations after.active.activations
  outer : after.farthest.outer = before.farthest.outer
  journal : ∃ added, after.journal = added ++ before.journal ∧ Balanced added
  kept : ∀ {call verdict}, before.memo.find? call = some verdict →
    after.memo.find? call = some verdict
  -- An active call is not stored before it is closed.
  untouched : ∀ call ∈ before.calls, after.memo.find? call = before.memo.find? call

abbrev Machine.Later : Machine ν → Machine ν → Prop :=
  Machine.LaterBy Activation.Kept

abbrev Machine.Inside : Machine ν → Machine ν → Prop :=
  Machine.LaterBy Activation.Grown

namespace Machine

variable {R : List (Activation ν) → List (Activation ν) → Prop} {before middle after : Machine ν}

theorem Later.calls (later : before.Later after) : after.calls = before.calls :=
  Activation.calls_of_ages later.active.grown.all

theorem Inside.calls (inside : before.Inside after) : after.calls = before.calls :=
  Activation.calls_of_ages inside.active.all

theorem Later.inside (later : before.Later after) : before.Inside after :=
  { later with active := later.active.grown }

namespace LaterBy

theorem refl (reflexive : ∀ activations, R activations activations) (machine : Machine ν) :
    LaterBy R machine machine :=
  ⟨rfl, rfl, reflexive _, rfl, ⟨[], rfl, .nil⟩, id, fun _ _ => rfl⟩

theorem comp
    (transitive : ∀ {first second third}, R first second → R second third → R first third)
    (calls : middle.calls = before.calls) (first : LaterBy R before middle)
    (second : LaterBy R middle after) : LaterBy R before after where
  source := second.source.trans first.source
  config := second.config.trans first.config
  active := transitive first.active second.active
  outer := second.outer.trans first.outer
  journal := by
    obtain ⟨added, same, balanced⟩ := first.journal
    obtain ⟨more, equal, even⟩ := second.journal
    exact ⟨more ++ added, by rw [equal, same, List.append_assoc], even.append balanced⟩
  kept := second.kept ∘ first.kept
  untouched call member := by
    rw [second.untouched call (calls ▸ member), first.untouched call member]

theorem moveTo (later : LaterBy R before after) (cursor : Cursor) :
    LaterBy R before (after.moveTo cursor) :=
  { later with }

theorem write (later : LaterBy R before after) {signal : Signal ν}
    (silent : ∀ earlier, openCalls (signal :: earlier) = openCalls earlier) :
    LaterBy R before (after.write signal) where
  __ := later
  journal := by
    obtain ⟨added, same, balanced⟩ := later.journal
    exact ⟨signal :: added, by simp [Machine.write, same], balanced.quiet silent⟩

theorem report (later : LaterBy R before after) (call : Call) (step : Step ν)
    (silent : step.Silent) : LaterBy R before (after.report call step) :=
  later.write (openCalls_step silent call _)

theorem register (later : LaterBy R before after) (index : Nat) (label : String) :
    LaterBy R before (after.register index label) :=
  { later.write (fun _ => rfl : ∀ earlier, openCalls (.expected index label :: earlier) = _) with
    outer := later.outer }

theorem expect (later : LaterBy R before after) (label : Option (Nat × String)) :
    LaterBy R before (after.expect label) := by
  cases label with
  | none => exact later
  | some label => exact later.register label.1 label.2

theorem dropFrame {index : Nat} (later : LaterBy R (before.pushFrame index) after) :
    LaterBy R before after.dropFrame ∧ after.dropFrame.farthest = before.farthest := by
  have same : after.dropFrame.farthest = before.farthest := by
    -- The frame that was pushed is the one that is dropped.
    have outer : after.farthest.outer = before.farthest.innermost :: before.farthest.outer :=
      later.outer
    simp [Machine.dropFrame, Farthest.Stack.pop, outer]
  exact ⟨{ later with outer := congrArg Farthest.Stack.outer same }, same⟩

end LaterBy

theorem Later.refl (machine : Machine ν) : machine.Later machine :=
  LaterBy.refl .refl machine

theorem Later.trans (first : before.Later middle) (second : middle.Later after) :
    before.Later after :=
  LaterBy.comp .trans first.calls first second

theorem Inside.trans (first : before.Inside middle) (second : middle.Inside after) :
    before.Inside after :=
  LaterBy.comp .trans first.calls first second

end Machine

namespace Parser

variable {α β : Type}

def Orderly (parser : Parser ν α) : Prop :=
  ∀ machine : Machine ν, machine.Later (Ending.machine (parser machine))

theorem indifferent_later : Machine.Indifferent (ν := ν) Machine.Later where
  aside machine _ _ _ := { Machine.Later.refl machine with }
  trans := .trans
  register machine index label := (Machine.Later.refl machine).register index label
  allow machine _ := (Machine.Later.refl machine).write fun _ => rfl
  dropFrame later := later.dropFrame.1

theorem orderly_stop : Orderly (fail .exhausted : Parser ν α) :=
  indifferent_later.stop _

theorem orderly_blocks : Closed (ν := ν) fun _ parser => Orderly parser :=
  indifferent_later.closed

section Invoke

variable {codec : Codec ν α} {call : Call} {body : Parser ν α} {machine after : Machine ν}

theorem orderly_replay (verdict : Verdict ν) : Orderly (replay codec call verdict) := by
  intro machine
  rw [machine_replay]
  exact { Machine.Later.refl machine with }

theorem orderly_reenter (activation : Activation ν) : Orderly (reenter codec call activation) := by
  intro machine
  have marked : machine.Later { machine with active := machine.active.reenter call } :=
    { Machine.Later.refl machine with
      active := ⟨Activation.follows_reenter call _, fun depth => Activation.beyond_reenter call depth _⟩ }
  obtain ⟨cursor, ran⟩ := machine_reenter codec call activation machine
  rw [ran]
  exact (marked.report call (.reentered _) trivial).moveTo cursor

theorem inside_replant (value : α) : machine.Inside (replant codec call value machine) := by
  have later := (Machine.Later.refl machine).inside.report call .grew trivial
  exact { later with active := Activation.grown_plant _ _ }

theorem inside_round (codec : Codec ν α) (call : Call) (ending : Ending ν α) :
    ending.machine.Inside (round codec call ending).machine := by
  have stay := (Machine.Later.refl ending.machine).inside
  cases ending with
  | error failure after =>
    simp only [round]
    cases after.active.innermost?.bind Activation.seed with
    | none => exact stay
    | some seed =>
      cases failure.recoverable with
      | false => exact stay
      | true => simpa [Round.machine] using stay.moveTo seed.cursor
  | ok value after =>
    simp only [round]
    cases after.active.innermost? with
    | none => exact stay
    | some activation =>
      simp only
      split
      next => exact stay
      next =>
        split
        next seed _ => simpa [Round.machine] using stay.moveTo seed.cursor
        next => exact inside_replant value

theorem journal_of_done {ending last : Ending ν α} (done : round codec call ending = .done last) :
    last.machine.journal = ending.machine.journal := by
  cases ending with
  | error failure after =>
    simp only [round] at done
    repeat' split at done
    all_goals cases done
    all_goals first | rfl | (rw [machine_useSeed]; rfl)
  | ok value after =>
    simp only [round] at done
    repeat' split at done
    all_goals cases done
    all_goals first | rfl | (rw [machine_useSeed]; rfl)

theorem inside_grow (orderly : Orderly body) (n : Nat) (machine : Machine ν) :
    machine.Inside (Ending.machine (grow codec call body n machine)) := by
  induction n generalizing machine with
  | zero => exact (Machine.Later.refl machine).inside
  | succ n ih =>
    have first := (orderly machine).inside.trans (inside_round codec call _)
    rw [grow_succ]
    cases result : round codec call (body machine) with
    | done ending => rwa [result] at first
    | again next =>
      rw [result] at first
      exact first.trans (ih next)

theorem innermost_popMerge (inside : (opened call machine).Inside after) :
    after.farthest.popMerge.2.innermost =
      machine.farthest.innermost.merge after.farthest.innermost := by
  have outer : after.farthest.outer = machine.farthest.innermost :: machine.farthest.outer :=
    inside.outer
  simp [Farthest.Stack.popMerge, Farthest.Stack.pop, outer, Farthest.Stack.merge]

theorem later_settle {memoized : Bool} (inside : (opened call machine).Inside after)
    (inactive : call ∉ machine.calls)
    (unknown : memoized = true → machine.memo.find? call = none) (outcome : Except Failure ν) :
    machine.Later (settle call memoized outcome after) := by
  have around : after.farthest.outer = machine.farthest.innermost :: machine.farthest.outer :=
    inside.outer
  have closed : machine.Later (popped after) :=
    { inside with
      active := inside.active.around
      outer := by
        simp [popped, Farthest.Stack.popMerge, Farthest.Stack.pop, around, Farthest.Stack.merge]
      untouched := fun other member => inside.untouched other (List.mem_cons_of_mem _ member) }
  have result := settled call memoized outcome after
  generalize settle call memoized outcome after = last at result ⊢
  cases result with
  | withheld => exact closed.report call .withheld trivial
  | dropped => exact closed
  | stored _ memo _ =>
    have kept {other : Call} (different : other ≠ call) :
        (stashed call outcome after).memo.find? other = after.memo.find? other :=
      MemoTable.find?_insert_of_ne _ _ different
    have inserted : machine.Later (stashed call outcome after) :=
      { closed with
        kept := by
          intro other verdict found
          rw [kept]
          next => exact closed.kept found
          next =>
            rintro rfl
            simp [unknown memo] at found
        untouched := by
          intro other member
          rw [kept]
          next => exact closed.untouched other member
          next =>
            rintro rfl
            exact inactive member }
    exact inserted.report call .stored trivial

theorem later_close {memoized : Bool} {ending : Ending ν α}
    (inside : (opened call machine).Inside ending.machine) (inactive : call ∉ machine.calls)
    (unknown : memoized = true → machine.memo.find? call = none) :
    machine.Later (close codec call memoized ending).machine := by
  cases ending with
  | ok value after => exact later_settle inside inactive unknown _
  | error failure after => exact later_settle (inside.moveTo _) inactive unknown _

theorem mem_of_find? {activation : Activation ν}
    (found : machine.active.find? call = some activation) :
    activation ∈ machine.active.activations ∧ activation.call = call := by
  rw [Active.find?_eq] at found
  have own := List.find?_some found
  simp only [decide_eq_true_eq] at own
  exact ⟨List.mem_of_find?_eq_some found, own⟩

theorem inactive_of_find? (missing : machine.active.find? call = none) : call ∉ machine.calls := by
  rw [Active.find?_eq, List.find?_eq_none] at missing
  simp only [Machine.calls, List.mem_map, not_exists, not_and]
  intro activation member same
  exact missing activation member (by simp [same])

theorem later_evaluate {memoized : Bool} (orderly : Orderly body) (n : Nat)
    (unknown : memoized = true → machine.memo.find? call = none) :
    machine.Later (Ending.machine (evaluate codec call memoized body n machine)) := by
  unfold evaluate
  split
  next activation _ => exact orderly_reenter activation machine
  next missing =>
    rw [activate_eq]
    exact later_close (inside_grow orderly n _) (inactive_of_find? missing) unknown

theorem later_answer (memoized : Bool) (orderly : Orderly body) (n : Nat) :
    machine.Later (Ending.machine (answer codec call memoized body n machine)) := by
  unfold answer
  split
  next =>
    split
    next verdict _ =>
      have checked := (Machine.Later.refl machine).report call (.checked true) trivial
      exact Machine.Later.trans checked (orderly_replay verdict _)
    next missing =>
      have checked := (Machine.Later.refl machine).report call (.checked false) trivial
      exact Machine.Later.trans checked (later_evaluate orderly n fun _ => missing)
  next unmemoized => exact later_evaluate orderly n fun memo => absurd memo unmemoized

theorem later_reported {ending : Ending ν α}
    (later : (machine.report call .entering).Later ending.machine) :
    machine.Later (reported codec call ending).machine := by
  obtain ⟨added, same, balanced⟩ := later.journal
  have journal (last : Signal ν) : last :: ending.machine.journal =
      last :: (added ++ [.step call machine.cursor.index .entering]) ++ machine.journal := by
    simp [same, Machine.report, Machine.write]
  cases ending with
  | ok value after =>
    exact { later with journal := ⟨_, journal _, balanced.enclose fun _ => rfl⟩ }
  | error failure after =>
    exact { later with journal := ⟨_, journal _, balanced.enclose fun _ => rfl⟩ }

theorem Orderly.invoke (orderly : Orderly body) (codec : Codec ν α) (rule : Rule) (args : List Arg)
    (n : Nat) : Orderly (invoke codec rule args body n) := by
  intro machine
  rw [invoke_eq]
  exact later_reported (later_answer _ orderly n)

end Invoke

end Parser

namespace Grammar

open Packrat.Parser

theorem Pure.orderly {grammar : Grammar} (pure : grammar.Pure)
    (n : Nat) (args : List Arg) {term : Term} (termPure : term.Pure) :
    Orderly (term.parser grammar n args) :=
  pure.holds orderly_blocks orderly_stop (fun _ orderly => orderly.invoke _ _ _ _) n args termPure

end Grammar

end Packrat
