import Packrat.Proofs.Alignment

set_option autoImplicit false

namespace Packrat

variable {ν : Type}

def isDirect : List (Signal ν) → Bool
  | [] => true
  -- The call itself has been entered by then, so the active ones come after it.
  | .step call _ (.reentered _) :: earlier =>
    (openCalls earlier).tail.head? = some call && isDirect earlier
  | _ :: earlier => isDirect earlier

/-- Every call that was made while it was active was the innermost active call. -/
def Direct (journal : List (Signal ν)) : Prop :=
  isDirect journal = true

instance (journal : List (Signal ν)) : Decidable (Direct journal) :=
  inferInstanceAs (Decidable (_ = true))

theorem Direct.reentered {call : Call} {index : Nat} {seeded : Bool} {earlier : List (Signal ν)}
    (direct : Direct (.step call index (.reentered seeded) :: earlier)) :
    (openCalls earlier).tail.head? = some call ∧ Direct earlier := by
  simpa [Direct, isDirect] using direct

theorem Direct.append {added earlier : List (Signal ν)} (direct : Direct (added ++ earlier)) :
    Direct earlier := by
  induction added with
  | nil => exact direct
  | cons signal added ih =>
    apply ih
    cases signal with
    | step call index step => cases step <;> first | exact direct | exact direct.reentered.2
    | bound | expected | allowed | rejected | broken => exact direct

structure Tidy (pending : List Call) (journal : List (Signal ν))
    (activations : List (Activation ν)) : Prop where
  calls : openCalls journal = pending ++ activations.map Activation.call
  untainted : ∀ activation ∈ activations, activation.tainted = false

def Machine.Tidied (pending : List Call) (before after : Machine ν) : Prop :=
  Tidy pending before.journal before.active.activations → Direct after.journal →
    Tidy pending after.journal after.active.activations ∧
      ∀ call, Withheld after.journal call → Withheld before.journal call

namespace Machine.Tidied

variable {pending : List Call} {before middle after : Machine ν}

theorem refl (machine : Machine ν) : machine.Tidied pending machine :=
  fun tidy _ => ⟨tidy, fun _ => id⟩

theorem trans (first : before.Tidied pending middle) (second : middle.Tidied pending after)
    (onward : middle.Onward after) : before.Tidied pending after := by
  intro tidy direct
  obtain ⟨added, same⟩ := onward.journal
  obtain ⟨between, since⟩ := first tidy (Direct.append (same ▸ direct))
  obtain ⟨last, later⟩ := second between direct
  exact ⟨last, fun call withheld => since call (later call withheld)⟩

theorem write (tidied : before.Tidied pending after) {signal : Signal ν}
    (silent : ∀ earlier, openCalls (signal :: earlier) = openCalls earlier)
    (direct : ∀ earlier, Direct (signal :: earlier) → Direct earlier)
    (other : ∀ call index, signal ≠ .step call index .withheld) :
    before.Tidied pending (after.write signal) := by
  intro tidy still
  obtain ⟨last, since⟩ := tidied tidy (direct _ still)
  refine ⟨⟨(silent _).trans last.calls, last.untainted⟩, ?_⟩
  rintro call ⟨index, member⟩
  rcases List.mem_cons.mp member with same | member
  next => exact absurd same.symm (other call index)
  next => exact since call ⟨index, member⟩

theorem register (tidied : before.Tidied pending after) (index : Nat) (label : String) :
    before.Tidied pending (after.register index label) :=
  tidied.write (fun _ => rfl : ∀ earlier, openCalls (.expected index label :: earlier) = _)
    (fun _ => id) (by simp)

end Machine.Tidied

namespace Parser

variable {α β : Type}

structure Tidies (parser : Parser ν α) : Prop where
  orderly : Orderly parser
  tidied : ∀ machine : Machine ν, machine.Tidied [] (Ending.machine (parser machine))

theorem Tidies.stop : Tidies (fail .exhausted : Parser ν α) :=
  ⟨orderly_stop, fun machine => .refl machine⟩

theorem tidies_blocks : Closed (ν := ν) fun _ parser => Tidies parser where
  leaf {_ act} forward :=
    { orderly := orderly_blocks.leaf forward
      tidied := by
        intro machine
        rw [machine_leaf]
        cases (act machine.source machine.cursor).label with
        | none => exact .refl machine
        | some label =>
          exact (Machine.Tidied.refl machine).register label.1 label.2 }
  bind {_ _ parser next} tidies continued :=
    { orderly := orderly_blocks.bind tidies.orderly fun value => (continued value).orderly
      tidied := by
        intro machine
        have first := tidies.tidied machine
        rw [bind_apply]
        cases ending : parser machine with
        | ok value after =>
          rw [ending] at first
          exact first.trans ((continued value).tidied after) ((continued value).orderly after).onward
        | error failure after => rwa [ending] at first }
  branch {_ _ parser found missed} tidies matched unmatched :=
    { orderly := orderly_blocks.branch tidies.orderly (fun value => (matched value).orderly)
        fun mismatch => (unmatched mismatch).orderly
      tidied := by
        intro machine
        have first := tidies.tidied machine
        unfold branch
        cases ending : parser machine with
        | ok value after =>
          rw [ending] at first
          exact first.trans ((matched value).tidied after) ((matched value).orderly after).onward
        | error failure after =>
          rw [ending] at first
          by_cases recoverable : failure.recoverable = true
          next =>
            simp only [recoverable, dite_true]
            have back : machine.Tidied [] (after.moveTo machine.cursor) := first
            exact back.trans ((unmatched ⟨failure, recoverable⟩).tidied _)
              ((unmatched ⟨failure, recoverable⟩).orderly _).onward
          next => simpa [recoverable] using first }
  ahead {_ parser} tidies :=
    { orderly := orderly_blocks.ahead tidies.orderly
      tidied := by
        intro machine
        have first := tidies.tidied machine
        unfold ahead
        cases ending : parser machine with
        | ok value after =>
          rw [ending] at first
          exact first
        | error failure after =>
          rw [ending] at first
          simp only
          split <;> exact first }
  notHere {_ parser} label tidies :=
    { orderly := orderly_blocks.notHere label tidies.orderly
      tidied := by
        intro machine
        have first := tidies.tidied (machine.pushFrame machine.cursor.index)
        simp only [notHere]
        cases ending : parser (machine.pushFrame machine.cursor.index) with
        | ok value after =>
          rw [ending] at first
          exact Machine.Tidied.register first machine.cursor.index label
        | error failure after =>
          rw [ending] at first
          simp only
          split <;> exact first }
  isolated {_ parser} tidies :=
    { orderly := orderly_blocks.isolated tidies.orderly
      tidied := by
        intro machine
        have first := tidies.tidied (machine.pushFrame machine.cursor.index)
        unfold isolated
        cases ending : parser (machine.pushFrame machine.cursor.index) with
        | ok value after =>
          rw [ending] at first
          exact first
        | error failure after =>
          rw [ending] at first
          simp only
          split <;> exact first }
  atLevel {_ parser} level tidies :=
    { orderly := orderly_blocks.atLevel level tidies.orderly
      tidied := by
        intro machine
        have first := tidies.tidied (machine.setLevel level)
        unfold atLevel
        cases ending : parser (machine.setLevel level) with
        | ok value after | error failure after =>
          rw [ending] at first
          exact first }

section Invoke

variable {codec : Codec ν α} {call : Call} {body : Parser ν α} {machine : Machine ν}

theorem tidied_reenter (activation : Activation ν) (machine : Machine ν) :
    machine.Tidied [call] (Ending.machine (reenter codec call activation machine)) := by
  have marked : machine.Tidied [call] (Machine.report
      { machine with active := machine.active.reenter call } call
      (.reentered activation.seed.isSome)) := by
    intro tidy direct
    have innermost : (openCalls machine.journal).tail.head? = some call := direct.reentered.1
    rw [tidy.calls] at innermost
    refine ⟨⟨?_, ?_⟩, ?_⟩
    next => simpa [Machine.report, Machine.write, Active.reenter, openCalls] using tidy.calls
    next =>
      intro other member
      cases active : machine.active.activations with
      | nil => simp [active] at innermost
      | cons first outer =>
        have own : first.call = call := by simpa [active] using innermost
        simp only [Machine.report, Machine.write, Active.reenter, active, Activation.reenter, own,
          if_true, List.mem_cons] at member
        rcases member with rfl | member
        next => exact tidy.untainted first (by simp [active])
        next => exact tidy.untainted other (by simp [active, member])
    next =>
      rintro other ⟨index, member⟩
      simp only [Machine.report, Machine.write, Journal.write_list, List.mem_cons,
        Signal.step.injEq, reduceCtorEq, and_false, false_or] at member
      exact ⟨index, member⟩
  obtain ⟨cursor, ran⟩ := machine_reenter codec call activation machine
  rw [ran]
  exact marked

theorem tidied_round (codec : Codec ν α) (call : Call) (ending : Ending ν α) :
    ending.machine.Tidied [] (round codec call ending).machine := by
  have replanted (value : α) (machine : Machine ν) :
      machine.Tidied [] (replant codec call value machine) := by
    intro tidy direct
    refine ⟨⟨?_, ?_⟩, ?_⟩
    next => simpa [replant, Machine.report, Machine.write, Active.plant, openCalls] using tidy.calls
    next =>
      intro other member
      cases active : machine.active.activations with
      | nil => simp [replant, Active.plant, active, Activation.plant] at member
      | cons first outer =>
        simp only [replant, Active.plant, active, Activation.plant, List.mem_cons] at member
        rcases member with rfl | member
        next => exact tidy.untainted first (by simp [active])
        next => exact tidy.untainted other (by simp [active, member])
    next =>
      rintro other ⟨index, member⟩
      simp only [replant, Machine.report, Machine.write, Journal.write_list, List.mem_cons,
        Signal.step.injEq, reduceCtorEq, and_false, false_or] at member
      exact ⟨index, member⟩
  have stay : ending.machine.Tidied [] ending.machine := .refl _
  cases ending with
  | error failure after =>
    simp only [round]
    repeat' split
    all_goals first | exact stay | (rw [Round.machine, machine_useSeed]; exact stay)
  | ok value after =>
    simp only [round]
    repeat' split
    all_goals first
      | exact replanted value after
      | exact stay
      | (rw [Round.machine, machine_useSeed]; exact stay)

theorem tidied_grow (codec : Codec ν α) (call : Call) (tidies : Tidies body) (n : Nat)
    (machine : Machine ν) :
    machine.Tidied [] (Ending.machine (grow codec call body n machine)) := by
  induction n generalizing machine with
  | zero => exact .refl machine
  | succ n ih =>
    have inside := inside_round codec call (body machine)
    have first := (tidies.tidied machine).trans (tidied_round codec call _) inside.onward
    rw [grow_succ]
    cases result : round codec call (body machine) with
    | done ending => rwa [result] at first
    | again next =>
      rw [result] at first
      exact first.trans (ih next) (inside_grow tidies.orderly n next).onward

theorem tidy_settle {memoized : Bool} {outcome : Except Failure ν} {after : Machine ν}
    (tidy : Tidy [] after.journal after.active.activations)
    (own : after.calls.head? = some call) :
    Tidy [call] (settle call memoized outcome after).journal
      (settle call memoized outcome after).active.activations ∧
    ∀ other, Withheld (settle call memoized outcome after).journal other →
      Withheld after.journal other := by
  cases active : after.active.activations with
  | nil => simp [Machine.calls, active] at own
  | cons first outer =>
    have same : first.call = call := by simpa [Machine.calls, active] using own
    have clean := tidy.untainted first (by simp [active])
    have closed : Tidy [call] after.journal after.active.pop.activations := by
      refine ⟨?_, fun other member => tidy.untainted other (List.mem_of_mem_tail member)⟩
      rw [tidy.calls, Active.pop]
      simp [active, same]
    have result := settled call memoized outcome after
    generalize settle call memoized outcome after = last at result ⊢
    cases result with
    | withheld tainted => simp [Active.innermost?, active, clean] at tainted
    | dropped => exact ⟨closed, fun _ => id⟩
    | stored =>
      refine ⟨⟨closed.calls, closed.untainted⟩, ?_⟩
      rintro other ⟨index, member⟩
      simp only [Machine.report, Machine.write, Journal.write_list, List.mem_cons,
        Signal.step.injEq, reduceCtorEq, and_false, false_or] at member
      exact ⟨index, member⟩

theorem tidied_evaluate (tidies : Tidies body) (n : Nat) (memoized : Bool) (machine : Machine ν) :
    machine.Tidied [call] (Ending.machine (evaluate codec call memoized body n machine)) := by
  unfold evaluate
  split
  next activation _ => exact tidied_reenter activation machine
  next missing =>
    rw [activate_eq]
    intro tidy direct
    have inside : (opened call machine).Inside
        (Ending.machine (grow codec call body n (opened call machine))) :=
      inside_grow tidies.orderly n _
    have rounds := tidied_grow codec call tidies n (opened call machine)
    generalize grow codec call body n (opened call machine) = ending at direct inside rounds ⊢
    obtain ⟨added, journal⟩ := journal_close codec call memoized ending
    have begun : Tidy [] (opened call machine).journal (opened call machine).active.activations := by
      refine ⟨by simpa [opened, Active.push] using tidy.calls, fun activation member => ?_⟩
      simp only [opened, Active.push, List.mem_cons] at member
      rcases member with rfl | member
      next => rfl
      next => exact tidy.untainted activation member
    obtain ⟨grown, since⟩ := rounds begun (Direct.append (journal ▸ direct))
    have own : (Ending.machine ending).calls.head? = some call := by rw [inside.calls]; rfl
    rw [machine_close]
    have rewinds : Tidy [] (rewound call ending).journal
        (rewound call ending).active.activations := by
      simpa using grown
    obtain ⟨last, later⟩ := tidy_settle rewinds (by simpa [Machine.calls] using own)
    exact ⟨last, fun other withheld => since other (by simpa using later other withheld)⟩

theorem tidied_answer (codec : Codec ν α) (call : Call) (tidies : Tidies body) (n : Nat)
    (memoized : Bool) (machine : Machine ν) :
    machine.Tidied [call] (Ending.machine (answer codec call memoized body n machine)) := by
  have checked (hit : Bool) : machine.Tidied [call] (machine.report call (.checked hit)) :=
    (Machine.Tidied.refl machine).write (fun _ => rfl) (fun _ => id) (by simp)
  unfold answer
  split
  next =>
    split
    next =>
      rw [machine_replay]
      exact checked true
    next missing =>
      have later : (machine.report call (.checked false)).Later (Ending.machine
          (evaluate codec call memoized body n (machine.report call (.checked false)))) :=
        later_evaluate tidies.orderly n fun _ => missing
      exact (checked false).trans (tidied_evaluate tidies n memoized _) later.onward
  next => exact tidied_evaluate tidies n memoized machine

theorem Tidies.invoke (tidies : Tidies body) (codec : Codec ν α) (rule : Rule) (args : List Arg)
    (n : Nat) : Tidies (invoke codec rule args body n) where
  orderly := tidies.orderly.invoke codec rule args n
  tidied machine := by
    intro tidy direct
    let call := callOf rule args machine
    have entered : Tidy [call] (machine.report call .entering).journal
        machine.active.activations :=
      ⟨congrArg (call :: ·) tidy.calls, tidy.untainted⟩
    have answered := tidied_answer codec call tidies n
      (rule.memoized && machine.config.memoize) (machine.report call .entering)
    rw [invoke_eq] at direct ⊢
    generalize answer codec _ _ body n _ = ending at answered direct ⊢
    have inner : Direct (Ending.machine ending).journal := by cases ending <;> exact direct
    obtain ⟨last, since⟩ := answered entered inner
    have calls : (openCalls (Ending.machine ending).journal).tail =
        (Ending.machine ending).active.activations.map Activation.call := by
      rw [last.calls]
      rfl
    have outside (other : Call)
        (withheld : Withheld (Ending.machine (reported codec call ending)).journal other) :
        Withheld machine.journal other := by
      have before : Withheld (Ending.machine ending).journal other := by
        obtain ⟨index, member⟩ := withheld
        refine ⟨index, ?_⟩
        cases ending <;>
          simpa [reported, Machine.report, Machine.write] using member
      obtain ⟨index, member⟩ := since other before
      exact ⟨index, by simpa [Machine.report, Machine.write] using member⟩
    cases ending with
    | ok value after | error failure after => exact ⟨⟨calls, last.untainted⟩, outside⟩

end Invoke

end Parser

namespace Grammar

open Packrat.Parser

theorem Pure.tidies {grammar : Grammar} (pure : grammar.Pure) (n : Nat) (args : List Arg)
    {term : Term} (termPure : term.Pure) : Tidies (term.parser grammar n args) :=
  pure.holds tidies_blocks .stop (fun _ tidies => tidies.invoke _ _ _ _) n args termPure

theorem Pure.not_withheld {grammar : Grammar} (pure : grammar.Pure) {n : Nat} {args : List Arg}
    {term : Term} (termPure : term.Pure) {machine : Machine Stored}
    (fresh : machine.journal = []) (idle : machine.active.activations = [])
    (direct : Direct (Ending.machine (term.parser grammar n args machine)).journal) (call : Call) :
    ¬ Withheld (Ending.machine (term.parser grammar n args machine)).journal call := by
  intro withheld
  have tidy : Tidy [] machine.journal machine.active.activations := by
    refine ⟨?_, ?_⟩ <;> simp [fresh, idle, openCalls]
  obtain ⟨index, member⟩ := ((pure.tidies n args termPure).tidied machine tidy direct).2 call withheld
  simp [fresh] at member

end Grammar

end Packrat
