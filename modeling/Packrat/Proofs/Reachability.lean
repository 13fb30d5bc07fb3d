import Packrat.Proofs.Advance

set_option autoImplicit false

namespace Packrat

variable {ν : Type}

def Idling (added : List (Signal ν)) : Prop :=
  ∀ call index, .step call index .entering ∉ added

structure Machine.Called (allowed : RuleName → Prop) (before after : Machine ν) : Prop where
  advanced : before.Advanced after
  journal : ∃ added, after.journal = added ++ before.journal ∧
    ∀ call index, .step call index .entering ∈ added → allowed call.rule ∧
      -- From beyond the end of the text a run may come back to the end.
      (before.cursor.index ≤ before.source.size → before.cursor.index ≤ call.cursor.index)

namespace Machine.Called

variable {allowed : RuleName → Prop} {before middle after : Machine ν}

theorem idle (advanced : before.Advanced after)
    (journal : ∃ added, after.journal = added ++ before.journal ∧ Idling added) :
    before.Called allowed after where
  advanced := advanced
  journal := by
    obtain ⟨added, same, none⟩ := journal
    exact ⟨added, same, fun call index member => absurd member (none call index)⟩

theorem refl (sound : before.Sound) : before.Called allowed before :=
  .idle (.refl sound) ⟨[], rfl, fun _ _ => List.not_mem_nil⟩

theorem trans (first : before.Called allowed middle) (second : middle.Called allowed after) :
    before.Called allowed after where
  advanced := first.advanced.trans second.advanced
  journal := by
    obtain ⟨added, same, within⟩ := first.journal
    obtain ⟨more, equal, farther⟩ := second.journal
    refine ⟨more ++ added, by rw [equal, same, List.append_assoc], fun call index member => ?_⟩
    rcases List.mem_append.mp member with member | member
    next =>
      obtain ⟨permitted, reached⟩ := farther call index member
      refine ⟨permitted, fun inside => ?_⟩
      have moved := first.advanced.reaches.index
      have size := congrArg Source.size first.advanced.source
      have last : middle.cursor.index ≤ call.cursor.index := reached (by omega)
      omega
    next => exact within call index member

theorem moveTo (called : before.Called allowed after) {cursor : Cursor}
    (reaches : before.source.Reaches before.cursor cursor) :
    before.Called allowed (after.moveTo cursor) :=
  ⟨called.advanced.moveTo reaches, called.journal⟩

theorem tell {last : Machine ν} (called : before.Called allowed after) {signal : Signal ν}
    (advanced : before.Advanced last) (told : last.journal = signal :: after.journal)
    (other : ∀ call index, signal ≠ .step call index .entering) : before.Called allowed last where
  advanced := advanced
  journal := by
    obtain ⟨added, same, within⟩ := called.journal
    refine ⟨signal :: added, told.trans (congrArg (List.cons signal) same),
      fun call index member => ?_⟩
    rcases List.mem_cons.mp member with equal | member
    next => exact absurd equal.symm (other call index)
    next => exact within call index member

end Machine.Called

theorem course_called (allowed : RuleName → Prop) :
    Parser.Course (ν := ν) Machine.Sound (Machine.Called allowed) where
  refl := .refl
  trans := .trans
  ready _ called := called.advanced.sound
  moveTo called reaches := called.moveTo reaches
  register index label called := called.tell (called.advanced.register index label) rfl (by simp)
  pushFrame _ sound := { sound with }
  dropFrame called := ⟨called.advanced.dropFrame, called.journal⟩
  setLevel _ sound := { sound with }
  putBack called := ⟨Parser.course_advanced.putBack called.advanced, called.journal⟩

namespace Parser

variable {α : Type}

def Calls (allowed : RuleName → Prop) (parser : Parser ν α) : Prop :=
  ∀ machine : Machine ν, machine.Sound → machine.Called allowed (Ending.machine (parser machine))

theorem Calls.stop (allowed : RuleName → Prop) : Calls allowed (fail .exhausted : Parser ν α) :=
  fun _ => .refl

section Invoke

variable {allowed : RuleName → Prop} {codec : Codec ν α} {call : Call} {body : Parser ν α}
  {start machine : Machine ν}

theorem Calls.advances (calls : Calls allowed body) : Advances body :=
  fun machine sound => (calls machine sound).advanced

theorem called_round (codec : Codec ν α) {ending : Ending ν α}
    (called : start.Called allowed ending.machine) (origin : start.cursor = call.cursor)
    (own : ending.machine.calls.head? = some call) :
    start.Called allowed (round codec call ending).machine := by
  have advanced := advanced_round codec called.advanced origin own
  cases result : round codec call ending with
  | done last =>
    rw [result] at advanced
    exact ⟨advanced, (journal_of_done result).symm ▸ called.journal⟩
  | again next =>
    rw [result] at advanced
    obtain ⟨value, after, _, rfl, rfl, _⟩ := round_again result
    exact called.tell advanced rfl (by simp)

theorem Calls.grow (calls : Calls allowed body) (orderly : Orderly body) (codec : Codec ν α) (n : Nat)
    (sound : machine.Sound) (origin : machine.cursor = call.cursor)
    (own : machine.calls.head? = some call) :
    machine.Called allowed (Ending.machine (grow codec call body n machine)) := by
  induction n generalizing machine with
  | zero => exact .refl sound
  | succ n ih =>
    have ran : (Ending.machine (body machine)).calls.head? = some call :=
      (orderly machine).calls ▸ own
    have first := called_round codec (calls machine sound) origin ran
    have inside := inside_round codec call (body machine)
    rw [grow_succ]
    cases result : round codec call (body machine) with
    | done ending => rwa [result] at first
    | again next =>
      rw [result] at first inside
      exact first.trans (ih first.advanced.sound (cursor_of_again result) (inside.calls.symm ▸ ran))

theorem idling_close (codec : Codec ν α) (call : Call) (memoized : Bool) (ending : Ending ν α) :
    ∃ added, (close codec call memoized ending).machine.journal = added ++ ending.machine.journal ∧
      Idling added := by
  have result := settled call memoized (ending.outcome.map codec.encode) (rewound call ending)
  rw [machine_close, ← journal_rewound call ending]
  generalize settle call memoized _ (rewound call ending) = last at result ⊢
  cases result with
  | withheld => exact ⟨[_], rfl, by simp [Idling]⟩
  | stored => exact ⟨[_], rfl, by simp [Idling]⟩
  | dropped => exact ⟨[], rfl, by simp [Idling]⟩

theorem Calls.activate (calls : Calls allowed body) (orderly : Orderly body) (codec : Codec ν α)
    (n : Nat) (memoized : Bool) (sound : machine.Sound) (origin : machine.cursor = call.cursor) :
    machine.Called allowed (Ending.machine (activate codec call memoized body n machine)) where
  advanced := advanced_activate orderly calls.advances n memoized sound origin
  journal := by
    have grown := calls.grow orderly codec n (sound_opened sound call) origin rfl
    obtain ⟨added, same, within⟩ := grown.journal
    rw [activate_eq]
    obtain ⟨more, equal, none⟩ := idling_close codec call memoized
      (Parser.grow codec call body n (opened call machine))
    refine ⟨more ++ added, by rw [equal, same, List.append_assoc]; rfl, fun other index member => ?_⟩
    rcases List.mem_append.mp member with member | member
    next => exact absurd member (none other index)
    next => exact within other index member

theorem Calls.evaluate (calls : Calls allowed body) (orderly : Orderly body) (codec : Codec ν α)
    (n : Nat) (memoized : Bool) (sound : machine.Sound) (origin : machine.cursor = call.cursor) :
    machine.Called allowed (Ending.machine (evaluate codec call memoized body n machine)) := by
  unfold Parser.evaluate
  split
  next activation found =>
    refine .idle (advanced_reenter sound origin found) ?_
    obtain ⟨cursor, ran⟩ := machine_reenter codec call activation machine
    rw [ran]
    exact ⟨[_], rfl, by simp [Idling]⟩
  next => exact calls.activate orderly codec n memoized sound origin

theorem Calls.invoke (calls : Calls allowed body) (orderly : Orderly body) (codec : Codec ν α)
    {rule : Rule} (permitted : allowed rule.name) (args : List Arg) (n : Nat) :
    Calls allowed (invoke codec rule args body n) := by
  intro machine sound
  have advanced := calls.advances.invoke orderly codec rule args n machine sound
  rw [invoke_eq] at advanced ⊢
  generalize own : callOf rule args machine = call at advanced ⊢
  have entered : machine.Called allowed (machine.report call .entering) := by
    refine ⟨(Machine.Advanced.refl sound).report _ _, [_], rfl, fun other index member => ?_⟩
    obtain ⟨rfl, _⟩ : other = call ∧ index = machine.cursor.index := by simpa using member
    exact ⟨own ▸ permitted, fun _ => by rw [← own]; exact Nat.le_refl _⟩
  have origin : machine.cursor = call.cursor := own ▸ rfl
  have answered : machine.Called allowed (Ending.machine
      (answer codec call (rule.memoized && machine.config.memoize) body n
        (machine.report call .entering))) := by
    unfold answer
    split
    next =>
      have checked (hit : Bool) := entered.tell
        (entered.advanced.report call (.checked hit)) rfl (by simp)
      split
      next verdict found =>
        rw [machine_replay]
        exact (checked true).trans (.idle ⟨rfl, { (checked true).advanced.sound with },
          origin ▸ sound.memo found⟩ ⟨[], rfl, by simp [Idling]⟩)
      next =>
        exact (checked false).trans
          (calls.evaluate orderly codec n _ (checked false).advanced.sound origin)
    next => exact entered.trans (calls.evaluate orderly codec n _ entered.advanced.sound origin)
  cases ended : answer codec call (rule.memoized && machine.config.memoize) body n
      (machine.report call .entering) with
  | ok value after | error failure after =>
    rw [ended] at answered advanced
    exact answered.tell advanced rfl (by simp)

end Invoke

end Parser

namespace Grammar

open Packrat.Parser

/-- The rule is called by the term or by a rule that the term reaches. -/
inductive Term.Reaches (grammar : Grammar) (name : RuleName) : Term → Prop
  | part {term part : Term} (member : part ∈ term.parts) (reaches : Reaches grammar name part) :
      Reaches grammar name term
  | call {shape : Shape} {key : String} {argTerms : List ArgTerm} {definition : Definition}
      (found : grammar.find? key = some definition) (own : definition.rule.name = name) :
      Reaches grammar name (.call shape key argTerms)
  | body {shape : Shape} {key : String} {argTerms : List ArgTerm} {definition : Definition}
      (found : grammar.find? key = some definition)
      (reaches : Reaches grammar name definition.body) :
      Reaches grammar name (.call shape key argTerms)

structure Term.Confined (grammar : Grammar) (allowed : RuleName → Prop) (term : Term) : Prop where
  pure : term.Pure
  reached : ∀ name, term.Reaches grammar name → allowed name

namespace Term.Confined

variable {grammar : Grammar} {allowed : RuleName → Prop} {term : Term}

theorem part {part : Term} (confined : term.Confined grammar allowed) (member : part ∈ term.parts) :
    part.Confined grammar allowed :=
  ⟨confined.pure.part member, fun name reaches => confined.reached name (.part member reaches)⟩

theorem body {shape : Shape} {key : String} {argTerms : List ArgTerm} {definition : Definition}
    (confined : (Term.call shape key argTerms).Confined grammar allowed) (pure : grammar.Pure)
    (found : grammar.find? key = some definition) : definition.body.Confined grammar allowed :=
  ⟨pure.body found, fun name reaches => confined.reached name (.body found reaches)⟩

theorem calls (confined : term.Confined grammar allowed) (pure : grammar.Pure) (n : Nat)
    (args : List Arg) : Calls allowed (term.parser grammar n args) := by
  refine Term.holds_throughout (course_called allowed).closed (Calls.stop allowed)
    (fun (fits : Term.Confined grammar allowed _) => fits.pure.plain) part
    (fun fits found => fits.body pure found) ?_ n args confined
  intro _ _ _ _ _ _ fits found calls
  have permitted := fits.reached _ (.call found rfl)
  exact Calls.invoke calls (pure.orderly _ _ (pure.body found)) _ permitted _ _

end Term.Confined

end Grammar

end Packrat
