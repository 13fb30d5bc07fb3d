import Packrat.Proofs.Termination

set_option autoImplicit false

namespace Packrat

open Ending (Exhausted)

variable {ν α β : Type}

namespace Ending

def map (f : α → β) : Ending ν α → Ending ν β
  | .ok value machine => .ok (f value) machine
  | .error failure machine => .error failure machine

def Missed (ending : Ending ν α) : Prop :=
  ∃ failure, ending.outcome = .error failure ∧ failure.recoverable = true

@[simp] theorem map_ok (f : α → β) (value : α) (machine : Machine ν) :
    map f (.ok value machine) = .ok (f value) machine := rfl

@[simp] theorem map_error (f : α → β) (failure : Failure) (machine : Machine ν) :
    map f (.error failure machine) = .error failure machine := rfl

@[simp] theorem exhausted_map {f : α → β} {ending : Ending ν α} :
    (ending.map f).Exhausted ↔ ending.Exhausted := by
  cases ending <;> simp

@[simp] theorem missed_ok (value : α) (machine : Machine ν) : ¬ Missed (.ok value machine) := by
  simp [Missed]

@[simp] theorem missed_error (failure : Failure) (machine : Machine ν) :
    Missed (α := α) (.error failure machine) ↔ failure.recoverable = true := by
  simp [Missed]

instance : (ending : Ending ν α) → Decidable ending.Missed
  | .ok value machine => .isFalse (missed_ok value machine)
  | .error failure machine => decidable_of_iff _ (missed_error failure machine).symm

end Ending

namespace Parser

variable {parser : Parser ν α} {machine after : Machine ν} {value : α} {failure : Failure} {n : Nat}

theorem map_apply (f : α → β) (parser : Parser ν α) (machine : Machine ν) :
    (f <$> parser) machine = Ending.map f (parser machine) := by
  rw [map_eq, bind_apply]
  cases parser machine <;> rfl

theorem many1_apply (parser : Parser ν α) (n : Nat) (machine : Machine ν) :
    many1 parser n machine =
      match attempt parser machine with
      | .ok value after => Ending.map (value :: ·) (many parser n after)
      | .error failure after => .error failure after := by
  rw [many1, bind_apply]
  cases attempt parser machine with
  | ok value after => exact map_apply (value :: ·) (many parser n) after
  | error failure after => rfl

theorem many1_of_ok (matched : attempt parser machine = .ok value after) :
    many1 parser n machine = Ending.map (value :: ·) (many parser n after) := by
  rw [many1_apply, matched]

theorem many1_of_error (stopped : attempt parser machine = .error failure after) :
    many1 parser n machine = .error failure after := by
  rw [many1_apply, stopped]

theorem many_of_still (matched : attempt parser machine = .ok value after)
    (still : after.cursor.index = machine.cursor.index) :
    many parser (n + 1) machine = .ok [value] after := by
  simp only [many, matched, still, if_true]

theorem many_of_moved (matched : attempt parser machine = .ok value after)
    (moved : after.cursor.index ≠ machine.cursor.index) :
    many parser (n + 1) machine = many1 parser n machine := by
  rw [many1_of_ok matched]
  simp only [many, matched, moved, if_false]
  cases many parser n after <;> rfl

theorem many_of_missed (missed : attempt parser machine = .error failure after)
    (recoverable : failure.recoverable = true) :
    many parser (n + 1) machine = .ok [] after := by
  simp only [many, missed, recoverable, if_true]

theorem many_of_fatal (stopped : attempt parser machine = .error failure after)
    (fatal : failure.recoverable = false) :
    many parser (n + 1) machine = .error failure after := by
  simp [many, stopped, fatal]

theorem many_not_missed (parser : Parser ν α) (n : Nat) (machine : Machine ν) :
    ¬ Ending.Missed (many parser n machine) := by
  induction n generalizing machine with
  | zero => simp [many, fail, Failure.recoverable]
  | succ n ih =>
    cases ran : attempt parser machine with
    | error failure after =>
      cases recoverable : failure.recoverable with
      | true => simp [many_of_missed ran recoverable]
      | false => simp [many_of_fatal ran recoverable, recoverable]
    | ok value after =>
      by_cases still : after.cursor.index = machine.cursor.index
      next => simp [many_of_still ran still]
      next =>
        rw [many_of_moved ran still, many1_of_ok ran]
        have rest := ih after
        cases ending : many parser n after <;> simp_all

theorem many1_missed_iff (parser : Parser ν α) (n : Nat) (machine : Machine ν) :
    Ending.Missed (many1 parser n machine) ↔ Ending.outcome (many parser (n + 1) machine) = .ok [] := by
  cases ran : attempt parser machine with
  | error failure after =>
    rw [many1_of_error ran]
    cases recoverable : failure.recoverable with
    | true => simp [many_of_missed ran recoverable, recoverable]
    | false => simp [many_of_fatal ran recoverable, recoverable]
  | ok value after =>
    have unmissed : ¬ Ending.Missed (many1 parser n machine) := by
      rw [many1_of_ok ran]
      have rest := many_not_missed parser n after
      cases ending : many parser n after <;> simp_all
    refine iff_of_false unmissed ?_
    by_cases still : after.cursor.index = machine.cursor.index
    next => simp [many_of_still ran still]
    next =>
      rw [many_of_moved ran still, many1_of_ok ran]
      cases many parser n after <;> simp

theorem many1_of_progress
    (moved : ∀ value after, attempt parser machine = .ok value after →
      after.cursor.index ≠ machine.cursor.index) :
    Ending.machine (many1 parser n machine) = Ending.machine (many parser (n + 1) machine) ∧
      (Ending.outcome (many parser (n + 1) machine) ≠ .ok [] →
        many1 parser n machine = many parser (n + 1) machine) := by
  cases ran : attempt parser machine with
  | ok value after =>
    have same := many_of_moved (n := n) ran (moved value after ran)
    exact ⟨by rw [same], fun _ => same.symm⟩
  | error failure after =>
    rw [many1_of_error ran]
    cases recoverable : failure.recoverable with
    | true => simp [many_of_missed ran recoverable]
    | false => simp [many_of_fatal ran recoverable]

theorem many_longer (whole : ¬ Exhausted (many parser n machine)) :
    many parser (n + 1) machine = many parser n machine :=
  ((prolongs_blocks.structural.many .stop (Nat.le_succ n) (.refl parser) machine).resolve_left
    whole).symm

end Parser

namespace Grammar

open Packrat.Parser

variable {grammar : Grammar} {term : Term} {machine : Machine Stored}

theorem Term.parser_many (n : Nat) (args : List Arg) :
    (Term.many term).parser grammar (n + 1) args machine =
      Ending.map .list (Parser.many (term.parser grammar n args) n machine) := by
  simp only [Term.parser, map_apply]

theorem Term.parser_many1 (n : Nat) (args : List Arg) :
    (Term.many1 term).parser grammar (n + 1) args machine =
      Ending.map .list (Parser.many1 (term.parser grammar n args) n machine) := by
  simp only [Term.parser, map_apply]

theorem Term.parser_attempt (n : Nat) (args : List Arg) :
    (Term.attempt term).parser grammar (n + 1) args machine =
      Parser.attempt (term.parser grammar n args) machine := by
  simp only [Term.parser]

theorem Pure.exists_least (pure : grammar.Pure) (termPure : term.Pure) (args : List Arg)
    (sound : machine.Sound) :
    ∃ n, ∀ m ≥ n, term.EndsWith grammar args machine (term.parser grammar m args machine) := by
  obtain ⟨ending, whole, n, ends⟩ := pure.exists_ending termPure args sound
  refine ⟨n, fun m enough => ?_⟩
  rw [ends m enough]
  exact ⟨whole, n, ends⟩

/-- A repetition that needs a match fails recoverably exactly if the one that needs none has no match. If
the first match gets on, or there is no first match, both end on one machine, and with the same matches
unless there are none. After a first match that consumes nothing, the one that needs none is over, and the
other goes on with what the first one would do from there. -/
theorem Pure.many1_agrees_with_many (pure : grammar.Pure) (termPure : term.Pure) (args : List Arg)
    (sound : machine.Sound) :
    ∃ (first : Ending Stored Value) (star plus : Ending Stored (List Value)),
      (Term.attempt term).EndsWith grammar args machine first ∧
      (Term.many term).EndsWith grammar args machine (star.map .list) ∧
      (Term.many1 term).EndsWith grammar args machine (plus.map .list) ∧
      (plus.Missed ↔ star.outcome = .ok []) ∧
      ((∀ value after, first = .ok value after → after.cursor.index ≠ machine.cursor.index) →
        plus.machine = star.machine ∧ (star.outcome ≠ .ok [] → plus = star)) ∧
      ∀ value after, first = .ok value after → after.cursor.index = machine.cursor.index →
        star = .ok [value] after ∧
        ∃ again : Ending Stored (List Value),
          (Term.many term).EndsWith grammar args after (again.map .list) ∧
          plus = again.map (value :: ·) := by
  have oncePure : (Term.attempt term).Pure := termPure
  have starPure : (Term.many term).Pure := termPure
  have plusPure : (Term.many1 term).Pure := termPure
  obtain ⟨a, once⟩ := pure.exists_least oncePure args sound
  obtain ⟨b, most⟩ := pure.exists_least starPure args sound
  obtain ⟨c, more⟩ := pure.exists_least plusPure args sound
  obtain ⟨n, enough⟩ : ∃ n, a ≤ n + 1 ∧ b ≤ n + 1 ∧ c ≤ n + 1 := ⟨a + b + c, by omega⟩
  have first := Term.parser_attempt n args ▸ once (n + 1) enough.1
  have star := Term.parser_many n args ▸ most (n + 1) enough.2.1
  have plus := Term.parser_many1 n args ▸ more (n + 1) enough.2.2
  let parser : Parser Stored Value := term.parser grammar n args
  have longer : Parser.many parser (n + 1) machine = Parser.many parser n machine :=
    many_longer (by simpa using star.1)
  refine ⟨_, _, _, first, star, plus, ?_, fun moved => ?_, fun value after matched still => ?_⟩
  next => rw [many1_missed_iff, longer]
  next =>
    have same := many1_of_progress (n := n) moved
    rwa [longer] at same
  next =>
    have again : ¬ Exhausted (Parser.many parser n after) := by
      simpa [many1_of_ok matched] using plus.1
    refine ⟨by rw [← longer, many_of_still matched still], Parser.many parser n after, ?_,
      many1_of_ok matched⟩
    exact .of_budget pure starPure (Term.parser_many n args) (by simpa using again)

theorem many1_agrees_with_many_crossed :
    let term := Term.call .plain "A" []
    let machine : Machine Stored := { source := .ofString "kxyk", config := {} }
    crossed.Pure ∧ term.Pure ∧ machine.Sound ∧
    ∃ star plus : Ending Stored (List Value),
      (Term.many term).EndsWith crossed [] machine (star.map .list) ∧
      (Term.many1 term).EndsWith crossed [] machine (plus.map .list) ∧
      (plus.Missed ↔ star.outcome = .ok []) ∧ plus.machine = star.machine := by
  intro term machine
  have termPure : term.Pure := by decide
  have oncePure : (Term.attempt term).Pure := by decide
  have sound : machine.Sound := .fresh _ _ _
  obtain ⟨first, star, plus, once, most, more, missed, moved, _⟩ :=
    crossed_pure.many1_agrees_with_many termPure [] sound
  have whole : ¬ Exhausted ((Term.attempt term).trial crossed machine) := by decide +kernel
  have ran := (Term.trial_ends crossed_pure oncePure whole).unique once
  have consumed : (Ending.machine ((Term.attempt term).trial crossed machine)).cursor.index = 3 := by
    decide +kernel
  refine ⟨crossed_pure, termPure, sound, star, plus, most, more, missed, (moved ?_).1⟩
  rintro value after rfl
  have stopped : after.cursor.index = 3 := by rwa [ran] at consumed
  simp [stopped, machine]

theorem many1_repeats_empty_match :
    let term := Term.optional (.literal "a")
    let machine : Machine Stored := { source := .ofString "b", config := {} }
    ∃ star plus : Ending Stored Value,
      (Term.many term).EndsWith {} [] machine star ∧
      (Term.many1 term).EndsWith {} [] machine plus ∧
      star.outcome.map Value.json = .ok "[[]]" ∧ plus.outcome.map Value.json = .ok "[[],[]]" := by
  intro term machine
  have pure : Grammar.Pure {} := by decide
  have starPure : (Term.many term).Pure := by decide
  have plusPure : (Term.many1 term).Pure := by decide
  exact ⟨_, _, Term.trial_ends pure starPure (by decide +kernel),
    Term.trial_ends pure plusPure (by decide +kernel),
    by decide +kernel, by decide +kernel⟩

end Grammar

end Packrat
