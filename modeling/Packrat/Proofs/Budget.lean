import Packrat.Proofs.Composition
import Packrat.Proofs.Growth

set_option autoImplicit false

namespace Packrat

open Ending (Exhausted)

namespace Parser

variable {ν α β : Type}

def Prolongs (first second : Parser ν α) : Prop :=
  ∀ machine, Exhausted (first machine) ∨ first machine = second machine

namespace Prolongs

variable {first second : Parser ν α}

theorem refl (parser : Parser ν α) : Prolongs parser parser :=
  fun _ => .inr rfl

theorem stop (parser : Parser ν α) : Prolongs (fail .exhausted) parser :=
  fun _ => .inl (by simp [fail])

theorem split (prolongs : Prolongs first second) (machine : Machine ν) :
    (∃ after, first machine = .error .exhausted after) ∨ first machine = second machine :=
  (prolongs machine).imp_left Ending.exhausted_iff.mp

end Prolongs

theorem prolongs_blocks : Compositional (ν := ν) fun _ first second => Prolongs first second where
  leaf _ := .refl _
  bind {_ _ first second next other} prolongs continued machine := by
    rw [bind_apply, bind_apply]
    rcases prolongs.split machine with ⟨after, cut⟩ | same
    next => exact .inl (by simp [cut])
    next =>
      rw [same]
      cases second machine with
      | ok value after => exact continued value after
      | error failure after => exact .inr rfl
  branch {_ _ first second found other missed lost} prolongs matched unmatched machine := by
    unfold branch
    rcases prolongs.split machine with ⟨after, cut⟩ | same
    next => exact .inl (by simp [cut, Failure.recoverable])
    next =>
      rw [same]
      cases second machine with
      | ok value after => exact matched value after
      | error failure after =>
        by_cases recoverable : failure.recoverable = true
        next => simpa [recoverable] using unmatched ⟨failure, recoverable⟩ _
        next => simp [recoverable]
  ahead prolongs machine := by
    rcases prolongs.split machine with ⟨after, cut⟩ | same
    next => exact .inl (by simp [ahead, cut, Failure.recoverable])
    next => exact .inr (by simp only [ahead, same])
  notHere label prolongs machine := by
    rcases prolongs.split (machine.pushFrame machine.cursor.index) with ⟨after, cut⟩ | same
    next => exact .inl (by simp [notHere, cut, Failure.recoverable])
    next => exact .inr (by simp only [notHere, same])
  isolated prolongs machine := by
    rcases prolongs.split (machine.pushFrame machine.cursor.index) with ⟨after, cut⟩ | same
    next => exact .inl (by simp [isolated, cut, Failure.recoverable])
    next => exact .inr (by simp only [isolated, same])
  atLevel level prolongs machine := by
    rcases prolongs.split (machine.setLevel level) with ⟨after, cut⟩ | same
    next => exact .inl (by simp [atLevel, cut])
    next => exact .inr (by simp only [atLevel, same])

section Invoke

variable {codec : Codec ν α} {call : Call} {body longer : Parser ν α} {n m : Nat}

theorem Prolongs.grow (prolongs : Prolongs body longer) (within : n ≤ m) :
    Prolongs (grow codec call body n) (grow codec call longer m) := by
  induction n generalizing m with
  | zero => exact .stop _
  | succ n ih =>
    obtain ⟨m, rfl⟩ : ∃ less, m = less + 1 := ⟨m - 1, by omega⟩
    intro machine
    rw [grow_succ, grow_succ]
    rcases prolongs.split machine with ⟨after, cut⟩ | same
    next =>
      refine .inl ?_
      rw [cut]
      simp only [round]
      cases after.active.innermost?.bind Activation.seed <;> simp [Failure.recoverable]
    next =>
      rw [same]
      cases round codec call (longer machine) with
      | done ending => exact .inr rfl
      | again next => exact ih (by omega) next

theorem Prolongs.activate {memoized : Bool} (prolongs : Prolongs body longer) (within : n ≤ m) :
    Prolongs (activate codec call memoized body n) (activate codec call memoized longer m) := by
  intro machine
  rw [activate_eq, activate_eq, exhausted_close]
  exact (prolongs.grow within (opened call machine)).imp_right fun same => by rw [same]

theorem Prolongs.invoke {rule : Rule} {args : List Arg} (prolongs : Prolongs body longer)
    (within : n ≤ m) :
    Prolongs (invoke codec rule args body n) (invoke codec rule args longer m) := by
  have evaluated (call : Call) (memoized : Bool) :
      Prolongs (evaluate codec call memoized body n) (evaluate codec call memoized longer m) := by
    intro machine
    unfold evaluate
    cases machine.active.find? call with
    | none => exact prolongs.activate within machine
    | some activation => exact .inr rfl
  have answered (call : Call) (memoized : Bool) :
      Prolongs (answer codec call memoized body n) (answer codec call memoized longer m) := by
    intro machine
    unfold answer
    cases memoized with
    | false => exact evaluated call false machine
    | true =>
      simp only [if_true]
      cases machine.memo.find? call with
      | none => exact evaluated call true _
      | some verdict => exact .inr rfl
  intro machine
  rw [invoke_eq, invoke_eq, exhausted_reported]
  exact (answered _ _ _).imp_right fun same => by rw [same]

end Invoke

end Parser

namespace Grammar

open Packrat.Parser

variable {grammar : Grammar}

theorem Pure.prolongs (pure : grammar.Pure) {n m : Nat} (within : n ≤ m) (args : List Arg)
    {term : Term} (termPure : term.Pure) :
    Prolongs (term.parser grammar n args) (term.parser grammar m args) := by
  induction n generalizing m args term with
  | zero =>
    simp only [Term.parser]
    exact .stop _
  | succ n ih =>
    obtain ⟨m, rfl⟩ : ∃ less, m = less + 1 := ⟨m - 1, by omega⟩
    have shorter : n ≤ m := by omega
    refine Term.related prolongs_blocks termPure.plain
      (fun part member => ih shorter args (termPure.part member))
      (fun same => prolongs_blocks.structural.many .stop shorter same) ?_
    rintro shape key argTerms rfl
    simp only [Term.parser]
    cases found : grammar.find? key with
    | none => exact .refl _
    | some definition => exact (ih shorter _ (pure.body found)).invoke shorter

/-- The ending of a term's run: what every sufficient budget gives. -/
def Term.EndsWith (grammar : Grammar) (args : List Arg) (term : Term) (machine : Machine Stored)
    (ending : Ending Stored Value) : Prop :=
  ¬ Exhausted ending ∧ ∃ budget, ∀ more ≥ budget, term.parser grammar more args machine = ending

namespace Term.EndsWith

variable {args : List Arg} {term : Term} {machine : Machine Stored}
  {ending other : Ending Stored Value}

theorem unique (first : term.EndsWith grammar args machine ending)
    (second : term.EndsWith grammar args machine other) : ending = other := by
  obtain ⟨_, n, firstBudget⟩ := first
  obtain ⟨_, m, secondBudget⟩ := second
  rw [← firstBudget (max n m) (Nat.le_max_left n m), secondBudget (max n m) (Nat.le_max_right n m)]

theorem of_budget (pure : grammar.Pure) (termPure : term.Pure) {budget : Nat}
    (run : term.parser grammar budget args machine = ending) (whole : ¬ Exhausted ending) :
    term.EndsWith grammar args machine ending := by
  refine ⟨whole, budget, fun more enough => ?_⟩
  rcases pure.prolongs enough args termPure machine with exhausted | equal
  next =>
    rw [run] at exhausted
    exact absurd exhausted whole
  next => rw [← equal, run]

end Term.EndsWith

@[irreducible] def Term.trial (grammar : Grammar) (term : Term) (machine : Machine Stored) :
    Ending Stored Value :=
  term.parser grammar 12 [] machine

theorem Term.trial_ends (pure : grammar.Pure) {term : Term} (termPure : term.Pure)
    {machine : Machine Stored} (whole : ¬ Exhausted (term.trial grammar machine)) :
    term.EndsWith grammar [] machine (term.trial grammar machine) :=
  .of_budget pure termPure (by rw [Term.trial]) whole

end Grammar

end Packrat
