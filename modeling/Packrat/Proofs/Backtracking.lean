import Packrat.Proofs.Indifference

set_option autoImplicit false

namespace Packrat

variable {ν : Type}

def MemoTable.Restores (table : MemoTable ν) : Prop :=
  ∀ call verdict failure, table.find? call = some verdict → verdict.outcome = .error failure →
    verdict.cursor = call.cursor

namespace MemoTable.Restores

theorem of_empty {table : MemoTable ν} (empty : table.entries = []) : table.Restores := by
  intro call verdict failure found
  simp [find?_eq, empty] at found

theorem insert {table : MemoTable ν} {call : Call} {verdict : Verdict ν} (restores : table.Restores)
    (failed : ∀ failure, verdict.outcome = .error failure → verdict.cursor = call.cursor) :
    (table.insert call verdict).Restores := by
  intro other found failure stored
  rcases of_find?_insert stored with ⟨rfl, rfl⟩ | earlier
  next => exact failed failure
  next => exact restores other found failure earlier

end MemoTable.Restores

namespace Parser

variable {α β : Type}

theorem calling_restores :
    Machine.Calling (ν := ν) fun before after => before.memo.Restores → after.memo.Restores where
  aside _ _ _ _ := id
  trans first second := second ∘ first
  register _ _ _ := id
  allow _ _ := id
  dropFrame := id
  checked _ _ _ := id
  merge _ _ := id
  reenter _ _ := id
  plant _ _ _ := id
  settle {_ _ after call memoized outcome} _ _ _ ran failed restores := by
    have result := settled call memoized outcome after
    generalize settle call memoized outcome after = last at result ⊢
    cases result with
    | withheld | dropped => exact ran restores
    | stored => exact MemoTable.Restores.insert (ran restores) failed
  reported {_ _ _} _ {ending} ran restores := by
    cases ending <;> exact ran restores

def Returns (parser : Parser ν α) (machine : Machine ν) : Prop :=
  ∀ failure after, parser machine = .error failure after → failure.recoverable = true →
    after.cursor = machine.cursor

def Total (parser : Parser ν α) : Prop :=
  ∀ machine failure after, parser machine = .error failure after → failure.recoverable = false

section Combine

variable {parser : Parser ν α} {machine : Machine ν}

theorem Total.returns (total : Total parser) (machine : Machine ν) : Returns parser machine := by
  intro failure after failed recoverable
  rw [total machine failure after failed] at recoverable
  cases recoverable

theorem total_pure (value : α) : Total (pure value : Parser ν α) := by
  intro machine failure after failed
  cases failed

theorem total_optional (parser : Parser ν α) : Total (optional parser) := by
  intro machine failure after failed
  unfold optional at failed
  split at failed
  next => cases failed
  next =>
    split at failed
    next => cases failed
    next fatal =>
      cases failed
      simpa using fatal

theorem total_many (parser : Parser ν α) (n : Nat) : Total (many parser n) := by
  -- A round that misses ends the repetition with a match.
  induction n with
  | zero =>
    intro machine failure after failed
    cases failed
    rfl
  | succ n ih =>
    intro machine failure after failed
    simp only [many] at failed
    split at failed
    next value middle _ =>
      split at failed
      next => cases failed
      next =>
        split at failed
        next => cases failed
        next other last again =>
          cases failed
          exact ih middle failure after again
    next =>
      split at failed
      next => cases failed
      next fatal =>
        cases failed
        simpa using fatal

theorem Total.bind {next : α → Parser ν β} (total : Total parser)
    (continued : ∀ value, Total (next value)) : Total (parser >>= next) := by
  intro machine failure after failed
  rw [bind_apply] at failed
  cases ending : parser machine with
  | ok value middle =>
    rw [ending] at failed
    exact continued value middle failure after failed
  | error other middle =>
    rw [ending] at failed
    cases failed
    exact total machine failure after ending

theorem Returns.bind {next : α → Parser ν β} (returns : Returns parser machine)
    (continued : ∀ value, Total (next value)) : Returns (parser >>= next) machine := by
  intro failure after failed recoverable
  rw [bind_apply] at failed
  cases ending : parser machine with
  | ok value middle =>
    rw [ending] at failed
    rw [continued value middle failure after failed] at recoverable
    cases recoverable
  | error other middle =>
    rw [ending] at failed
    cases failed
    exact returns failure after ending recoverable

theorem Returns.map (returns : Returns parser machine) (f : α → β) :
    Returns (f <$> parser) machine := by
  rw [map_eq]
  exact returns.bind fun value => total_pure (f value)

theorem returns_leaf {act : Source → Cursor → Move α}
    (still : ∀ mismatch, (act machine.source machine.cursor).outcome = .error mismatch →
      (act machine.source machine.cursor).cursor = machine.cursor) : Returns (leaf act) machine := by
  intro failure after failed _
  unfold leaf at failed
  cases missed : (act machine.source machine.cursor).outcome with
  | ok value =>
    simp only [missed] at failed
    cases failed
  | error mismatch =>
    simp only [missed] at failed
    cases failed
    have stays := still mismatch missed
    cases label : (act machine.source machine.cursor).label <;> exact stays

theorem returns_attempt (parser : Parser ν α) (machine : Machine ν) :
    Returns (attempt parser) machine := by
  intro failure after failed recoverable
  unfold attempt at failed
  split at failed
  next => cases failed
  next other last _ =>
    split at failed
    next =>
      cases failed
      rfl
    next fatal =>
      cases failed
      exact absurd recoverable fatal

theorem returns_choice (parsers : List (Parser ν α)) (machine : Machine ν) :
    Returns (choice parsers) machine := by
  induction parsers generalizing machine with
  | nil =>
    intro failure after failed _
    cases failed
    rfl
  | cons first others ih =>
    intro failure after failed recoverable
    simp only [choice] at failed
    split at failed
    next => cases failed
    next other middle missed =>
      split at failed
      next mends =>
        have back := returns_attempt first machine other middle missed mends
        exact (ih middle failure after failed recoverable).trans back
      next fatal =>
        cases failed
        exact absurd recoverable fatal

theorem returns_many1 (parser : Parser ν α) (n : Nat) (machine : Machine ν) :
    Returns (many1 parser n) machine :=
  (returns_attempt parser machine).bind fun _ =>
    (total_many parser n).bind fun _ => total_pure _

theorem returns_sepBy1 (parser : Parser ν α) (separator : Parser ν β) (n : Nat)
    (machine : Machine ν) : Returns (sepBy1 parser separator n) machine :=
  (returns_attempt parser machine).bind fun _ =>
    (total_many _ n).bind fun _ => total_pure _

theorem total_sepBy (parser : Parser ν α) (separator : Parser ν β) (n : Nat) :
    Total (sepBy parser separator n) :=
  (total_optional _).bind fun _ => total_pure _

theorem returns_notHere (label : String) (parser : Parser ν α) (machine : Machine ν) :
    Returns (notHere label parser) machine := by
  intro failure after failed _
  simp only [notHere] at failed
  split at failed
  next =>
    cases failed
    rfl
  next =>
    split at failed
    next => cases failed
    next =>
      cases failed
      rfl

theorem returns_ahead (parser : Parser ν α) (machine : Machine ν) :
    Returns (ahead parser) machine := by
  intro failure after failed recoverable
  simp only [ahead] at failed
  split at failed
  next => cases failed
  next =>
    split at failed
    next =>
      cases failed
      rfl
    next fatal =>
      cases failed
      exact absurd recoverable fatal

theorem returns_atomic (label : String) (parser : Parser ν α) (machine : Machine ν) :
    Returns (atomic label parser) machine := by
  intro failure after failed recoverable
  have inner := returns_attempt parser (machine.pushFrame machine.cursor.index)
  simp only [atomic] at failed
  split at failed
  next => cases failed
  next other last missed =>
    split at failed
    next mends =>
      cases failed
      exact inner failure last missed mends
    next fatal =>
      cases failed
      exact absurd recoverable fatal

theorem returns_expect (label : String) (parser : Parser ν α) (machine : Machine ν) :
    Returns (expect label parser) machine := by
  intro failure after failed recoverable
  have inner := returns_attempt parser (machine.pushFrame machine.cursor.index)
  simp only [expect] at failed
  split at failed
  next => cases failed
  next other last missed =>
    split at failed
    next mends =>
      cases failed
      exact inner failure last missed mends
    next fatal =>
      cases failed
      exact absurd recoverable fatal

theorem returns_atLevel {level : Int32} (returns : Returns parser (machine.setLevel level)) :
    Returns (atLevel level parser) machine := by
  intro failure after failed recoverable
  simp only [atLevel] at failed
  split at failed
  next => cases failed
  next other last missed =>
    cases failed
    have back := returns failure last missed recoverable
    simp only [Machine.setLevel, back]

theorem level_atLevel (level : Int32) (parser : Parser ν α) (machine : Machine ν) :
    (Ending.machine (atLevel level parser machine)).cursor.level = machine.cursor.level := by
  unfold atLevel
  cases parser (machine.setLevel level) <;> rfl

theorem returns_precedence {level : Int32} (returns : Returns parser (machine.setLevel level)) :
    Returns (precedence level parser) machine := by
  intro failure after failed recoverable
  simp only [precedence] at failed
  split at failed
  next =>
    cases failed
    rfl
  next => exact returns_atLevel returns failure after failed recoverable

theorem level_precedence (level : Int32) (parser : Parser ν α) (machine : Machine ν) :
    (Ending.machine (precedence level parser machine)).cursor.level = machine.cursor.level := by
  simp only [precedence]
  split
  next => rfl
  next => exact level_atLevel level parser machine

end Combine

-- The matchers, on a boundary of the text.

section Matchers

variable {machine : Machine ν}

theorem returns_literal (text : String) (machine : Machine ν) : Returns (literal text) machine := by
  rw [literal_eq]
  apply returns_leaf
  intro mismatch missed
  unfold literalMove at missed ⊢
  split
  next found => simp [found] at missed
  next => rfl

theorem returns_charWhere (test : Char → Bool) (label : String) (machine : Machine ν) :
    Returns (charWhere test label) machine := by
  rw [charWhere_eq]
  apply returns_leaf
  intro mismatch missed
  unfold charMove at missed ⊢
  split
  next c others rest =>
    split
    next passes => simp [rest, passes] at missed
    next => rfl
  next => rfl

theorem returns_peek (machine : Machine ν) : Returns peek machine := by
  rw [peek_eq]
  apply returns_leaf
  intro mismatch _
  unfold peekMove
  split <;> rfl

theorem returns_consume (machine : Machine ν) : Returns consume machine := by
  rw [consume_eq]
  apply returns_leaf
  intro mismatch missed
  unfold consumeMove at missed ⊢
  split
  next c others rest => simp [rest] at missed
  next => rfl

theorem returns_endOfInput (machine : Machine ν) : Returns endOfInput machine := by
  rw [endOfInput_eq]
  apply returns_leaf
  intro mismatch _
  unfold endMove
  split <;> rfl

theorem total_run (test : Char → Bool) (label : String) : Total (ν := ν) (run test label) := by
  intro machine failure after failed
  cases failed

theorem returns_run1 (test : Char → Bool) (label : String)
    (within : machine.cursor.index ≤ machine.source.size) : Returns (run1 test label) machine := by
  rw [run1_eq]
  apply returns_leaf
  intro mismatch missed
  by_cases empty : (machine.source.rest machine.cursor.index).takeWhile test = []
  next => simp [run1Move, runMove, skip, empty, Nat.min_eq_left within]
  next => simp [run1Move, runMove, empty] at missed

end Matchers

section Invoke

variable {codec : Codec ν α} {call : Call} {body : Parser ν α} {machine : Machine ν}

theorem fatal_read {rule : RuleName} {stored : ν} {failure : Failure}
    (failed : codec.read rule stored = .error failure) : failure.recoverable = false := by
  unfold Codec.read at failed
  split at failed
  next => cases failed
  next =>
    cases failed
    rfl

theorem failed_conclude {outcome : Except Failure α} {machine after : Machine ν} {failure : Failure}
    (failed : conclude outcome machine = .error failure after) :
    outcome = .error failure ∧ after = machine := by
  cases outcome with
  | ok value => cases failed
  | error other =>
    cases failed
    exact ⟨rfl, rfl⟩

theorem total_useSeed (codec : Codec ν α) (call : Call) (seed : Seed ν) :
    Total (useSeed codec call seed) := by
  intro machine failure after failed
  exact fatal_read (failed_conclude failed).1

theorem returns_reenter (codec : Codec ν α) (call : Call) (activation : Activation ν)
    (machine : Machine ν) : Returns (reenter codec call activation) machine := by
  intro failure after failed recoverable
  simp only [reenter] at failed
  split at failed
  next seed _ =>
    rw [total_useSeed codec call seed _ failure after failed] at recoverable
    cases recoverable
  next =>
    cases failed
    rfl

theorem returns_activate (memoized : Bool) (n : Nat) (origin : machine.cursor = call.cursor) :
    Returns (activate codec call memoized body n) machine := by
  intro failure after failed _
  rw [activate_eq] at failed
  cases ending : grow codec call body n (opened call machine) with
  | ok value last =>
    rw [ending] at failed
    cases failed
  | error other last =>
    rw [ending] at failed
    cases failed
    rw [origin]
    exact (popped_settle call memoized _ (last.moveTo call.cursor)).cursor

theorem returns_evaluate (memoized : Bool) (n : Nat) (origin : machine.cursor = call.cursor) :
    Returns (evaluate codec call memoized body n) machine := by
  intro failure after failed recoverable
  simp only [evaluate] at failed
  split at failed
  next activation _ => exact returns_reenter codec call activation machine _ _ failed recoverable
  next => exact returns_activate memoized n origin failure after failed recoverable

theorem returns_replay {verdict : Verdict ν}
    (back : ∀ failure, verdict.outcome = .error failure → verdict.cursor = machine.cursor) :
    Returns (replay codec call verdict) machine := by
  intro failure after failed recoverable
  obtain ⟨read, rfl⟩ := failed_conclude failed
  cases outcome : verdict.outcome with
  | ok value =>
    -- What cannot be read back as a value of the rule is not a mismatch.
    rw [outcome] at read
    rw [fatal_read read] at recoverable
    cases recoverable
  | error other => exact back other outcome

theorem returns_answer (memoized : Bool) (n : Nat) (origin : machine.cursor = call.cursor)
    (restores : machine.memo.Restores) : Returns (answer codec call memoized body n) machine := by
  intro failure after failed recoverable
  simp only [answer] at failed
  split at failed
  next =>
    split at failed
    next verdict found =>
      have back (other : Failure) (missed : verdict.outcome = .error other) :
          verdict.cursor = (machine.report call (.checked true)).cursor :=
        (restores call verdict other found missed).trans origin.symm
      exact returns_replay back failure after failed recoverable
    next =>
      have asked : (machine.report call (.checked false)).cursor = call.cursor := origin
      exact returns_evaluate memoized n asked failure after failed recoverable
  next => exact returns_evaluate memoized n origin failure after failed recoverable

theorem returns_invoke (codec : Codec ν α) (rule : Rule) (args : List Arg) (body : Parser ν α)
    (n : Nat) (restores : machine.memo.Restores) : Returns (invoke codec rule args body n) machine := by
  intro failure after failed recoverable
  rw [invoke_eq] at failed
  cases ending : answer codec (callOf rule args machine) (rule.memoized && machine.config.memoize)
      body n (machine.report (callOf rule args machine) .entering) with
  | ok value last =>
    rw [ending] at failed
    cases failed
  | error other last =>
    rw [ending] at failed
    cases failed
    have entered : (machine.report (callOf rule args machine) .entering).cursor =
        (callOf rule args machine).cursor := rfl
    exact returns_answer _ n entered restores failure last ending recoverable

end Invoke

end Parser

namespace Grammar

open Packrat.Parser

theorem Term.restores (grammar : Grammar) (n : Nat) (args : List Arg) (term : Term)
    {machine : Machine Stored} (restores : machine.memo.Restores) :
    (Ending.machine (term.parser grammar n args machine)).memo.Restores :=
  Term.runs_always calling_restores (fun _ _ _ => .of_empty rfl) n args term machine restores

/-- A machine that runs of terms have got to, or that lies inside of such a run. There all but the text,
the settings and the memo table may differ. -/
inductive Reachable (grammar : Grammar) : Machine Stored → Prop
  | start (source : Source) (config : Config) : Reachable grammar (.start source config)
  | ran {machine : Machine Stored} (term : Term) (n : Nat) (args : List Arg) :
      Reachable grammar machine →
        Reachable grammar (Ending.machine (term.parser grammar n args machine))
  | amid {machine : Machine Stored} (cursor : Cursor) (farthest : Farthest.Stack)
      (active : Active Stored) (journal : List (Signal Stored)) (slots : List (String × Snapshot))
      (counters : List (String × Nat)) : Reachable grammar machine →
        Reachable grammar { machine with cursor, farthest, active, journal, slots, counters }

theorem Reachable.restores {grammar : Grammar} {machine : Machine Stored}
    (reachable : grammar.Reachable machine) : machine.memo.Restores := by
  induction reachable with
  | start source config => exact .of_empty rfl
  | ran term n args _ ih => exact Term.restores grammar n args term ih
  | amid _ _ _ _ _ _ _ ih => exact ih

/-- A term that goes back when it does not match: a matcher, a combinator that tries its parts, or the
call of a rule, or one of these at a precedence level. -/
def Term.backtracks : Term → Bool
  | .literal _ | .charWhere _ _ | .charBetween _ _ | .noneOf _ | .anyChar | .endOfInput => true
  | .run _ _ | .run1 _ _ | .peek | .consume | .literalArg _ => true
  | .attempt _ | .choice _ | .many _ | .many1 _ | .sepBy _ _ | .sepBy1 _ _ | .optional _ => true
  | .notHere _ _ | .ahead _ | .atomic _ _ | .expect _ _ | .call _ _ _ => true
  | .precedence _ term | .precedenceArg _ term | .atLevel _ term => term.backtracks
  | _ => false

theorem Term.returns {grammar : Grammar} (n : Nat) (args : List Arg) {term : Term}
    (backtracks : term.backtracks = true) {machine : Machine Stored}
    (restores : machine.memo.Restores) (within : machine.cursor.index ≤ machine.source.size) :
    Returns (term.parser grammar n args) machine := by
  -- Only what is run at a level needs the induction: all other terms go back whatever their parts do.
  induction n generalizing term machine with
  | zero =>
    intro failure after failed recoverable
    cases failed
    cases recoverable
  | succ n ih =>
    cases term <;> simp only [Term.backtracks, Bool.false_eq_true] at backtracks
    case literal text => exact (returns_literal text machine).map _
    case charWhere test label => exact (returns_charWhere test label machine).map _
    case charBetween | noneOf | anyChar => exact (returns_charWhere _ _ machine).map _
    case endOfInput => exact (returns_endOfInput machine).map _
    case run test label => exact ((total_run test label).returns machine).map _
    case run1 test label => exact (returns_run1 test label within).map _
    case peek => exact (returns_peek machine).map _
    case consume => exact (returns_consume machine).map _
    case attempt term => exact returns_attempt _ machine
    case choice terms => exact returns_choice _ machine
    case many term => exact ((total_many _ n).returns machine).map _
    case many1 term => exact (returns_many1 _ n machine).map _
    case sepBy term separator => exact ((total_sepBy _ _ n).returns machine).map _
    case sepBy1 term separator => exact (returns_sepBy1 _ _ n machine).map _
    case optional term => exact ((total_optional _).returns machine).map _
    case notHere label term => exact (returns_notHere label _ machine).map _
    case ahead term => exact returns_ahead _ machine
    case atomic label term => exact returns_atomic label _ machine
    case expect label term => exact returns_expect label _ machine
    case precedence level term =>
      have inner : Returns (term.parser grammar n args) (machine.setLevel level) :=
        ih backtracks restores within
      exact returns_precedence inner
    case precedenceArg index term =>
      have inner : Returns (term.parser grammar n args)
          (machine.setLevel (levelOf (argAt args index))) := ih backtracks restores within
      exact returns_precedence inner
    case atLevel level term =>
      have inner : Returns (term.parser grammar n args) (machine.setLevel level) :=
        ih backtracks restores within
      exact returns_atLevel inner
    case literalArg index =>
      simp only [Term.parser]
      split
      next text _ => exact (returns_literal text machine).map _
      next =>
        intro failure after failed _
        cases failed
        rfl
    case call shape key argTerms =>
      simp only [Term.parser]
      split
      next =>
        intro failure after failed _
        cases failed
        rfl
      next => exact returns_invoke _ _ _ _ n restores

/-- On every reachable machine whose cursor is on a boundary of the text, a mismatch of a term that
backtracks leaves the cursor where it was, whatever its parts consume. At a precedence level any term
leaves the level as it was, and a level that is refused leaves the whole cursor. -/
theorem Reachable.mismatch_goes_back {grammar : Grammar} {machine : Machine Stored}
    (reachable : grammar.Reachable machine)
    (boundary : Text.Boundary machine.source.chars machine.cursor.index) (n : Nat) (args : List Arg)
    (term : Term) :
    (term.backtracks = true → ∀ failure after,
      term.parser grammar n args machine = .error failure after → failure.recoverable = true →
        after.cursor = machine.cursor) ∧
    ∀ level,
      let after := Ending.machine ((Term.precedence level term).parser grammar n args machine)
      after.cursor.level = machine.cursor.level ∧
      (level < machine.cursor.level → after.cursor = machine.cursor) := by
  have within : machine.cursor.index ≤ machine.source.size := by
    rw [machine.source.size_eq]
    exact boundary.le_size
  refine ⟨fun backtracks => Term.returns n args backtracks reachable.restores within, fun level => ?_⟩
  cases n with
  | zero => exact ⟨rfl, fun _ => rfl⟩
  | succ n =>
    refine ⟨level_precedence level _ machine, fun refused => ?_⟩
    simp only [Term.parser, precedence, refused, if_true]
    rfl

def halfway : Term :=
  .sequence [.literal "a", .literal "b"]

theorem mismatch_goes_back_halfway :
    let term : Term := .precedence 1 (.attempt halfway)
    let machine : Machine Stored := (Machine.start (.ofString "éac") {}).moveTo { index := 2 }
    Reachable {} machine ∧ Text.Boundary machine.source.chars machine.cursor.index ∧
    ∃ after, term.parser {} 9 [] machine = .error .noMatch after ∧ after.cursor = machine.cursor := by
  intro term machine
  have reachable : Reachable {} machine :=
    .amid _ machine.farthest machine.active _ _ _ (.start (.ofString "éac") {})
  have boundary : Text.Boundary machine.source.chars machine.cursor.index := rfl
  have missed : (Ending.outcome (term.parser {} 9 [] machine)).map Value.json = .error .noMatch := by
    decide +kernel
  refine ⟨reachable, boundary, ?_⟩
  have back := (Reachable.mismatch_goes_back reachable boundary 9 [] term).1 rfl
  cases ending : term.parser {} 9 [] machine with
  | ok value after =>
    rw [ending] at missed
    cases missed
  | error failure after =>
    rw [ending] at missed
    cases missed
    exact ⟨after, rfl, back _ after ending rfl⟩

theorem precedence_stays_halfway :
    let machine : Machine Stored := .start (.ofString "ac") {}
    let ending := (Term.precedence 1 halfway).parser {} 9 [] machine
    Reachable {} machine ∧ Text.Boundary machine.source.chars machine.cursor.index ∧
    (Ending.outcome ending).map Value.json = .error .noMatch ∧
    (Ending.machine ending).cursor.index = 1 := by
  refine ⟨.start _ _, .zero _, ?_, ?_⟩ <;> decide +kernel

end Grammar

end Packrat
