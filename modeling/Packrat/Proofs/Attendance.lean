import Mathlib.Data.List.Forall2
import Packrat.Calculator.Parse
import Packrat.Grammar.Session
import Packrat.Proofs.Blocks

set_option autoImplicit false

namespace Packrat

open Packrat.Parser

variable {ν σ τ α β : Type}

/-- A view of a listener that keeps up with it, signal by signal. -/
def Journal.Follows (ν : Type) [Journal σ ν] [Journal τ ν] (read : σ → τ) : Prop :=
  ∀ (signal : Signal ν) (journal : σ),
    read (Journal.write signal journal) = Journal.write signal (read journal)

def Machine.through (read : σ → τ) (machine : Machine ν σ) : Machine ν τ :=
  { machine with journal := read machine.journal }

def through (read : σ → τ) :
    EStateM.Result Failure (Machine ν σ) α → EStateM.Result Failure (Machine ν τ) α
  | .ok value machine => .ok value (machine.through read)
  | .error failure machine => .error failure (machine.through read)

@[simp] theorem through_ok (read : σ → τ) (value : α) (machine : Machine ν σ) :
    through read (.ok value machine) = .ok value (machine.through read) := rfl

@[simp] theorem through_error (read : σ → τ) (failure : Failure) (machine : Machine ν σ) :
    (through read (.error failure machine) : EStateM.Result Failure (Machine ν τ) α) =
      .error failure (machine.through read) := rfl

/-- Two parsers do the same, although other listeners hear them. -/
def Parallel (read : σ → τ) (first : ParserTo ν σ α) (second : ParserTo ν τ α) : Prop :=
  ∀ machine, second (machine.through read) = through read (first machine)

namespace Parallel

section Untold

variable {read : σ → τ} {first : ParserTo ν σ α} {second : ParserTo ν τ α}

theorem pure (value : α) :
    Parallel read (Pure.pure value : ParserTo ν σ α) (Pure.pure value : ParserTo ν τ α) :=
  fun _ => rfl

theorem fail (failure : Failure) :
    Parallel read (Parser.fail failure : ParserTo ν σ α) (Parser.fail failure) :=
  fun _ => rfl

theorem bind {next : α → ParserTo ν σ β} {other : α → ParserTo ν τ β}
    (parallel : Parallel read first second)
    (continued : ∀ value, Parallel read (next value) (other value)) :
    Parallel read (first >>= next) (second >>= other) := by
  intro machine
  have same := parallel machine
  simp only [Bind.bind, EStateM.bind, same]
  cases first machine with
  | ok value after => exact continued value after
  | error failure after => rfl

theorem map (f : α → β) (parallel : Parallel read first second) :
    Parallel read (f <$> first) (f <$> second) := by
  rw [map_eq_pure_bind, map_eq_pure_bind]
  exact parallel.bind fun value => pure (f value)

theorem attempt (parallel : Parallel read first second) :
    Parallel read (Parser.attempt first) (Parser.attempt second) := by
  intro machine
  simp only [Parser.attempt, parallel machine]
  cases first machine with
  | ok value after => rfl
  | error failure after => cases failure <;> rfl

theorem optional (parallel : Parallel read first second) :
    Parallel read (Parser.optional first) (Parser.optional second) := by
  intro machine
  simp only [Parser.optional, parallel.attempt machine]
  cases Parser.attempt first machine with
  | ok value after => rfl
  | error failure after => cases failure <;> rfl

theorem ahead (parallel : Parallel read first second) :
    Parallel read (Parser.ahead first) (Parser.ahead second) := by
  intro machine
  simp only [Parser.ahead, parallel machine]
  cases first machine with
  | ok value after => rfl
  | error failure after => cases failure <;> rfl

theorem atLevel (level : Int32) (parallel : Parallel read first second) :
    Parallel read (Parser.atLevel level first) (Parser.atLevel level second) := by
  intro machine
  have same := parallel (machine.setLevel level)
  simp only [Parser.atLevel]
  change (match second ((machine.setLevel level).through read) with
    | .ok value after => _
    | .error failure after => _) = _
  rw [same]
  cases first (machine.setLevel level) <;> rfl

variable {firsts : List (ParserTo ν σ α)} {seconds : List (ParserTo ν τ α)}

theorem sequence (parallel : List.Forall₂ (Parallel read) firsts seconds) :
    Parallel read (Parser.sequence firsts) (Parser.sequence seconds) := by
  induction parallel with
  | nil => exact pure []
  | cons one _ ih => exact one.bind fun value => ih.bind fun values => pure (value :: values)

theorem choice (parallel : List.Forall₂ (Parallel read) firsts seconds) :
    Parallel read (Parser.choice firsts) (Parser.choice seconds) := by
  induction parallel with
  | nil => exact fail .noMatch
  | @cons first second _ _ one _ ih =>
    intro machine
    simp only [Parser.choice, one.attempt machine]
    cases Parser.attempt first machine with
    | ok value after => rfl
    | error failure after =>
      simp only [through_error]
      split
      next => exact ih after
      next => rfl

theorem each {ι : Type} {f : ι → ParserTo ν σ α} {g : ι → ParserTo ν τ α}
    (parallel : ∀ item, Parallel read (f item) (g item)) (items : List ι) :
    List.Forall₂ (Parallel read) (items.map f) (items.map g) := by
  induction items with
  | nil => exact .nil
  | cons item rest ih => exact .cons (parallel item) ih

theorem times (parallel : Parallel read first second) (n : Nat) :
    Parallel read (Parser.times first n) (Parser.times second n) := by
  induction n with
  | zero => exact pure []
  | succ n ih => exact parallel.bind fun value => ih.bind fun values => pure (value :: values)

theorem many (parallel : Parallel read first second) (n : Nat) :
    Parallel read (Parser.many first n) (Parser.many second n) := by
  induction n with
  | zero => exact fail .exhausted
  | succ n ih =>
    intro machine
    simp only [Parser.many, parallel.attempt machine]
    cases Parser.attempt first machine with
    | error failure after => cases failure <;> rfl
    | ok value after =>
      have rounds := ih after
      have index : (after.through read).cursor.index = after.cursor.index := rfl
      have start : (machine.through read).cursor.index = machine.cursor.index := rfl
      simp only [through, index, start, rounds]
      split
      next => rfl
      next => cases Parser.many first n after <;> rfl

theorem many1 (parallel : Parallel read first second) (n : Nat) :
    Parallel read (Parser.many1 first n) (Parser.many1 second n) :=
  parallel.attempt.bind fun value => (parallel.many n).bind fun values => pure (value :: values)

variable {left : ParserTo ν σ β} {right : ParserTo ν τ β}

theorem sepBy1 (parallel : Parallel read first second) (separators : Parallel read left right) (n : Nat) :
    Parallel read (Parser.sepBy1 first left n) (Parser.sepBy1 second right n) :=
  parallel.attempt.bind fun value =>
    ((separators.bind fun _ => parallel).many n).bind fun values => pure (value :: values)

theorem sepBy (parallel : Parallel read first second) (separators : Parallel read left right) (n : Nat) :
    Parallel read (Parser.sepBy first left n) (Parser.sepBy second right n) :=
  (parallel.sepBy1 separators n).optional.bind fun values => pure (values.getD [])

theorem peek : Parallel (ν := ν) read Parser.peek Parser.peek := by
  intro machine
  have rest : (machine.through read).rest = machine.rest := rfl
  simp only [Parser.peek, rest]
  cases machine.rest <;> rfl

theorem consume : Parallel (ν := ν) read Parser.consume Parser.consume := by
  intro machine
  have rest : (machine.through read).rest = machine.rest := rfl
  simp only [Parser.consume, rest]
  cases machine.rest <;> rfl

theorem view {look : Machine ν σ → α} {other : Machine ν τ → α}
    (same : ∀ machine, other (machine.through read) = look machine) :
    Parallel read (Parser.view look) (Parser.view other) :=
  fun machine => congrArg (fun value => EStateM.Result.ok value (machine.through read)) (same machine)

end Untold

section Told

variable [Journal σ ν] [Journal τ ν] {read : σ → τ} (follows : Journal.Follows ν read)

include follows

theorem through_write (machine : Machine ν σ) (signal : Signal ν) :
    (machine.through read).write signal = (machine.write signal).through read := by
  simp only [Machine.write, Machine.through, follows signal machine.journal]

theorem through_register (machine : Machine ν σ) (index : Nat) (label : String) :
    (machine.through read).register index label = (machine.register index label).through read := by
  simp only [Machine.register, Machine.through, follows (.expected index label) machine.journal]

theorem through_bind (machine : Machine ν σ) (source : Source) :
    (machine.through read).bind source = (machine.bind source).through read := by
  simp only [Machine.bind, Machine.through, follows (.bound source) machine.journal]

theorem through_report (machine : Machine ν σ) (call : Call) (step : Step ν) :
    (machine.through read).report call step = (machine.report call step).through read :=
  through_write follows machine _

theorem failAt (index : Nat) (label : String) :
    Parallel read (Parser.failAt index label : ParserTo ν σ α) (Parser.failAt index label) :=
  fun machine =>
    congrArg (EStateM.Result.error Failure.noMatch) (through_register follows machine index label)

theorem literal (text : String) : Parallel (ν := ν) read (Parser.literal text) (Parser.literal text) := by
  intro machine
  have missed := failAt (α := String) follows machine.cursor.index text machine
  have rest : (machine.through read).rest = machine.rest := rfl
  simp only [Parser.literal, rest]
  split
  next => rfl
  next => exact missed

theorem charWhere (test : Char → Bool) (label : String) :
    Parallel (ν := ν) read (Parser.charWhere test label) (Parser.charWhere test label) := by
  intro machine
  have missed := failAt (α := Char) follows machine.cursor.index label machine
  have rest : (machine.through read).rest = machine.rest := rfl
  simp only [Parser.charWhere, rest]
  cases machine.rest with
  | nil => exact missed
  | cons c others =>
    simp only
    split
    next => rfl
    next => exact missed

theorem endOfInput : Parallel (ν := ν) read Parser.endOfInput Parser.endOfInput := by
  intro machine
  have missed := failAt (α := Unit) follows machine.cursor.index "End Of Input" machine
  have hasNext : (machine.through read).hasNext = machine.hasNext := rfl
  simp only [Parser.endOfInput, hasNext]
  split
  next => exact missed
  next => rfl

theorem run (test : Char → Bool) (label : String) :
    Parallel (ν := ν) read (Parser.run test label) (Parser.run test label) := by
  intro machine
  let taken := machine.rest.takeWhile test
  let after := machine.advance (Text.size taken)
  exact congrArg (EStateM.Result.ok (String.ofList taken))
    (through_register follows after after.cursor.index label)

theorem run1 (test : Char → Bool) (label : String) :
    Parallel (ν := ν) read (Parser.run1 test label) (Parser.run1 test label) := by
  intro machine
  simp only [Parser.run1, run follows test label machine]
  cases Parser.run test label machine with
  | error failure after => rfl
  | ok text after =>
    simp only [through]
    split <;> rfl

variable {first : ParserTo ν σ α} {second : ParserTo ν τ α}

theorem notHere (label : String) (parallel : Parallel read first second) :
    Parallel read (Parser.notHere label first) (Parser.notHere label second) := by
  intro machine
  have same : second ((machine.through read).pushFrame machine.cursor.index) = _ :=
    parallel (machine.pushFrame machine.cursor.index)
  have start : (machine.through read).cursor = machine.cursor := rfl
  simp only [Parser.notHere, start, same]
  cases first (machine.pushFrame machine.cursor.index) with
  | ok value after =>
    exact failAt follows machine.cursor.index label (after.dropFrame.moveTo machine.cursor)
  | error failure after => cases failure <;> rfl

theorem atomic (label : String) (parallel : Parallel read first second) :
    Parallel read (Parser.atomic label first) (Parser.atomic label second) := by
  intro machine
  have same : Parser.attempt second ((machine.through read).pushFrame machine.cursor.index) = _ :=
    parallel.attempt (machine.pushFrame machine.cursor.index)
  have start : (machine.through read).cursor = machine.cursor := rfl
  simp only [Parser.atomic, start, same]
  cases Parser.attempt first (machine.pushFrame machine.cursor.index) with
  | ok value after => rfl
  | error failure after =>
    have registered := through_register follows after.dropFrame machine.cursor.index label
    simp only [through]
    split
    next => exact congrArg (EStateM.Result.error failure) registered
    next => rfl

theorem expect (label : String) (parallel : Parallel read first second) :
    Parallel read (Parser.expect label first) (Parser.expect label second) := by
  intro machine
  have same : Parser.attempt second ((machine.through read).pushFrame machine.cursor.index) = _ :=
    parallel.attempt (machine.pushFrame machine.cursor.index)
  have start : (machine.through read).cursor = machine.cursor := rfl
  simp only [Parser.expect, start, same]
  cases Parser.attempt first (machine.pushFrame machine.cursor.index) with
  | ok value after => rfl
  | error failure after =>
    have registered := through_register follows after.dropFrame after.farthest.innermost.position label
    simp only [through]
    split
    next => exact congrArg (EStateM.Result.error failure) registered
    next => rfl

theorem precedence (level : Int32) (parallel : Parallel read first second) :
    Parallel read (Parser.precedence level first) (Parser.precedence level second) := by
  intro machine
  have start : (machine.through read).cursor = machine.cursor := rfl
  simp only [Parser.precedence, start]
  split
  next => exact failAt follows _ _ machine
  next => exact parallel.atLevel level machine

-- The evaluation of a call, part by part.

omit [Journal σ ν] [Journal τ ν] follows in
theorem conclude (outcome : Except Failure α) :
    Parallel (ν := ν) read (Parser.conclude outcome) (Parser.conclude outcome) := by
  intro machine
  cases outcome <;> rfl

omit [Journal σ ν] [Journal τ ν] follows in
theorem useSeed (codec : Codec ν α) (call : Call) (seed : Seed ν) :
    Parallel read (Parser.useSeed codec call seed) (Parser.useSeed codec call seed) :=
  fun machine => conclude (codec.read call.rule seed.value) (machine.moveTo seed.cursor)

omit [Journal σ ν] [Journal τ ν] follows in
theorem replay (codec : Codec ν α) (call : Call) (verdict : Verdict ν) :
    Parallel read (Parser.replay codec call verdict) (Parser.replay codec call verdict) :=
  fun machine => conclude (verdict.outcome.bind (codec.read call.rule))
    { machine with cursor := verdict.cursor, farthest := machine.farthest.merge verdict.frame }

theorem reenter (codec : Codec ν α) (call : Call) (activation : Activation ν) :
    Parallel read (Parser.reenter codec call activation) (Parser.reenter codec call activation) := by
  intro machine
  let marked : Machine ν σ := { machine with active := machine.active.reenter call }
  have told := through_report follows marked call (.reentered activation.seed.isSome)
  simp only [Parser.reenter]
  cases seeded : activation.seed with
  | none =>
    rw [seeded] at told
    exact congrArg (EStateM.Result.error Failure.unseeded) told
  | some seed =>
    rw [seeded] at told
    refine Eq.trans ?_ (useSeed codec call seed (marked.report call (.reentered true)))
    exact congrArg (Parser.useSeed codec call seed) told

theorem grow (codec : Codec ν α) (call : Call) (parallel : Parallel read first second) (n : Nat) :
    Parallel read (Parser.grow codec call first n) (Parser.grow codec call second n) := by
  induction n with
  | zero => exact fail .exhausted
  | succ n ih =>
    intro machine
    simp only [Parser.grow, parallel machine]
    cases first machine with
    | error failure after =>
      have active : (after.through read).active = after.active := rfl
      simp only [through_error, active]
      cases after.active.innermost?.bind Activation.seed with
      | none => rfl
      | some seed =>
        simp only
        split
        next => exact useSeed codec call seed after
        next => rfl
    | ok value after =>
      have active : (after.through read).active = after.active := rfl
      have cursor : (after.through read).cursor = after.cursor := rfl
      simp only [through_ok, active, cursor]
      cases after.active.innermost? with
      | none => rfl
      | some activation =>
        simp only
        split
        next => rfl
        next =>
          cases activation.seed.filter (after.cursor.index ≤ ·.cursor.index) with
          | some seed => exact useSeed codec call seed after
          | none =>
            simp only [through_report follows after call .grew]
            let told := after.report call .grew
            let seed : Seed ν := { value := codec.encode value, cursor := told.cursor }
            exact ih { told with active := told.active.plant seed, cursor := call.cursor }

theorem through_store (call : Call) (outcome : Except Failure ν) (frame : Farthest.Frame)
    (machine : Machine ν σ) :
    store call outcome frame (machine.through read) =
      (store call outcome frame machine).through read := by
  let stored : Machine ν σ :=
    { machine with memo := machine.memo.insert call { outcome, cursor := machine.cursor, frame } }
  have told := through_report follows stored call .stored
  cases outcome with
  | ok value => exact told
  | error failure =>
    simp only [store]
    split
    next => exact told
    next => rfl

theorem through_settle (call : Call) (memoized : Bool) (outcome : Except Failure ν)
    (machine : Machine ν σ) :
    settle call memoized outcome (machine.through read) =
      (settle call memoized outcome machine).through read := by
  let closed : Machine ν σ :=
    { machine with farthest := machine.farthest.popMerge.2, active := machine.active.pop }
  have active : (machine.through read).active = machine.active := rfl
  have farthest : (machine.through read).farthest = machine.farthest := rfl
  simp only [settle, active, farthest]
  split
  next => exact through_report follows closed call .withheld
  next =>
    split
    next => exact through_store follows call outcome machine.farthest.popMerge.1 closed
    next => rfl

theorem activate (codec : Codec ν α) (call : Call) (memoized : Bool) (parallel : Parallel read first second)
    (n : Nat) :
    Parallel read (Parser.activate codec call memoized first n)
      (Parser.activate codec call memoized second n) := by
  intro machine
  let opened : Machine ν σ :=
    { machine with
      active := machine.active.push call
      farthest := machine.farthest.push call.cursor.index }
  have grown : Parser.grow codec call second n (opened.through read) = _ :=
    grow follows codec call parallel n opened
  change (match Parser.grow codec call second n (opened.through read) with
    | .ok value after => _
    | .error failure after => _) = through read (match Parser.grow codec call first n opened with
    | .ok value after => _
    | .error failure after => _)
  rw [grown]
  cases Parser.grow codec call first n opened with
  | ok value after =>
    exact congrArg (EStateM.Result.ok value)
      (through_settle follows call memoized (.ok (codec.encode value)) after)
  | error failure after =>
    exact congrArg (EStateM.Result.error failure)
      (through_settle follows call memoized (.error failure) (after.moveTo call.cursor))

theorem evaluate (codec : Codec ν α) (call : Call) (memoized : Bool) (parallel : Parallel read first second)
    (n : Nat) :
    Parallel read (Parser.evaluate codec call memoized first n)
      (Parser.evaluate codec call memoized second n) := by
  intro machine
  have active : (machine.through read).active = machine.active := rfl
  simp only [Parser.evaluate, active]
  cases machine.active.find? call with
  | some activation => exact reenter follows codec call activation machine
  | none => exact activate follows codec call memoized parallel n machine

theorem answer (codec : Codec ν α) (call : Call) (memoized : Bool) (parallel : Parallel read first second)
    (n : Nat) :
    Parallel read (Parser.answer codec call memoized first n)
      (Parser.answer codec call memoized second n) := by
  intro machine
  have memo : (machine.through read).memo = machine.memo := rfl
  simp only [Parser.answer, memo]
  split
  next =>
    cases machine.memo.find? call with
    | some verdict =>
      simp only [through_report follows machine call]
      exact replay codec call verdict _
    | none =>
      simp only [through_report follows machine call]
      exact evaluate follows codec call memoized parallel n _
  next => exact evaluate follows codec call memoized parallel n machine

theorem invoke (codec : Codec ν α) (rule : Rule) (args : List Arg) (parallel : Parallel read first second)
    (n : Nat) :
    Parallel read (Parser.invoke codec rule args first n) (Parser.invoke codec rule args second n) := by
  intro machine
  have cursor : (machine.through read).cursor = machine.cursor := rfl
  have config : (machine.through read).config = machine.config := rfl
  simp only [Parser.invoke, cursor, config]
  generalize ({ cursor := machine.cursor, rule := rule.name, args } : Call) = call
  generalize (rule.memoized && machine.config.memoize) = memoized
  rw [through_report follows machine call .entering,
    answer follows codec call memoized parallel n (machine.report call .entering)]
  cases Parser.answer codec call memoized first n (machine.report call .entering) with
  | ok value after =>
    exact congrArg (EStateM.Result.ok value)
      (through_report follows after call (.leaving (codec.encode value)))
  | error failure after =>
    exact congrArg (EStateM.Result.error failure)
      (through_report follows after call (.failed failure))

theorem parse (parallel : Parallel read first second) (machine : Machine ν σ) :
    second.parse (machine.through read) =
      ((first.parse machine).1, (first.parse machine).2.through read) := by
  simp only [ParserTo.parse, parallel machine]
  cases first machine with
  | ok value after => rfl
  | error failure after =>
    have report : (after.through read).farthestReport = after.farthestReport := rfl
    simp only [through, report, through_write follows]
    split <;> rfl

end Told

end Parallel

namespace Grammar

variable [Journal σ Stored] [Journal τ Stored] {read : σ → τ}

omit [Journal σ Stored] [Journal τ Stored] in
theorem parallel_restoreSlot (read : σ → τ) (slot : String) (keep : Bool) :
    Parallel (ν := ν) read (restoreSlot slot keep) (restoreSlot slot keep) := by
  intro machine
  have slots : (machine.through read).slots = machine.slots := rfl
  simp only [restoreSlot, slots]
  split <;> rfl

theorem Term.parallel (follows : Journal.Follows Stored read) (grammar : Grammar) (n : Nat)
    (args : List Arg) (term : Term) :
    Parallel read (term.parser grammar n args) (term.parser grammar n args) := by
  induction n generalizing args term with
  | zero => exact .fail .exhausted
  | succ n ih =>
    have parts (term : Term) := ih args term
    cases term <;> simp only [Term.parser]
    case literal text => exact (Parallel.literal follows text).map _
    case charWhere test label => exact (Parallel.charWhere follows test label).map _
    case charBetween first last => exact (Parallel.charWhere follows _ _).map _
    case noneOf excluded => exact (Parallel.charWhere follows _ _).map _
    case anyChar => exact (Parallel.charWhere follows _ _).map _
    case endOfInput => exact (Parallel.endOfInput follows).map _
    case run test label => exact (Parallel.run follows test label).map _
    case run1 test label => exact (Parallel.run1 follows test label).map _
    case peek => exact Parallel.peek.map _
    case consume => exact Parallel.consume.map _
    case sequence terms => exact (Parallel.sequence (Parallel.each parts terms)).map _
    case attempt term => exact (parts term).attempt
    case choice terms => exact Parallel.choice (Parallel.each parts terms)
    case many term => exact ((parts term).many n).map _
    case many1 term => exact ((parts term).many1 n).map _
    case sepBy term separator => exact ((parts term).sepBy (parts separator) n).map _
    case sepBy1 term separator => exact ((parts term).sepBy1 (parts separator) n).map _
    case optional term => exact (parts term).optional.map _
    case notHere label term => exact (Parallel.notHere follows label (parts term)).map _
    case ahead term => exact (parts term).ahead
    case atomic label term => exact Parallel.atomic follows label (parts term)
    case expect label term => exact Parallel.expect follows label (parts term)
    case precedence level term => exact Parallel.precedence follows level (parts term)
    case atLevel level term => exact (parts term).atLevel level
    case register label =>
      exact fun machine => congrArg (EStateM.Result.ok Value.null)
        (Parallel.through_register follows machine machine.cursor.index label)
    case registerAt index label =>
      exact fun machine => congrArg (EStateM.Result.ok Value.null)
        (Parallel.through_register follows machine index label)
    case failAt index label => exact Parallel.failAt follows index label
    case fail failure => exact .fail failure
    case call shape key argTerms =>
      cases grammar.find? key with
      | none => exact .fail .noMatch
      | some definition => exact Parallel.invoke follows _ _ _ (ih _ definition.body) n
    case ifArg index arg yes no =>
      split
      next => exact parts yes
      next => exact parts no
    case literalArg index =>
      cases textArg? (argAt args index) with
      | none => exact .fail .noMatch
      | some text => exact (Parallel.literal follows text).map _
    case timesArg index term => exact ((parts term).times _).map _
    case precedenceArg index term => exact Parallel.precedence follows _ (parts term)
    case save slot => exact fun machine => rfl
    case restore slot keep => exact parallel_restoreSlot read slot keep
    case inspect slot => exact Parallel.view fun machine => rfl
    case count name term =>
      exact fun machine => parts term
        { machine with counters := put machine.counters name (counter machine name + 1) }
    case ifCount name limit yes no =>
      intro machine
      have counted : counter (machine.through read) name = counter machine name := rfl
      simp only [counted]
      split
      next => exact parts yes machine
      next => exact parts no machine
    case textOf term =>
      intro machine
      have same := parts term machine
      simp only [same]
      cases term.parser grammar n args machine <;> rfl
    case tag name term => exact (parts term).map _
    case const value => exact .pure value
    case bind text =>
      exact fun machine => congrArg (EStateM.Result.ok Value.null)
        (Parallel.through_bind follows machine (.ofString text))
    case allow lines =>
      exact fun machine => congrArg (EStateM.Result.ok Value.null)
        (Parallel.through_write follows machine (.allowed lines))
    case ask query => exact Parallel.view fun machine => by cases query <;> rfl

end Grammar

namespace Calculator

variable [Journal σ Expr] [Journal τ Expr] {read : σ → τ} (follows : Journal.Follows Expr read)

include follows

theorem parallel_blanks : Parallel read blanks blanks :=
  (Parallel.run follows _ _).map _

theorem parallel_number : Parallel read number number := by
  refine Parallel.atomic follows _ ((Parallel.run1 follows _ _).bind fun text => ?_)
  dsimp only
  split
  next => exact .pure _
  next => exact .fail .noMatch

theorem parallel_operator (rank : Rank) : Parallel read (operator rank) (operator rank) :=
  Parallel.choice (Parallel.each (fun _ => (Parallel.literal follows _).map _) rank.operators)

theorem parallel_joined (rank : Rank) {same next : ParserTo Expr σ Expr} {same' next' : ParserTo Expr τ Expr}
    (left : Parallel read same same') (right : Parallel read next next') :
    Parallel read (joined rank same next) (joined rank same' next') :=
  left.bind fun _ => (parallel_blanks follows).bind fun _ => (parallel_operator follows rank).bind fun _ =>
    (parallel_blanks follows).bind fun _ => right.bind fun _ => .pure _

theorem parallel_negation {factor : ParserTo Expr σ Expr} {factor' : ParserTo Expr τ Expr}
    (parallel : Parallel read factor factor') : Parallel read (negation factor) (negation factor') :=
  (Parallel.literal follows _).bind fun _ => (parallel_blanks follows).bind fun _ => parallel.bind fun _ => .pure _

theorem parallel_group {sum : ParserTo Expr σ Expr} {sum' : ParserTo Expr τ Expr}
    (parallel : Parallel read sum sum') : Parallel read (group sum) (group sum') :=
  (Parallel.literal follows _).bind fun _ => (parallel_blanks follows).bind fun _ => parallel.bind fun _ =>
    (parallel_blanks follows).bind fun _ => (Parallel.literal follows _).bind fun _ => .pure _

theorem parallel_operand (n : Nat) (rank : Rank) : Parallel read (operand n rank) (operand n rank) := by
  induction n generalizing rank with
  | zero => exact .fail .exhausted
  | succ n ih =>
    cases rank
    case sum =>
      have body := Parallel.choice (.cons (parallel_joined follows .sum (ih .sum) (ih .product))
        (.cons (ih .product) .nil))
      exact Parallel.invoke follows _ _ _ body n
    case product =>
      have body := Parallel.choice (.cons (parallel_joined follows .product (ih .product) (ih .factor))
        (.cons (ih .factor) .nil))
      exact Parallel.invoke follows _ _ _ body n
    case factor =>
      have body := Parallel.choice (.cons (parallel_negation follows (ih .factor))
        (.cons (parallel_number follows) (.cons (parallel_group follows (ih .sum)) .nil)))
      exact Parallel.invoke follows _ _ _ body n

theorem parallel_expression : Parallel read expression expression := by
  refine (Parallel.view fun _ => rfl).bind fun source => ?_
  exact (parallel_blanks follows).bind fun _ => (parallel_operand follows _ _).bind fun _ =>
    (parallel_blanks follows).bind fun _ => (Parallel.endOfInput follows).bind fun _ => .pure _

end Calculator

namespace Session

variable [Describe ν]

theorem follows_read (audience : Trace.Audience) :
    Journal.Follows ν (audience.read : List (Signal ν) → Trace.Audience) :=
  fun _ _ => rfl

def publish (session : Session ν) : Session ν :=
  { machine := { session.machine with journal := [] }
    audience := session.audience.read session.machine.journal }

/-- Observers that hear a run live come out of it as if they were told its journal afterwards. -/
theorem run_of_parallel {session : Session ν} {kept : Parser ν α} {live : ParserTo ν Trace.Audience α}
    (parallel : Parallel session.audience.read kept live) :
    session.run live = (Ending.outcome (kept session.machine),
      { session with machine := Ending.machine (kept session.machine) }.publish) := by
  have same : live session.live = through session.audience.read (kept session.machine) :=
    parallel session.machine
  rw [run, same]
  cases kept session.machine <;> rfl

theorem parse_of_parallel {session : Session ν} {kept : Parser ν α} {live : ParserTo ν Trace.Audience α}
    (parallel : Parallel session.audience.read kept live) :
    session.parse live = ((kept.parse session.machine).1,
      { session with machine := (kept.parse session.machine).2 }.publish) := by
  have same : live.parse session.live = _ := Parallel.parse (follows_read _) parallel session.machine
  rw [parse, same]
  rfl

end Session

namespace Grammar

variable (grammar : Grammar) (session : Session Stored)

theorem Term.run_eq (n : Nat) (args : List Arg) (term : Term) :
    session.run (term.parser grammar n args) =
      (Ending.outcome (term.parser grammar n args session.machine),
        { session with machine := Ending.machine (term.parser grammar n args session.machine) }.publish) :=
  Session.run_of_parallel (term.parallel (Session.follows_read _) grammar n args)

theorem run_eq (term : Term) :
    session.run (grammar.parser term) = (Ending.outcome (grammar.parser term session.machine),
      { session with machine := Ending.machine (grammar.parser term session.machine) }.publish) :=
  term.run_eq grammar session requestBudget []

theorem parse_eq (term : Term) :
    session.parse (grammar.parser term) = (((grammar.parser term).parse session.machine).1,
      { session with machine := ((grammar.parser term).parse session.machine).2 }.publish) :=
  Session.parse_of_parallel (term.parallel (Session.follows_read _) grammar requestBudget [])

end Grammar

theorem Calculator.parse_eq (session : Session Expr) :
    session.parse expression = ((expression.parse session.machine).1,
      { session with machine := (expression.parse session.machine).2 }.publish) :=
  Session.parse_of_parallel (parallel_expression (Session.follows_read _))

end Packrat
