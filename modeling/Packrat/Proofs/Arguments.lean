import Packrat.Calculator.Command

set_option autoImplicit false

namespace Packrat.Calculator

def Command.word : Command → String
  | .eval => "eval"
  | .tree => "tree"

theorem Command.word_inj {first second : Command} (same : first.word = second.word) :
    first = second := by
  cases first <;> cases second <;> first | rfl | exact absurd same (by decide)

def flags : List String :=
  ["--no-memo", "--trace", "--trace=log"]

def words (arguments : List String) : List String :=
  arguments.filter (· ∉ flags)

def TraceMode.ofFlag? (argument : String) : Option TraceMode :=
  if argument = "--trace" then some .print
  else if argument = "--trace=log" then some .log
  else none

def lastMode (arguments : List String) : TraceMode :=
  (arguments.filterMap TraceMode.ofFlag?).getLastD .off

def Dashed (word : String) : Prop :=
  ['-', '-'] <+: word.toList

instance (word : String) : Decidable (Dashed word) :=
  inferInstanceAs (Decidable (_ <+: _))

theorem dashed_iff {word : String} : Dashed word ↔ word.toList.take 2 = ['-', '-'] :=
  List.prefix_iff_eq_take.trans eq_comm

/-- A command and then an expression, which may be any word that is not taken for an option. -/
def Sensible (words : List String) : Prop :=
  ∃ command source, words = [Command.word command, source] ∧ ¬ Dashed source

theorem sensible_minus (command : Command) : Sensible [command.word, "-"] :=
  ⟨command, "-", rfl, by decide⟩

def Fits (place : Nat) (word : String) : Prop :=
  ∃ words, Sensible words ∧ words[place]? = some word

/-- The first word that does not fit its place. -/
structure FirstMisfit (words : List String) (place : Nat) (word : String) : Prop where
  stands : words[place]? = some word
  misfit : ¬ Fits place word
  first : ∀ earlier < place, ∀ other ∈ words[earlier]?, Fits earlier other

def complaint (place : Nat) (word : String) : String :=
  (if Dashed word then "unknown option `"
    else if place = 0 then "unknown command `"
    else "unexpected argument `") ++ word ++ "`"

section Complaint

variable {word : String}

theorem complaint_dashed (place : Nat) (dashed : Dashed word) :
    (UsageError.unknownOption word).message = complaint place word := by
  rw [complaint, if_pos dashed]
  rfl

theorem complaint_zero (literal : ¬ Dashed word) :
    (UsageError.unknownCommand word).message = complaint 0 word := by
  rw [complaint, if_neg literal]
  rfl

theorem complaint_succ (place : Nat) (literal : ¬ Dashed word) :
    (UsageError.unexpected word).message = complaint (place + 1) word := by
  rw [complaint, if_neg literal]
  rfl

end Complaint

section Fits

variable {word : String}

theorem fits_zero : Fits 0 word ↔ ∃ command, word = Command.word command := by
  constructor
  next =>
    rintro ⟨_, ⟨command, source, rfl, _⟩, stands⟩
    exact ⟨command, (Option.some.inj stands).symm⟩
  next =>
    rintro ⟨command, rfl⟩
    exact ⟨[command.word, "-"], sensible_minus command, rfl⟩

theorem fits_one : Fits 1 word ↔ ¬ Dashed word := by
  constructor
  next =>
    rintro ⟨_, ⟨command, source, rfl, literal⟩, stands⟩
    cases stands
    exact literal
  next =>
    intro literal
    exact ⟨[Command.eval.word, word], ⟨.eval, word, rfl, literal⟩, rfl⟩

theorem not_fits_add_two (place : Nat) (word : String) : ¬ Fits (place + 2) word := by
  rintro ⟨_, ⟨command, source, rfl, _⟩, stands⟩
  cases stands

end Fits

namespace FirstMisfit

variable {words : List String} {place : Nat} {word : String}

theorem append (first : FirstMisfit words place word) (more : List String) :
    FirstMisfit (words ++ more) place word := by
  have inside : place < words.length := (List.getElem?_eq_some_iff.mp first.stands).1
  refine ⟨?_, first.misfit, fun earlier before other stands => ?_⟩
  next => rw [List.getElem?_append_left inside, first.stands]
  next =>
    rw [List.getElem?_append_left (by omega)] at stands
    exact first.first earlier before other stands

theorem unique {other : Nat} {another : String} (first : FirstMisfit words place word)
    (second : FirstMisfit words other another) : place = other ∧ word = another := by
  have same : place = other := by
    rcases Nat.lt_trichotomy place other with before | same | after
    next => exact absurd (second.first place before word first.stands) first.misfit
    next => exact same
    next => exact absurd (first.first other after another second.stands) second.misfit
  subst same
  exact ⟨rfl, Option.some.inj (first.stands.symm.trans second.stands)⟩

theorem not_sensible (first : FirstMisfit words place word) : ¬ Sensible words :=
  fun sensible => first.misfit ⟨words, sensible, first.stands⟩

theorem ne_nil (first : FirstMisfit words place word) : words ≠ [] := by
  rintro rfl
  cases first.stands

theorem ne_command (first : FirstMisfit words place word) (command : Command) :
    words ≠ [command.word] := by
  rintro rfl
  exact (first.append ["-"]).not_sensible (sensible_minus command)

end FirstMisfit

def help : List String :=
  ["Usage: pegrat <command> <expr> [options]",
    "",
    "Commands:",
    "  eval <expr>     Evaluate an integer expression",
    "  tree <expr>     Print the expression fully parenthesized",
    "",
    "<expr> may be `-` to read standard input.",
    "",
    "Options:",
    "  --no-memo       Disable memoization",
    "  --trace         Print rule invocations to stderr",
    "  --trace=log     Emit rule invocations as tracing events"]

theorem message_missingCommand : UsageError.missingCommand.message = "\n".intercalate help := by
  decide +kernel

/-- What is wrong with words that do not make sense, as it is told. -/
inductive Refused (words : List String) : String → Prop
  | misfit {place : Nat} {word : String} (first : FirstMisfit words place word) :
    Refused words (complaint place word)
  | missingCommand (nothing : words = []) : Refused words ("\n".intercalate help)
  | missingExpression {command : Command} (alone : words = [command.word]) :
    Refused words "missing expression"

namespace Refused

variable {words : List String} {text other : String}

theorem not_sensible (refused : Refused words text) : ¬ Sensible words := by
  cases refused with
  | misfit first => exact first.not_sensible
  | missingCommand nothing =>
    subst nothing
    rintro ⟨_, _, same, _⟩
    cases same
  | missingExpression alone =>
    subst alone
    rintro ⟨_, _, same, _⟩
    simp at same

theorem unique (refused : Refused words text) (another : Refused words other) : text = other := by
  cases refused with
  | misfit first =>
    cases another with
    | misfit second =>
      obtain ⟨rfl, rfl⟩ := first.unique second
      rfl
    | missingCommand nothing => exact absurd nothing first.ne_nil
    | missingExpression alone => exact absurd alone (first.ne_command _)
  | missingCommand nothing =>
    cases another with
    | misfit second => exact absurd nothing second.ne_nil
    | missingCommand => rfl
    | missingExpression alone => simp [nothing] at alone
  | missingExpression alone =>
    cases another with
    | misfit second => exact absurd alone (second.ne_command _)
    | missingCommand nothing => simp [nothing] at alone
    | missingExpression => rfl

end Refused

theorem words_append (seen more : List String) : words (seen ++ more) = words seen ++ words more :=
  List.filter_append seen more

theorem words_flag {argument : String} (flag : argument ∈ flags) : words [argument] = [] := by
  simp [words, flag]

theorem words_plain {argument : String} (plain : argument ∉ flags) :
    words [argument] = [argument] := by
  simp [words, plain]

theorem ofFlag?_plain {argument : String} (plain : argument ∉ flags) :
    TraceMode.ofFlag? argument = none := by
  unfold TraceMode.ofFlag?
  rw [if_neg, if_neg]
  all_goals
    rintro rfl
    exact plain (by decide)

theorem lastMode_concat (seen : List String) (argument : String) :
    lastMode (seen ++ [argument]) = (TraceMode.ofFlag? argument).getD (lastMode seen) := by
  unfold lastMode
  rw [List.filterMap_append]
  cases mode : TraceMode.ofFlag? argument with
  | none => simp [mode]
  | some found => simp [mode]

/-- The options that a line of arguments asks for. -/
def Asks (arguments : List String) (options : Options) : Prop :=
  ∃ command source, words arguments = [Command.word command, source] ∧ ¬ Dashed source ∧
    options = { command, source, memoize := "--no-memo" ∉ arguments, trace := lastMode arguments }

section Asks

variable {arguments : List String} {options others : Options}

theorem Asks.sensible (asks : Asks arguments options) : Sensible (words arguments) := by
  obtain ⟨command, source, spelled, literal, _⟩ := asks
  exact ⟨command, source, spelled, literal⟩

theorem Asks.unique (asks : Asks arguments options) (another : Asks arguments others) :
    options = others := by
  obtain ⟨command, source, spelled, _, rfl⟩ := asks
  obtain ⟨name, text, again, _, rfl⟩ := another
  rw [spelled, List.cons.injEq, List.cons.injEq] at again
  obtain ⟨names, rfl, _⟩ := again
  rw [Command.word_inj names]

end Asks

namespace Draft

inductive Stage (draft : Draft) : List String → Prop
  | empty (command : draft.command = none) (source : draft.source = none) : Stage draft []
  | begun {name : Command} (command : draft.command = some name) (source : draft.source = none) :
    Stage draft [name.word]
  | full {name : Command} {text : String} (command : draft.command = some name)
      (source : draft.source = some text) (literal : ¬ Dashed text) : Stage draft [name.word, text]

variable {draft next : Draft} {words seen : List String} {argument : String}

namespace Stage

theorem settings (stage : draft.Stage words) (memoize : Bool) (trace : TraceMode) :
    Stage { draft with memoize, trace } words := by
  cases stage with
  | empty command source => exact .empty command source
  | begun command source => exact .begun command source
  | full command source literal => exact .full command source literal

theorem sensible_append (stage : draft.Stage words) : ∃ more, Sensible (words ++ more) := by
  cases stage with
  | empty => exact ⟨_, sensible_minus .eval⟩
  | begun => exact ⟨["-"], sensible_minus _⟩
  | full _ _ literal => exact ⟨[], _, _, rfl, literal⟩

theorem firstMisfit (stage : draft.Stage words) (misfit : ¬ Fits words.length argument) :
    FirstMisfit (words ++ [argument]) words.length argument := by
  refine ⟨by simp, misfit, fun earlier before other stands => ?_⟩
  obtain ⟨more, sensible⟩ := stage.sensible_append
  rw [List.getElem?_append_left before] at stands
  exact ⟨_, sensible, by rwa [List.getElem?_append_left before]⟩

theorem place (stage : draft.Stage words) (argument : String) :
    (∃ next, draft.place argument = .ok next ∧ next.Stage (words ++ [argument]) ∧
      next.memoize = draft.memoize ∧ next.trace = draft.trace) ∨
    ∃ cause, draft.place argument = .error cause ∧ ¬ Fits words.length argument ∧
      cause.message = complaint words.length argument := by
  unfold Draft.place
  cases stage with
  | empty command source =>
    rw [command]
    by_cases fits : ∃ name, argument = Command.word name
    next =>
      obtain ⟨name, rfl⟩ := fits
      have stage : Stage { draft with command := some name } [name.word] := .begun rfl source
      exact .inl ⟨_, by cases name <;> rfl, stage, rfl, rfl⟩
    next =>
      have noEval : argument ≠ "eval" := fun same => fits ⟨.eval, same⟩
      have noTree : argument ≠ "tree" := fun same => fits ⟨.tree, same⟩
      have misfit : ¬ Fits 0 argument := mt fits_zero.mp fits
      simp only [if_neg noEval, if_neg noTree, ← dashed_iff]
      by_cases dashed : Dashed argument
      next => exact .inr ⟨_, if_pos dashed, misfit, complaint_dashed 0 dashed⟩
      next => exact .inr ⟨_, if_neg dashed, misfit, complaint_zero dashed⟩
  | @begun name command source =>
    rw [command, source]
    simp only [← dashed_iff]
    by_cases dashed : Dashed argument
    next =>
      have misfit : ¬ Fits 1 argument := fun fits => fits_one.mp fits dashed
      exact .inr ⟨_, if_pos dashed, misfit, complaint_dashed 1 dashed⟩
    next =>
      have stage : Stage { draft with source := some argument } [name.word, argument] :=
        .full command rfl dashed
      exact .inl ⟨_, if_neg dashed, command ▸ stage, rfl, rfl⟩
  | full command source =>
    rw [command, source]
    simp only [← dashed_iff]
    have misfit : ¬ Fits 2 argument := not_fits_add_two 0 argument
    by_cases dashed : Dashed argument
    next => exact .inr ⟨_, if_pos dashed, misfit, complaint_dashed 2 dashed⟩
    next => exact .inr ⟨_, if_neg dashed, misfit, complaint_succ 1 dashed⟩

end Stage

structure Reads (draft : Draft) (arguments : List String) : Prop where
  stage : draft.Stage (Calculator.words arguments)
  memoize : draft.memoize = decide ("--no-memo" ∉ arguments)
  trace : draft.trace = lastMode arguments

theorem reads_nil : Reads {} [] :=
  ⟨.empty rfl rfl, rfl, rfl⟩

theorem Reads.extend (reads : draft.Reads seen)
    (stage : next.Stage (Calculator.words seen ++ Calculator.words [argument]))
    (memoize : next.memoize = (draft.memoize && decide (argument ≠ "--no-memo")))
    (trace : next.trace = (TraceMode.ofFlag? argument).getD draft.trace) :
    next.Reads (seen ++ [argument]) where
  stage := by rwa [words_append]
  memoize := by
    rw [memoize, reads.memoize]
    simp [eq_comm]
  trace := by rw [trace, reads.trace, lastMode_concat]

def Judged (arguments : List String) : Except UsageError Draft → Prop
  | .ok draft => draft.Reads arguments
  | .error cause => ∃ place word,
      FirstMisfit (Calculator.words arguments) place word ∧ cause.message = complaint place word

theorem judged_place (reads : draft.Reads seen) (plain : argument ∉ flags) :
    Judged (seen ++ [argument]) (draft.place argument) := by
  obtain ⟨next, placed, stage, memoize, trace⟩ | ⟨cause, refused, misfit, told⟩ :=
    reads.stage.place argument
  next =>
    rw [placed]
    have memoizes : argument ≠ "--no-memo" := by
      rintro rfl
      exact plain (by decide)
    refine reads.extend (by rwa [words_plain plain]) ?_ ?_
    next => simp [memoize, memoizes]
    next => simp [trace, ofFlag?_plain plain]
  next =>
    rw [refused]
    refine ⟨_, argument, ?_, told⟩
    rw [words_append, words_plain plain]
    exact reads.stage.firstMisfit misfit

theorem add_word (plain : argument ∉ flags) : draft.add argument = draft.place argument := by
  unfold add
  rw [if_neg, if_neg, if_neg]
  all_goals
    rintro rfl
    exact plain (by decide)

theorem add_flag (draft : Draft) (flag : argument ∈ flags) :
    draft.add argument = .ok
      { draft with
        memoize := draft.memoize && decide (argument ≠ "--no-memo")
        trace := (TraceMode.ofFlag? argument).getD draft.trace } := by
  have named : argument = "--no-memo" ∨ argument = "--trace" ∨ argument = "--trace=log" := by
    simpa [flags] using flag
  obtain rfl | rfl | rfl := named
  all_goals simp [add, TraceMode.ofFlag?]

theorem judged_add (reads : draft.Reads seen) (argument : String) :
    Judged (seen ++ [argument]) (draft.add argument) := by
  by_cases flag : argument ∈ flags
  next =>
    rw [add_flag draft flag]
    refine reads.extend ?_ rfl rfl
    rw [words_flag flag, List.append_nil]
    exact reads.stage.settings _ _
  next =>
    rw [add_word flag]
    exact judged_place reads flag

theorem judged_addAll (reads : draft.Reads seen) (rest : List String) :
    Judged (seen ++ rest) (draft.addAll rest) := by
  induction rest generalizing draft seen with
  | nil => rwa [List.append_nil]
  | cons argument rest ih =>
    have step := judged_add reads argument
    rw [List.append_cons, addAll]
    cases added : draft.add argument with
    | ok next =>
      rw [added] at step
      exact ih step
    | error cause =>
      rw [added] at step
      obtain ⟨place, word, first, told⟩ := step
      refine ⟨place, word, ?_, told⟩
      rw [words_append]
      exact first.append _

end Draft

variable {arguments : List String}

theorem Draft.Reads.finish {draft : Draft} (reads : draft.Reads arguments) :
    (∃ options, draft.finish = .ok options ∧ Asks arguments options) ∨
      ∃ cause, draft.finish = .error cause ∧ Refused (words arguments) cause.message := by
  obtain ⟨stage, memoize, trace⟩ := reads
  unfold Draft.finish
  generalize spelled : words arguments = spoken at stage
  cases stage with
  | empty command source =>
    rw [command]
    have refused : Refused [] UsageError.missingCommand.message := by
      rw [message_missingCommand]
      exact .missingCommand rfl
    exact .inr ⟨_, rfl, refused⟩
  | begun command source =>
    rw [command, source]
    exact .inr ⟨_, rfl, .missingExpression rfl⟩
  | full command source literal =>
    rw [command, source]
    refine .inl ⟨_, rfl, _, _, spelled, literal, ?_⟩
    rw [memoize, trace]

theorem ofArguments_cases (arguments : List String) :
    (∃ options, Options.ofArguments arguments = .ok options ∧ Asks arguments options) ∨
      ∃ cause, Options.ofArguments arguments = .error cause ∧
        Refused (words arguments) cause.message := by
  have judged := Draft.judged_addAll Draft.reads_nil arguments
  rw [List.nil_append] at judged
  unfold Options.ofArguments
  cases read : Draft.addAll {} arguments with
  | ok draft =>
    rw [read] at judged
    exact judged.finish
  | error cause =>
    rw [read] at judged
    obtain ⟨place, word, first, told⟩ := judged
    exact .inr ⟨cause, rfl, told ▸ .misfit first⟩

/-- A line of arguments is accepted if its words are a command and an expression that is not taken for an
option; the flags among them, wherever they stand, settle the rest. Any other line is refused: for its
first word that does not fit its place or, where all of them fit, for what is missing. -/
theorem accepts_sensible_lines (arguments : List String) :
    (∀ options, Options.ofArguments arguments = .ok options ↔ Asks arguments options) ∧
      ∀ text, (∃ cause, Options.ofArguments arguments = .error cause ∧ cause.message = text) ↔
        Refused (words arguments) text := by
  obtain ⟨chosen, accepted, asks⟩ | ⟨cause, stopped, refused⟩ := ofArguments_cases arguments
  next =>
    rw [accepted]
    refine ⟨fun options => ⟨?_, fun other => ?_⟩, fun text => ⟨?_, fun refused => ?_⟩⟩
    next =>
      rintro ⟨⟩
      exact asks
    next => rw [asks.unique other]
    next =>
      rintro ⟨_, ⟨⟩, _⟩
    next => exact absurd asks.sensible refused.not_sensible
  next =>
    rw [stopped]
    refine ⟨fun options => ⟨?_, fun asks => ?_⟩, fun text => ⟨?_, fun other => ?_⟩⟩
    next => rintro ⟨⟩
    next => exact absurd asks.sensible refused.not_sensible
    next =>
      rintro ⟨_, ⟨⟩, rfl⟩
      exact refused
    next => exact ⟨cause, rfl, refused.unique other⟩

example : Options.ofArguments ["--trace", "eval", "--no-memo", "tree", "--trace=log"] =
    .ok { command := .eval, source := "tree", memoize := false, trace := .log } := by
  rfl

end Packrat.Calculator
