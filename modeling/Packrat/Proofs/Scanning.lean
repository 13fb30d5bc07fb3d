import Packrat.Proofs.Bookkeeping
import Packrat.Proofs.Derivation
import Packrat.Proofs.Reach

set_option autoImplicit false

namespace Packrat

def Source.Ahead (source : Source) (cursor : Cursor) (text : List Char) : Prop :=
  Text.suffix? source.chars cursor.index = some text

namespace Source.Ahead

variable {source : Source} {cursor later : Cursor} {text taken rest : List Char}

theorem rest_eq (ahead : source.Ahead cursor text) : source.rest cursor.index = text := by
  rw [Source.rest_eq, ahead, Option.getD_some]

theorem index_add (ahead : source.Ahead cursor text) :
    cursor.index + Text.size text = source.size := by
  obtain ⟨before, split, size⟩ := Text.suffix?_eq_some_iff.mp ahead
  rw [source.size_eq, split, Text.size_append, size]

theorem skip (ahead : source.Ahead cursor (taken ++ rest)) :
    source.Ahead (Parser.skip (Text.size taken) source cursor) rest := by
  have fits : cursor.index + Text.size taken ≤ source.size := by
    have total := ahead.index_add
    rw [Text.size_append] at total
    omega
  obtain ⟨before, split, size⟩ := Text.suffix?_eq_some_iff.mp ahead
  apply Text.suffix?_eq_some_iff.mpr
  refine ⟨before ++ taken, by rw [split, List.append_assoc], ?_⟩
  simp only [Parser.skip, Text.size_append]
  omega

theorem index_le (ahead : source.Ahead cursor (taken ++ rest)) (ahead' : source.Ahead later rest) :
    cursor.index ≤ later.index := by
  have first := ahead.index_add
  have second := ahead'.index_add
  rw [Text.size_append] at first
  omega

theorem index_lt (ahead : source.Ahead cursor (taken ++ rest)) (ahead' : source.Ahead later rest)
    (some : taken ≠ []) : cursor.index < later.index := by
  obtain ⟨c, others, rfl⟩ := List.exists_cons_of_ne_nil some
  have first := ahead.index_add
  have second := ahead'.index_add
  have positive := c.utf8Size_pos
  simp only [List.cons_append, Text.size_cons, Text.size_append] at first
  omega

end Source.Ahead

namespace Calculator

open Packrat.Parser

variable {α β : Type}

-- The calls of the ranks.

def Rank.rule : Rank → Rule
  | .sum | .product => levelRule
  | .factor => factorRule

def Rank.args : Rank → List Arg
  | .sum => [.word 0]
  | .product => [.word 1]
  | .factor => []

def Rank.call (rank : Rank) (cursor : Cursor) : Call :=
  { cursor, rule := rank.rule.name, args := rank.args }

theorem call_inj {rank other : Rank} {cursor place : Cursor}
    (same : rank.call cursor = other.call place) : rank = other ∧ cursor = place := by
  cases rank <;> cases other <;> simp_all [Rank.call, Rank.rule, Rank.args, levelRule, factorRule]

inductive Tells (source : Source) (rank : Rank) (text : List Char) : Verdict Expr → Prop
  | matched {value : Expr} {cursor : Cursor} {frame : Farthest.Frame} {rest : List Char}
      {beyond : Nat} (ahead : source.Ahead cursor rest)
      (reads : Reads (.operand rank) text (some (value, rest)) beyond)
      (reach : frame.reach = source.size + 1 - beyond) :
      Tells source rank text { outcome := .ok value, cursor, frame }
  | missed {failure : Failure} {cursor : Cursor} {frame : Farthest.Frame} {beyond : Nat}
      (recoverable : failure.recoverable = true) (reads : Reads (.operand rank) text none beyond)
      (reach : frame.reach = source.size + 1 - beyond) :
      Tells source rank text { outcome := .error failure, cursor, frame }

structure Faithful (machine : Machine Expr) : Prop where
  memo : ∀ {rank : Rank} {cursor : Cursor} {text : List Char} {verdict : Verdict Expr},
    machine.source.Ahead cursor text → machine.memo.find? (rank.call cursor) = some verdict →
      Tells machine.source rank text verdict
  pending : machine.config.memoize = true → ∀ activation ∈ machine.active.activations,
    machine.memo.find? activation.call = none

theorem Faithful.of_calls {before after : Machine Expr} (faithful : Faithful before)
    (source : after.source = before.source) (config : after.config = before.config)
    (memo : after.memo = before.memo) (calls : after.calls = before.calls) : Faithful after where
  memo := by
    rw [source, memo]
    exact faithful.memo
  pending := by
    rw [config, memo]
    intro memoize running member
    have present : running.call ∈ before.calls := calls ▸ List.mem_map_of_mem member
    obtain ⟨former, member, same⟩ := List.mem_map.mp present
    rw [← same]
    exact faithful.pending memoize former member

structure Stands (machine : Machine Expr) (text : List Char) : Prop where
  ahead : machine.source.Ahead machine.cursor text
  within : machine.farthest.innermost.Within machine.cursor.index

theorem Stands.size_le {machine : Machine Expr} {text : List Char} (stands : Stands machine text) :
    Text.size text ≤ machine.source.size := by
  have total := stands.ahead.index_add
  omega

structure Kept (before after : Machine Expr) (beyond : Nat) : Prop where
  source : after.source = before.source
  config : after.config = before.config
  active : after.active = before.active
  faithful : Faithful after
  marked : before.farthest.Marked after.farthest (before.source.size + 1 - beyond)

namespace Kept

variable {before middle after machine : Machine Expr} {near far beyond : Nat}

theorem trans (first : Kept before middle near) (second : Kept middle after far) :
    Kept before after (min near far) where
  source := second.source.trans first.source
  config := second.config.trans first.config
  active := second.active.trans first.active
  faithful := second.faithful
  marked := by
    have reach : before.source.size + 1 - min near far =
        max (before.source.size + 1 - near) (middle.source.size + 1 - far) := by
      rw [first.source]
      omega
    rw [reach]
    exact first.marked.trans second.marked

theorem refl (faithful : Faithful machine) : Kept machine machine (machine.source.size + 1) where
  source := rfl
  config := rfl
  active := rfl
  faithful := faithful
  marked := by
    rw [Nat.sub_self]
    exact .refl machine.farthest

theorem moveTo (kept : Kept before after beyond) (cursor : Cursor) :
    Kept before (after.moveTo cursor) beyond :=
  { kept with faithful := kept.faithful.of_calls rfl rfl rfl rfl }

theorem report (kept : Kept before after beyond) (call : Call) (step : Step Expr) :
    Kept before (after.report call step) beyond :=
  { kept with faithful := kept.faithful.of_calls rfl rfl rfl rfl }

theorem register (kept : Kept before after beyond) {index : Nat}
    (within : after.farthest.innermost.Within index) (fits : index ≤ after.source.size)
    (label : String) :
    Kept before (after.register index label) (min beyond (after.source.size - index)) := by
  have asked : Kept after (after.register index label) (after.source.size - index) :=
    { source := rfl
      config := rfl
      active := rfl
      faithful := kept.faithful.of_calls rfl rfl rfl rfl
      marked := by
        have reach : after.source.size + 1 - (after.source.size - index) = index + 1 := by omega
        rw [reach]
        exact .register within label }
  exact kept.trans asked

theorem dropFrame {index : Nat} (kept : Kept (machine.pushFrame index) after beyond) :
    Kept machine after.dropFrame (machine.source.size + 1) where
  source := kept.source
  config := kept.config
  active := kept.active
  faithful := kept.faithful.of_calls rfl rfl rfl rfl
  marked := by
    have same : after.dropFrame.farthest = machine.farthest := kept.marked.pop
    rw [same, Nat.sub_self]
    exact .refl machine.farthest

theorem stands {text rest : List Char} (kept : Kept before after beyond)
    (stands : Stands before text) (ahead : after.source.Ahead after.cursor rest)
    (later : before.cursor.index ≤ after.cursor.index) : Stands after rest where
  ahead := ahead
  within := kept.marked.within (stands.within.mono later)

theorem back {text : List Char} (kept : Kept before after beyond) (stands : Stands before text)
    (cursor : after.cursor = before.cursor) : Stands after text :=
  kept.stands stands (by rw [kept.source, cursor]; exact stands.ahead) (by rw [cursor])

end Kept

/-- A run that finds a value and leaves some text after it, or that has missed. What it finds or
misses is told together with the bytes beyond what it asked for. -/
inductive Yields (before : Machine Expr) (found : α → List Char → Nat → Prop)
    (missed : Nat → Prop) : Ending Expr α → Prop
  | found {value : α} {after : Machine Expr} {rest : List Char} {beyond : Nat}
      (kept : Kept before after beyond) (stands : Stands after rest)
      (fits : found value rest beyond) : Yields before found missed (.ok value after)
  | missed {failure : Failure} {after : Machine Expr} {beyond : Nat}
      (kept : Kept before after beyond) (recoverable : failure.recoverable = true)
      (absent : missed beyond) : Yields before found missed (.error failure after)

namespace Yields

variable {machine : Machine Expr} {found : α → List Char → Nat → Prop} {missed : Nat → Prop}
  {found' : β → List Char → Nat → Prop} {missed' : Nat → Prop} {text : List Char}

def asked (source : Source) (label : Option (Nat × String)) : Nat :=
  match label with
  | some (index, _) => source.size - index
  | none => source.size + 1

theorem kept_label (faithful : Faithful machine) (stands : Stands machine text) (cursor : Cursor)
    {label : Option (Nat × String)}
    (labelled : ∀ place ∈ label,
      machine.cursor.index ≤ place.1 ∧ place.1 ≤ machine.source.size) :
    Kept machine ((machine.moveTo cursor).expect label) (asked machine.source label) := by
  have moved := (Kept.refl faithful).moveTo cursor
  cases label with
  | none => exact moved
  | some place =>
    obtain ⟨behind, fits⟩ := labelled place rfl
    have registered := moved.register (stands.within.mono behind) fits place.2
    have nearer : min (machine.source.size + 1) (machine.source.size - place.1) =
        machine.source.size - place.1 := by omega
    rwa [Machine.moveTo, nearer] at registered

section Leaf

variable {act : Source → Cursor → Move α} {cursor : Cursor} {label : Option (Nat × String)}

theorem leaf_found {value : α} {rest : List Char} (faithful : Faithful machine)
    (stands : Stands machine text)
    (moves : act machine.source machine.cursor = { outcome := .ok value, cursor, label })
    (ahead : machine.source.Ahead cursor rest) (later : machine.cursor.index ≤ cursor.index)
    (labelled : ∀ place ∈ label, machine.cursor.index ≤ place.1 ∧ place.1 ≤ machine.source.size)
    (fits : found value rest (asked machine.source label)) :
    Yields machine found missed (Parser.leaf act machine) := by
  have kept := kept_label faithful stands cursor labelled
  simp only [Parser.leaf, moves]
  refine .found kept (kept.stands stands ?_ ?_) fits
  next => cases label <;> exact ahead
  next => cases label <;> exact later

theorem leaf_missed {mismatch : Mismatch} (faithful : Faithful machine)
    (stands : Stands machine text)
    (moves : act machine.source machine.cursor = { outcome := .error mismatch, cursor, label })
    (labelled : ∀ place ∈ label, machine.cursor.index ≤ place.1 ∧ place.1 ≤ machine.source.size)
    (absent : missed (asked machine.source label)) :
    Yields machine found missed (Parser.leaf act machine) := by
  simp only [Parser.leaf, moves]
  exact .missed (kept_label faithful stands cursor labelled) mismatch.property absent

end Leaf

theorem imp {found' : α → List Char → Nat → Prop} {ending : Ending Expr α}
    (yields : Yields machine found missed ending)
    (matched : ∀ {value rest beyond}, found value rest beyond → found' value rest beyond)
    (mismatched : ∀ {beyond}, missed beyond → missed' beyond) :
    Yields machine found' missed' ending := by
  cases yields with
  | found kept stands fits => exact .found kept stands (matched fits)
  | missed kept recoverable absent => exact .missed kept recoverable (mismatched absent)

theorem after {middle : Machine Expr} {ending : Ending Expr α} {near : Nat}
    (kept : Kept machine middle near)
    (yields : Yields middle (fun value rest far => found value rest (min near far))
      (fun far => missed (min near far)) ending) : Yields machine found missed ending := by
  cases yields with
  | found kept' stands fits => exact .found (kept.trans kept') stands fits
  | missed kept' recoverable absent => exact .missed (kept.trans kept') recoverable absent

theorem bind {parser : Parser Expr α} {next : α → Parser Expr β}
    (first : Yields machine found missed (parser machine))
    (continued : ∀ {value rest near after}, Kept machine after near → Stands after rest →
      found value rest near →
        Yields after (fun value' rest' far => found' value' rest' (min near far))
          (fun far => missed' (min near far)) (next value after))
    (gone : ∀ {near}, missed near → missed' near) :
    Yields machine found' missed' ((parser >>= next) machine) := by
  rw [bind_apply]
  generalize parser machine = ending at first
  cases first with
  | found kept stands fits => exact (continued kept stands fits).after kept
  | missed kept recoverable absent => exact .missed kept recoverable (gone absent)

theorem map {parser : Parser Expr α} {f : α → β}
    (yields : Yields machine found missed (parser machine))
    (matched : ∀ {value rest beyond}, found value rest beyond → found' (f value) rest beyond)
    (mismatched : ∀ {beyond}, missed beyond → missed' beyond) :
    Yields machine found' missed' ((parser >>= fun value => pure (f value)) machine) := by
  rw [bind_apply]
  generalize parser machine = ending at yields
  cases yields with
  | found kept stands fits => exact .found kept stands (matched fits)
  | missed kept recoverable absent => exact .missed kept recoverable (mismatched absent)

theorem choice {first : Parser Expr α} {others : List (Parser Expr α)}
    {found' : α → List Char → Nat → Prop} (yields : Yields machine found missed (first machine))
    (matched : ∀ {value rest beyond}, found value rest beyond → found' value rest beyond)
    (mismatched : ∀ {after near}, Kept machine after near → after.cursor = machine.cursor →
      missed near →
        Yields after (fun value rest far => found' value rest (min near far))
          (fun far => missed' (min near far)) (Parser.choice others after)) :
    Yields machine found' missed' (Parser.choice (first :: others) machine) := by
  rw [choice_cons, branch]
  generalize first machine = ending at yields
  cases yields with
  | found kept stands fits => exact .found kept stands (matched fits)
  | @missed failure after beyond kept recoverable absent =>
    have back := kept.moveTo machine.cursor
    simp only [recoverable, dif_pos]
    exact (mismatched back rfl absent).after back

theorem last {first : Parser Expr α} (yields : Yields machine found missed (first machine)) :
    Yields machine found missed (Parser.choice [first] machine) := by
  rw [choice_cons, branch]
  generalize first machine = ending at yields
  cases yields with
  | found kept stands fits => exact .found kept stands fits
  | @missed failure after beyond kept recoverable absent =>
    simp only [recoverable, dif_pos]
    exact .missed (kept.moveTo machine.cursor) rfl absent

end Yields

-- What each matcher reads.

section Matchers

variable {machine : Machine Expr} {text : List Char}

theorem asked_here (stands : Stands machine text) (label : String) :
    Yields.asked machine.source (some (machine.cursor.index, label)) = Text.size text := by
  have total := stands.ahead.index_add
  simp only [Yields.asked]
  omega

theorem labelled_here (stands : Stands machine text) (label : String) :
    ∀ place ∈ some (machine.cursor.index, label),
      machine.cursor.index ≤ place.1 ∧ place.1 ≤ machine.source.size := by
  have total := stands.ahead.index_add
  rintro place ⟨⟩
  exact ⟨le_refl _, by omega⟩

theorem literal_yields (faithful : Faithful machine) (stands : Stands machine text)
    (word : String) :
    Yields machine (fun _ rest beyond => text = word.toList ++ rest ∧ Text.size text ≤ beyond)
      (fun beyond => (∀ rest, text ≠ word.toList ++ rest) ∧ beyond = Text.size text)
      (literal word machine) := by
  rw [literal_eq]
  by_cases found : word.toList <+: text
  next =>
    obtain ⟨rest, rfl⟩ := found
    have moves : literalMove word machine.source machine.cursor =
        { outcome := .ok word
          cursor := Parser.skip (Text.size word.toList) machine.source machine.cursor } := by
      simp [literalMove, stands.ahead.rest_eq]
    have fits := stands.size_le
    exact .leaf_found faithful stands moves stands.ahead.skip
      (stands.ahead.index_le stands.ahead.skip) (by simp) ⟨rfl, by simp only [Yields.asked]; omega⟩
  next =>
    have moves : literalMove word machine.source machine.cursor =
        { outcome := .error noMatch
          cursor := machine.cursor
          label := some (machine.cursor.index, word) } := by
      simp [literalMove, stands.ahead.rest_eq, found]
    refine .leaf_missed faithful stands moves (labelled_here stands _) ⟨?_, asked_here stands _⟩
    rintro rest rfl
    exact found (List.prefix_append _ _)

structure StopsAt (machine : Machine Expr) (text : List Char) (test : Char → Bool)
    (cursor : Cursor) : Prop where
  moves : ∀ label : String, runMove test label machine.source machine.cursor =
    { outcome := .ok (String.ofList (text.takeWhile test))
      cursor
      label := some (cursor.index, label) }
  ahead : machine.source.Ahead cursor (text.dropWhile test)
  later : machine.cursor.index ≤ cursor.index
  labelled : ∀ label : String, ∀ place ∈ some (cursor.index, label),
    machine.cursor.index ≤ place.1 ∧ place.1 ≤ machine.source.size
  asked : ∀ label : String, Yields.asked machine.source (some (cursor.index, label)) =
    Text.size (text.dropWhile test)

theorem exists_stop (stands : Stands machine text) (test : Char → Bool) :
    ∃ cursor, StopsAt machine text test cursor := by
  have here : machine.source.Ahead machine.cursor
      (text.takeWhile test ++ text.dropWhile test) := by
    rw [List.takeWhile_append_dropWhile]
    exact stands.ahead
  have total := here.skip.index_add
  have later := here.index_le here.skip
  refine ⟨_, fun label => ?_, here.skip, later, ?_, ?_⟩
  next => simp only [runMove, stands.ahead.rest_eq]
  next =>
    rintro label place ⟨⟩
    exact ⟨later, by omega⟩
  next =>
    intro label
    simp only [Yields.asked]
    omega

theorem blanks_yields (faithful : Faithful machine) (stands : Stands machine text) :
    Yields machine (fun _ rest beyond => rest = skip text ∧ beyond = Text.size (skip text))
      (fun _ => False) (blanks machine) := by
  have run : Yields machine
      (fun _ rest beyond => rest = skip text ∧ beyond = Text.size (skip text)) (fun _ => False)
      (Parser.run CharSet.blank.contains "white space" machine) := by
    obtain ⟨stop, stops⟩ := exists_stop stands CharSet.blank.contains
    rw [run_eq]
    exact .leaf_found faithful stands (stops.moves _) stops.ahead stops.later (stops.labelled _)
      ⟨rfl, stops.asked _⟩
  rw [blanks, map_eq]
  exact run.map id id

theorem opening_yields {α : Type} {next : Parser Expr α} {found : α → List Char → Nat → Prop}
    {missed : Nat → Prop} (word : String) (sign : Char) (spelled : word.toList = [sign])
    (faithful : Faithful machine) (stands : Stands machine text)
    (continued : ∀ {inner taken after near}, text = sign :: inner → text = taken ++ skip inner →
      taken ≠ [] → Text.size (skip inner) ≤ near → Kept machine after near →
      Stands after (skip inner) →
        Yields after (fun value rest far => found value rest (min near far))
          (fun far => missed (min near far)) (next after))
    (absent : (∀ inner, text ≠ sign :: inner) → missed (Text.size text)) :
    Yields machine found missed ((literal word >>= fun _ => blanks >>= fun _ => next) machine) := by
  have signed := literal_yields faithful stands word
  simp only [spelled, List.singleton_append] at signed
  refine signed.bind ?_ ?_
  next =>
    rintro _ inner near first keptFirst standsFirst ⟨opened, quiet⟩
    obtain ⟨gap, -, spaced⟩ := exists_blank inner
    have split : text = (sign :: gap) ++ skip inner := by
      rw [opened, List.cons_append, ← spaced]
    have inside : Text.size (skip inner) ≤ Text.size text := by
      rw [split, Text.size_append]
      omega
    refine (blanks_yields keptFirst.faithful standsFirst).bind ?_ False.elim
    rintro - _ - second keptSecond standsSecond ⟨rfl, rfl⟩
    have result := continued opened split (by simp) (by omega) (keptFirst.trans keptSecond)
      standsSecond
    simpa only [min_assoc] using result
  next =>
    rintro - ⟨none, rfl⟩
    exact absent none

theorem endOfInput_yields (faithful : Faithful machine) (stands : Stands machine text) :
    Yields machine (fun _ _ _ => text = [])
      (fun beyond => text ≠ [] ∧ beyond = Text.size text) (endOfInput machine) := by
  have total := stands.ahead.index_add
  rw [endOfInput_eq]
  cases text with
  | nil =>
    have moves : endMove machine.source machine.cursor =
        { outcome := .ok (), cursor := machine.cursor } := by
      rw [Text.size_nil] at total
      simp only [endMove]
      rw [if_neg (by omega)]
    exact .leaf_found faithful stands moves stands.ahead (le_refl _) (by simp) rfl
  | cons c others =>
    -- A character that is left takes up a byte.
    have positive := c.utf8Size_pos
    have moves : endMove machine.source machine.cursor =
        { outcome := .error noMatch
          cursor := machine.cursor
          label := some (machine.cursor.index, "End Of Input") } := by
      rw [Text.size_cons] at total
      simp only [endMove]
      rw [if_pos (by omega)]
    exact .leaf_missed faithful stands moves (labelled_here stands _) ⟨by simp, asked_here stands _⟩

theorem digits_yields (faithful : Faithful machine) (stands : Stands machine text) :
    Yields machine (fun value rest _ => numberAt text = some (value, rest))
      (fun _ => numberAt text = none) (digits machine) := by
  have run : Yields machine
      (fun value rest _ => value = String.ofList (text.takeWhile Char.isDigit) ∧
        text.takeWhile Char.isDigit ≠ [] ∧ rest = text.dropWhile Char.isDigit)
      (fun _ => text.takeWhile Char.isDigit = []) (Parser.run1 Char.isDigit "digit" machine) := by
    obtain ⟨stop, stops⟩ := exists_stop stands Char.isDigit
    rw [run1_eq]
    by_cases none : text.takeWhile Char.isDigit = []
    next =>
      have moves : run1Move Char.isDigit "digit" machine.source machine.cursor =
          { outcome := .error noMatch, cursor := stop, label := some (stop.index, "digit") } := by
        simp [run1Move, stops.moves, stands.ahead.rest_eq, none]
      exact .leaf_missed faithful stands moves (stops.labelled _) none
    next =>
      have moves : run1Move Char.isDigit "digit" machine.source machine.cursor =
          { outcome := .ok (String.ofList (text.takeWhile Char.isDigit))
            cursor := stop
            label := some (stop.index, "digit") } := by
        simp [run1Move, stops.moves, stands.ahead.rest_eq, none]
      exact .leaf_found faithful stands moves stops.ahead stops.later (stops.labelled _)
        ⟨rfl, none, rfl⟩
  apply run.bind
  next =>
    rintro value rest near after kept stands' ⟨rfl, some, rfl⟩
    simp only [String.toList_ofList, numberAt, some, ne_eq, not_false_eq_true, true_and]
    split_ifs with range
    next => exact .found (.refl kept.faithful) stands' rfl
    next => exact .missed (.refl kept.faithful) rfl rfl
  next =>
    intro _ none
    simp [numberAt, none]

theorem number_yields (faithful : Faithful machine) (stands : Stands machine text) :
    Yields machine
      (fun value rest beyond => numberAt text = some (value, rest) ∧ Text.size text ≤ beyond)
      (fun beyond => numberAt text = none ∧ beyond = Text.size text) (number machine) := by
  have total := stands.ahead.index_add
  have framed : Stands (machine.pushFrame machine.cursor.index) text :=
    ⟨stands.ahead, fun _ => le_refl _⟩
  have pushed : Faithful (machine.pushFrame machine.cursor.index) :=
    faithful.of_calls rfl rfl rfl rfl
  have inner := digits_yields pushed framed
  simp only [number, atomic, attempt]
  generalize digits (machine.pushFrame machine.cursor.index) = ending at inner
  cases inner with
  | @found value after rest beyond kept stands' fits =>
    have dropped := kept.dropFrame
    obtain ⟨digits, rfl, -⟩ := numberAt_eq_some_iff.mp fits
    have later : machine.cursor.index ≤ after.cursor.index := by
      have reached := stands'.ahead
      rw [kept.source] at reached
      exact stands.ahead.index_le reached
    exact .found dropped (dropped.stands stands stands'.ahead later) ⟨fits, by omega⟩
  | @missed failure after beyond kept recoverable absent =>
    simp only [recoverable, if_true]
    have dropped := (kept.moveTo machine.cursor).dropFrame
    have within : (after.moveTo machine.cursor).dropFrame.farthest.innermost.Within
        machine.cursor.index := dropped.marked.within stands.within
    have fits : machine.cursor.index ≤ (after.moveTo machine.cursor).dropFrame.source.size := by
      rw [dropped.source]
      omega
    refine .missed (dropped.register within fits "number") recoverable ⟨absent, ?_⟩
    rw [dropped.source]
    omega

theorem joins_iff {rank : Rank} {sign : Char} {op : Operator} :
    Joins rank sign op ↔ op ∈ rank.operators ∧ sign = op.symbol := by
  constructor
  next => rintro ⟨⟩ <;> decide
  next =>
    rintro ⟨member, rfl⟩
    cases rank <;> simp only [Rank.operators, List.mem_cons, List.not_mem_nil, or_false] at member
    next => rcases member with rfl | rfl <;> constructor
    next => rcases member with rfl | rfl | rfl <;> constructor

theorem operator_yields (rank : Rank) (faithful : Faithful machine) (stands : Stands machine text) :
    Yields machine
      (fun op rest beyond => (∃ sign, Joins rank sign op ∧ text = sign :: rest) ∧
        Text.size text ≤ beyond)
      (fun beyond => (∀ {sign op rest}, text = sign :: rest → ¬ Joins rank sign op) ∧
        Text.size text ≤ beyond)
      (operator rank machine) := by
  -- The operators are tried one after the other, all from the same place.
  have tried : ∀ ops : List Operator, ∀ {machine}, Faithful machine → Stands machine text →
      Yields machine
        (fun op rest beyond => (op ∈ ops ∧ text = op.symbol :: rest) ∧ Text.size text ≤ beyond)
        (fun beyond => (∀ op ∈ ops, ∀ rest, text ≠ op.symbol :: rest) ∧ Text.size text ≤ beyond)
        (Parser.choice (ops.map fun op =>
          (fun _ => op) <$> literal (String.singleton op.symbol)) machine) := by
    intro ops
    induction ops with
    | nil =>
      intro machine faithful stands
      have fits := stands.size_le
      exact .missed (.refl faithful) rfl ⟨by simp, by omega⟩
    | cons op others ih =>
      intro machine faithful stands
      have first := literal_yields faithful stands (String.singleton op.symbol)
      simp only [String.toList_singleton, List.singleton_append] at first
      have named : Yields machine
          (fun value rest beyond =>
            (value = op ∧ text = op.symbol :: rest) ∧ Text.size text ≤ beyond)
          (fun beyond => (∀ rest, text ≠ op.symbol :: rest) ∧ beyond = Text.size text)
          (((fun _ => op) <$> literal (String.singleton op.symbol)) machine) := by
        rw [map_eq]
        exact first.map (fun found => ⟨⟨rfl, found.1⟩, found.2⟩) id
      apply named.choice
      next =>
        rintro value rest beyond ⟨⟨rfl, found⟩, quiet⟩
        exact ⟨⟨List.mem_cons_self, found⟩, quiet⟩
      next =>
        rintro after near kept cursor ⟨absent, rfl⟩
        refine (ih kept.faithful (kept.back stands cursor)).imp ?_ ?_
        next =>
          rintro value rest far ⟨⟨member, found⟩, quiet⟩
          exact ⟨⟨List.mem_cons_of_mem _ member, found⟩, le_min (le_refl _) quiet⟩
        next =>
          rintro far ⟨absent', quiet⟩
          refine ⟨?_, le_min (le_refl _) quiet⟩
          intro other member
          rcases List.mem_cons.mp member with rfl | member
          next => exact absent
          next => exact absent' other member
  refine (tried rank.operators faithful stands).imp ?_ ?_
  next =>
    rintro op rest beyond ⟨⟨member, found⟩, quiet⟩
    exact ⟨⟨op.symbol, joins_iff.mpr ⟨member, rfl⟩, found⟩, quiet⟩
  next =>
    rintro beyond ⟨absent, quiet⟩
    refine ⟨?_, quiet⟩
    intro sign op rest found joins
    obtain ⟨member, rfl⟩ := joins_iff.mp joins
    exact absent op member rest found

end Matchers

end Calculator

end Packrat
