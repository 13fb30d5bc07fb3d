import Packrat.Parser.Combine
import Packrat.Parser.Invoke
import Packrat.Parser.Match

set_option autoImplicit false

namespace Packrat

abbrev Ending (ν α : Type) := EStateM.Result Failure (Machine ν) α

namespace Ending

variable {ν α : Type}

def outcome : Ending ν α → Except Failure α
  | .ok value _ => .ok value
  | .error failure _ => .error failure

def machine : Ending ν α → Machine ν
  | .ok _ machine => machine
  | .error _ machine => machine

def Exhausted (ending : Ending ν α) : Prop :=
  ending.outcome = .error .exhausted

@[simp] theorem outcome_ok (value : α) (machine : Machine ν) :
    outcome (.ok value machine) = .ok value := rfl

@[simp] theorem outcome_error (failure : Failure) (machine : Machine ν) :
    outcome (α := α) (.error failure machine) = .error failure := rfl

@[simp] theorem machine_ok (value : α) (machine : Machine ν) :
    Ending.machine (.ok value machine) = machine := rfl

@[simp] theorem machine_error (failure : Failure) (machine : Machine ν) :
    Ending.machine (α := α) (.error failure machine) = machine := rfl

@[simp] theorem not_exhausted_ok (value : α) (machine : Machine ν) :
    ¬ Exhausted (.ok value machine) := by
  simp [Exhausted]

@[simp] theorem exhausted_error (failure : Failure) (machine : Machine ν) :
    Exhausted (α := α) (.error failure machine) ↔ failure = .exhausted := by
  simp [Exhausted]

instance : (ending : Ending ν α) → Decidable ending.Exhausted
  | .ok value machine => .isFalse (not_exhausted_ok value machine)
  | .error failure machine => decidable_of_iff _ (exhausted_error failure machine).symm

theorem exhausted_iff {ending : Ending ν α} :
    ending.Exhausted ↔ ∃ machine, ending = .error .exhausted machine := by
  cases ending <;> simp

end Ending

abbrev Mismatch := { failure : Failure // failure.recoverable = true }

theorem Mismatch.ne_exhausted (mismatch : Mismatch) : mismatch.val ≠ .exhausted := by
  obtain ⟨failure, recoverable⟩ := mismatch
  rintro rfl
  cases recoverable

structure Move (α : Type) where
  outcome : Except Mismatch α
  cursor : Cursor
  label : Option (Nat × String) := none

def Machine.expect {ν : Type} (machine : Machine ν) : Option (Nat × String) → Machine ν
  | none => machine
  | some (index, label) => machine.register index label

namespace Parser

variable {ν α β : Type}

def leaf (act : Source → Cursor → Move α) : Parser ν α := fun machine =>
  let move := act machine.source machine.cursor
  let after := (machine.moveTo move.cursor).expect move.label
  match move.outcome with
  | .ok value => .ok value after
  | .error mismatch => .error mismatch.val after

def branch (parser : Parser ν α) (found : α → Parser ν β) (missed : Mismatch → Parser ν β) :
    Parser ν β := fun machine =>
  match parser machine with
  | .ok value after => found value after
  | .error failure after =>
    if recoverable : failure.recoverable = true then
      missed ⟨failure, recoverable⟩ (after.moveTo machine.cursor)
    else .error failure after

def isolated (parser : Parser ν α) : Parser ν (Except (Mismatch × Nat) α) := fun machine =>
  match parser (machine.pushFrame machine.cursor.index) with
  | .ok value after => .ok (.ok value) after.dropFrame
  | .error failure after =>
    if recoverable : failure.recoverable = true then
      .ok (.error (⟨failure, recoverable⟩, after.farthest.innermost.position))
        (after.dropFrame.moveTo machine.cursor)
    else .error failure after.dropFrame

@[simp] theorem machine_leaf (act : Source → Cursor → Move α) (machine : Machine ν) :
    Ending.machine (leaf act machine) =
      (machine.moveTo (act machine.source machine.cursor).cursor).expect
        (act machine.source machine.cursor).label := by
  unfold leaf
  cases found : (act machine.source machine.cursor).outcome <;> simp [found]

@[simp] theorem outcome_leaf (act : Source → Cursor → Move α) (machine : Machine ν) :
    Ending.outcome (leaf act machine) =
      (act machine.source machine.cursor).outcome.mapError Subtype.val := by
  unfold leaf
  cases found : (act machine.source machine.cursor).outcome <;> simp only [found] <;> rfl

def look (read : Source → Cursor → α) : Parser ν α :=
  leaf fun source cursor => { outcome := .ok (read source cursor), cursor }

def miss (mismatch : Mismatch) (label : Option (Nat × String) := none) : Parser ν α :=
  leaf fun _ cursor => { outcome := .error mismatch, cursor, label }

def noMatch : Mismatch :=
  ⟨.noMatch, rfl⟩

-- What each matcher does at a cursor.

def skip (bytes : Nat) (source : Source) (cursor : Cursor) : Cursor :=
  { cursor with index := min (cursor.index + bytes) source.size }

def literalMove (text : String) (source : Source) (cursor : Cursor) : Move String :=
  if text.toList.isPrefixOf (source.rest cursor.index) then
    { outcome := .ok text, cursor := skip (Text.size text.toList) source cursor }
  else { outcome := .error noMatch, cursor, label := some (cursor.index, text) }

def charMove (test : Char → Bool) (label : String) (source : Source) (cursor : Cursor) :
    Move Char :=
  match source.rest cursor.index with
  | c :: _ =>
    if test c then { outcome := .ok c, cursor := skip c.utf8Size source cursor }
    else { outcome := .error noMatch, cursor, label := some (cursor.index, label) }
  | [] => { outcome := .error noMatch, cursor, label := some (cursor.index, label) }

def peekMove (source : Source) (cursor : Cursor) : Move Char :=
  match source.rest cursor.index with
  | c :: _ => { outcome := .ok c, cursor }
  | [] => { outcome := .error noMatch, cursor }

def consumeMove (source : Source) (cursor : Cursor) : Move Char :=
  match source.rest cursor.index with
  | c :: _ =>
    { outcome := .ok c, cursor := { cursor with index := cursor.index + c.utf8Size } }
  | [] => { outcome := .error noMatch, cursor }

def endMove (source : Source) (cursor : Cursor) : Move Unit :=
  if cursor.index < source.size then
    { outcome := .error noMatch, cursor, label := some (cursor.index, "End Of Input") }
  else { outcome := .ok (), cursor }

def runMove (test : Char → Bool) (label : String) (source : Source) (cursor : Cursor) :
    Move String :=
  let taken := (source.rest cursor.index).takeWhile test
  let after := skip (Text.size taken) source cursor
  { outcome := .ok (String.ofList taken), cursor := after, label := some (after.index, label) }

def run1Move (test : Char → Bool) (label : String) (source : Source) (cursor : Cursor) :
    Move String :=
  let move := runMove test label source cursor
  { move with
    outcome :=
      if (source.rest cursor.index).takeWhile test = [] then .error noMatch else move.outcome }

theorem literal_eq (text : String) : literal (ν := ν) text = leaf (literalMove text) := by
  funext machine
  by_cases found : text.toList.isPrefixOf (machine.source.rest machine.cursor.index) = true <;>
    simp [literal, leaf, literalMove, Machine.rest, found] <;> rfl

theorem charWhere_eq (test : Char → Bool) (label : String) :
    charWhere (ν := ν) test label = leaf (charMove test label) := by
  funext machine
  cases rest : machine.source.rest machine.cursor.index with
  | nil =>
    simp only [charWhere, leaf, charMove, Machine.rest, rest]
    rfl
  | cons c others =>
    by_cases passes : test c = true <;>
      simp only [charWhere, leaf, charMove, Machine.rest, rest, passes, if_true] <;> rfl

theorem peek_eq : peek (ν := ν) = leaf peekMove := by
  funext machine
  cases rest : machine.source.rest machine.cursor.index <;>
    simp only [peek, leaf, peekMove, Machine.rest, rest] <;> rfl

theorem consume_eq : consume (ν := ν) = leaf consumeMove := by
  funext machine
  cases rest : machine.source.rest machine.cursor.index <;>
    simp only [consume, leaf, consumeMove, Machine.rest, rest] <;> rfl

theorem endOfInput_eq : endOfInput (ν := ν) = leaf endMove := by
  funext machine
  by_cases more : machine.cursor.index < machine.source.size <;>
    simp [endOfInput, leaf, endMove, Machine.hasNext, more] <;> rfl

theorem run_eq (test : Char → Bool) (label : String) :
    run (ν := ν) test label = leaf (runMove test label) := rfl

theorem run1_eq (test : Char → Bool) (label : String) :
    run1 (ν := ν) test label = leaf (run1Move test label) := by
  funext machine
  by_cases empty : (machine.source.rest machine.cursor.index).takeWhile test = [] <;>
    simp only [run1, run, leaf, run1Move, runMove, Machine.rest, String.ofList_eq_empty_iff, empty,
      if_true, if_false] <;> rfl

theorem register_eq (read : Source → Cursor → Nat) (label : String) (value : α) :
    (fun machine => .ok value (machine.register (read machine.source machine.cursor) label) :
      Parser ν α) =
      leaf fun source cursor =>
        { outcome := .ok value, cursor, label := some (read source cursor, label) } := rfl

theorem bind_apply (parser : Parser ν α) (next : α → Parser ν β) (machine : Machine ν) :
    (parser >>= next) machine =
      match parser machine with
      | .ok value after => next value after
      | .error failure after => .error failure after := by
  cases found : parser machine <;> simp [bind, EStateM.bind, found]

@[simp] theorem bind_look (read : Source → Cursor → α) (next : α → Parser ν β)
    (machine : Machine ν) :
    (look read >>= next) machine = next (read machine.source machine.cursor) machine := rfl

theorem map_eq (f : α → β) (parser : Parser ν α) :
    f <$> parser = parser >>= fun value => pure (f value) :=
  map_eq_pure_bind f parser

-- How each combinator is put together.

theorem attempt_eq (parser : Parser ν α) :
    attempt parser = branch parser pure fun mismatch => miss mismatch := by
  funext machine
  simp only [attempt, branch]
  cases parser machine with
  | ok value after => rfl
  | error failure after => cases failure <;> rfl

theorem branch_attempt (parser : Parser ν α) (found : α → Parser ν β)
    (missed : Failure → Parser ν β) (machine : Machine ν) :
    (match attempt parser machine with
      | .ok value after => found value after
      | .error failure after =>
        if failure.recoverable then missed failure after else .error failure after) =
      branch parser found (fun mismatch => missed mismatch.val) machine := by
  simp only [attempt, branch]
  cases parser machine with
  | ok value after => rfl
  | error failure after => cases failure <;> rfl

theorem choice_cons (first : Parser ν α) (others : List (Parser ν α)) :
    choice (first :: others) = branch first pure fun _ => choice others := by
  funext machine
  refine Eq.trans ?_ (branch_attempt first pure (fun _ => choice others) machine)
  simp only [choice]
  cases attempt first machine <;> rfl

theorem optional_eq (parser : Parser ν α) :
    optional parser = branch parser (fun value => pure (some value)) fun _ => pure none := by
  funext machine
  refine Eq.trans ?_ (branch_attempt parser (fun value => pure (some value)) (fun _ => pure none) machine)
  simp only [optional]
  cases attempt parser machine <;> rfl

theorem many_succ (parser : Parser ν α) (budget : Nat) :
    many parser (budget + 1) =
      look (fun _ cursor => cursor.index) >>= fun start =>
        branch parser
          (fun value =>
            look (fun _ cursor => cursor.index) >>= fun stop =>
              if stop = start then pure [value]
              else many parser budget >>= fun values => pure (value :: values))
          fun _ => pure [] := by
  funext machine
  simp only [many]
  refine Eq.trans ?_ (branch_attempt parser
    (fun value =>
      look (fun _ cursor => cursor.index) >>= fun stop =>
        if stop = machine.cursor.index then pure [value]
        else many parser budget >>= fun values => pure (value :: values))
    (fun _ => pure []) machine)
  cases attempt parser machine with
  | error failure after => rfl
  | ok value after =>
    simp only [bind_look]
    by_cases still : after.cursor.index = machine.cursor.index
    next => simp only [still, if_true]; rfl
    next =>
      simp only [still, if_false, bind_apply]
      cases many parser budget after <;> rfl

theorem atomic_eq (label : String) (parser : Parser ν α) :
    atomic label parser =
      look (fun _ cursor => cursor.index) >>= fun start =>
        isolated parser >>= fun
          | .ok value => pure value
          | .error (mismatch, _) => miss mismatch (some (start, label)) := by
  funext machine
  rw [bind_look]
  simp only [bind_apply, atomic, attempt, isolated]
  cases parser (machine.pushFrame machine.cursor.index) with
  | ok value after => rfl
  | error failure after => cases failure <;> rfl

theorem expect_eq (label : String) (parser : Parser ν α) :
    expect label parser =
      isolated parser >>= fun
        | .ok value => pure value
        | .error (mismatch, reached) => miss mismatch (some (reached, label)) := by
  funext machine
  simp only [bind_apply, expect, attempt, isolated]
  cases parser (machine.pushFrame machine.cursor.index) with
  | ok value after => rfl
  | error failure after => cases failure <;> rfl

theorem precedence_eq (level : Int32) (parser : Parser ν α) :
    precedence level parser =
      look (fun _ cursor => cursor) >>= fun cursor =>
        if level < cursor.level then
          miss noMatch (some (cursor.index,
            "term of precedence above or equal " ++ toString cursor.level.toInt))
        else atLevel level parser := by
  funext machine
  rw [bind_look]
  by_cases below : level < machine.cursor.level <;> simp only [precedence, below, if_true, if_false]
  rfl

end Parser

end Packrat
