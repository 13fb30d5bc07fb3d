import Packrat.Proofs.Peg
import Packrat.Proofs.Visits

set_option autoImplicit false

namespace Packrat

def Move.result {α : Type} (move : Move α) : Grammar.Result α :=
  match move.outcome with
  | .ok value => .matched value move.cursor.index
  | .error _ => .failed

namespace Grammar

open Ending (Exhausted)
open Packrat.Parser

/-- What an ending shows: a match with where it stops, or a mismatch. -/
def shown? {α : Type} : Ending Stored α → Option (Result α)
  | .ok value after => some (.matched value after.cursor.index)
  | .error failure _ => if failure.recoverable then some .failed else none

abbrev Meaning (α : Type) := Source → Cursor → Result α → Prop

structure Meant {α : Type} (meaning : Meaning α) (machine : Machine Stored)
    (ending : Ending Stored α) : Prop where
  active : (Ending.machine ending).active = machine.active
  result : ∃ result, shown? ending = some result ∧ meaning machine.source machine.cursor result

/-- Unless its run is broken, a parser shows what is meant and leaves the activations alone. -/
structure Refines {α : Type} (Holds : Source → MemoTable Stored → Prop) (parser : Parser Stored α)
    (meaning : Meaning α) : Prop where
  preserves : Preserves Holds parser
  meant : ∀ machine : Machine Stored, machine.Fit Holds → machine.Unbroken (parser machine) →
    Meant meaning machine (parser machine)

namespace Refines

variable {Holds : Source → MemoTable Stored → Prop} {α β : Type} {parser : Parser Stored α}
  {meaning : Meaning α} {whole : Meaning β} {machine after : Machine Stored}

theorem ok (refines : Refines Holds parser meaning) (fit : machine.Fit Holds)
    (unbroken : machine.Unbroken (parser machine)) {value : α}
    (ran : parser machine = .ok value after) :
    after.active = machine.active ∧ after.source = machine.source ∧
      after.cursor = { machine.cursor with index := after.cursor.index } ∧
      meaning machine.source machine.cursor (.matched value after.cursor.index) := by
  have meant := refines.meant machine fit unbroken
  have advanced := refines.preserves.advances machine fit.sound
  rw [ran] at meant advanced
  obtain ⟨result, shows, holds⟩ := meant.result
  cases shows
  have level : after.cursor.level = machine.cursor.level := advanced.reaches.level
  exact ⟨meant.active, advanced.source, by simp only [← level], holds⟩

theorem error (refines : Refines Holds parser meaning) (fit : machine.Fit Holds)
    (unbroken : machine.Unbroken (parser machine)) {failure : Failure}
    (ran : parser machine = .error failure after) :
    after.active = machine.active ∧ after.source = machine.source ∧ failure.recoverable = true ∧
      meaning machine.source machine.cursor .failed := by
  have meant := refines.meant machine fit unbroken
  have source := (refines.preserves.orderly machine).source
  rw [ran] at meant source
  obtain ⟨result, shows, holds⟩ := meant.result
  by_cases recoverable : failure.recoverable = true
  next =>
    simp only [shown?, recoverable, if_true, Option.some.injEq] at shows
    subst shows
    exact ⟨meant.active, source, recoverable, holds⟩
  next => simp [shown?, recoverable] at shows

theorem imp {other : Meaning α} (refines : Refines Holds parser meaning)
    (meant : ∀ source cursor result, meaning source cursor result → other source cursor result) :
    Refines Holds parser other where
  preserves := refines.preserves
  meant machine fit unbroken := by
    have same := refines.meant machine fit unbroken
    exact ⟨same.active, same.result.imp fun result shows => ⟨shows.1, meant _ _ _ shows.2⟩⟩

theorem stop : Refines Holds (fail .exhausted : Parser Stored α) meaning where
  preserves := .stop
  meant _ _ unbroken := absurd rfl unbroken.whole

theorem leaf {act : Source → Cursor → Move α} (forward : Forward act)
    (meant : ∀ source cursor, cursor.index ≤ source.size →
      meaning source cursor (act source cursor).result) :
    Refines Holds (leaf act) meaning where
  preserves := preserves_blocks.leaf forward
  meant machine fit _ := by
    have active (label : Option (Nat × String)) (machine : Machine Stored) :
        (machine.expect label).active = machine.active := by
      cases label <;> rfl
    have cursor (label : Option (Nat × String)) (machine : Machine Stored) :
        (machine.expect label).cursor = machine.cursor := by
      cases label <;> rfl
    refine ⟨by rw [machine_leaf, active]; rfl, _, ?_, meant _ _ fit.within⟩
    unfold Parser.leaf Move.result
    cases ended : (act machine.source machine.cursor).outcome with
    | ok value =>
      simp only [ended, shown?, cursor]
      rfl
    | error mismatch => simp only [ended, shown?, mismatch.property, if_true]

theorem bind {next : α → Parser Stored β} {continued : α → Meaning β}
    (first : Refines Holds parser meaning)
    (later : ∀ value, Refines Holds (next value) (continued value))
    (matched : ∀ source cursor value stop result, meaning source cursor (.matched value stop) →
      continued value source { cursor with index := stop } result → whole source cursor result)
    (failed : ∀ source cursor, meaning source cursor .failed → whole source cursor .failed) :
    Refines Holds (parser >>= next) whole where
  preserves := preserves_blocks.bind first.preserves fun value => (later value).preserves
  meant machine fit unbroken := by
    have orderly (value : α) := (later value).preserves.orderly
    have begins : Sees Holds parser machine (parser >>= next) machine := .bind_first orderly machine
    have own := begins.unbroken first.preserves.orderly.appends unbroken
    cases ran : parser machine with
    | ok value after =>
      obtain ⟨active, source, cursor, holds⟩ := first.ok fit own ran
      have sees : Sees Holds (next value) after (parser >>= next) machine :=
        .next first.preserves (orderly value) ran (by rw [bind_apply, ran])
      have last := (later value).meant after (sees.fit fit unbroken)
        (sees.unbroken (orderly value).appends unbroken)
      obtain ⟨result, shows, continues⟩ := last.result
      rw [source, cursor] at continues
      rw [bind_apply, ran]
      exact ⟨last.active.trans active, result, shows, matched _ _ _ _ _ holds continues⟩
    | error failure after =>
      obtain ⟨active, _, recoverable, holds⟩ := first.error fit own ran
      rw [bind_apply, ran]
      exact ⟨active, .failed, by simp [shown?, recoverable], failed _ _ holds⟩

theorem branch {found : α → Parser Stored β} {missed : Mismatch → Parser Stored β}
    {matching : α → Meaning β} {missing : Meaning β} (first : Refines Holds parser meaning)
    (yes : ∀ value, Refines Holds (found value) (matching value))
    (no : ∀ mismatch, Refines Holds (missed mismatch) missing)
    (matched : ∀ source cursor value stop result, meaning source cursor (.matched value stop) →
      matching value source { cursor with index := stop } result → whole source cursor result)
    (failed : ∀ source cursor result, meaning source cursor .failed →
      missing source cursor result → whole source cursor result) :
    Refines Holds (branch parser found missed) whole where
  preserves := preserves_blocks.branch first.preserves (fun value => (yes value).preserves)
    fun mismatch => (no mismatch).preserves
  meant machine fit unbroken := by
    have orderly (value : α) := (yes value).preserves.orderly
    have again (mismatch : Mismatch) := (no mismatch).preserves.orderly
    have begins : Sees Holds parser machine (Parser.branch parser found missed) machine :=
      .branch_first orderly again machine
    have own := begins.unbroken first.preserves.orderly.appends unbroken
    cases ran : parser machine with
    | ok value after =>
      obtain ⟨active, source, cursor, holds⟩ := first.ok fit own ran
      have same : Parser.branch parser found missed machine = found value after := by
        rw [Parser.branch, ran]
      have sees : Sees Holds (found value) after (Parser.branch parser found missed) machine :=
        .next first.preserves (orderly value) ran same
      have last := (yes value).meant after (sees.fit fit unbroken)
        (sees.unbroken (orderly value).appends unbroken)
      obtain ⟨result, shows, continues⟩ := last.result
      rw [source, cursor] at continues
      rw [same]
      exact ⟨last.active.trans active, result, shows, matched _ _ _ _ _ holds continues⟩
    | error failure after =>
      obtain ⟨active, source, recoverable, holds⟩ := first.error fit own ran
      have same : Parser.branch parser found missed machine =
          missed ⟨failure, recoverable⟩ (after.moveTo machine.cursor) := by
        simp [Parser.branch, ran, recoverable]
      have sees : Sees Holds (missed ⟨failure, recoverable⟩) (after.moveTo machine.cursor)
          (Parser.branch parser found missed) machine :=
        .back first.preserves (again _) ran recoverable same
      have last := (no ⟨failure, recoverable⟩).meant _ (sees.fit fit unbroken)
        (sees.unbroken (again _).appends unbroken)
      obtain ⟨result, shows, continues⟩ := last.result
      have origin : (after.moveTo machine.cursor).source = machine.source := source
      rw [origin] at continues
      rw [same]
      exact ⟨last.active.trans active, result, shows, failed _ _ _ holds continues⟩

theorem ahead (refines : Refines Holds parser meaning) {whole : Meaning α}
    (matched : ∀ source cursor value stop, meaning source cursor (.matched value stop) →
      whole source cursor (.matched value cursor.index))
    (failed : ∀ source cursor, meaning source cursor .failed → whole source cursor .failed) :
    Refines Holds (ahead parser) whole where
  preserves := preserves_blocks.ahead refines.preserves
  meant machine fit unbroken := by
    have sees : Sees Holds parser machine (Parser.ahead parser) machine :=
      .start rfl rfl rfl id (leads_ahead machine)
    have own := sees.unbroken refines.preserves.orderly.appends unbroken
    unfold Parser.ahead
    cases ran : parser machine with
    | ok value after =>
      obtain ⟨active, _, _, holds⟩ := refines.ok fit own ran
      exact ⟨active, _, rfl, matched _ _ _ _ holds⟩
    | error failure after =>
      obtain ⟨active, _, recoverable, holds⟩ := refines.error fit own ran
      simp only [recoverable, if_true]
      exact ⟨active, .failed, by simp [shown?, recoverable], failed _ _ holds⟩

theorem notHere (refines : Refines Holds parser meaning) (label : String) {whole : Meaning Unit}
    (matched : ∀ source cursor value stop, meaning source cursor (.matched value stop) →
      whole source cursor .failed)
    (failed : ∀ source cursor, meaning source cursor .failed →
      whole source cursor (.matched () cursor.index)) :
    Refines Holds (notHere label parser) whole where
  preserves := preserves_blocks.notHere label refines.preserves
  meant machine fit unbroken := by
    have sees : Sees Holds parser (machine.pushFrame machine.cursor.index)
        (Parser.notHere label parser) machine :=
      .pushFrame machine _ (leads_notHere parser label machine)
    have own := sees.unbroken refines.preserves.orderly.appends unbroken
    have inner := sees.fit fit unbroken
    simp only [Parser.notHere]
    cases ran : parser (machine.pushFrame machine.cursor.index) with
    | ok value after =>
      obtain ⟨active, _, _, holds⟩ := refines.ok inner own ran
      exact ⟨active, .failed, rfl, matched _ _ _ _ holds⟩
    | error failure after =>
      obtain ⟨active, _, recoverable, holds⟩ := refines.error inner own ran
      simp only [recoverable, if_true]
      exact ⟨active, _, rfl, failed _ _ holds⟩

theorem isolated (refines : Refines Holds parser meaning)
    {whole : Meaning (Except (Mismatch × Nat) α)}
    (matched : ∀ source cursor value stop, meaning source cursor (.matched value stop) →
      whole source cursor (.matched (.ok value) stop))
    (failed : ∀ source cursor missed, meaning source cursor .failed →
      whole source cursor (.matched (.error missed) cursor.index)) :
    Refines Holds (isolated parser) whole where
  preserves := preserves_blocks.isolated refines.preserves
  meant machine fit unbroken := by
    have sees : Sees Holds parser (machine.pushFrame machine.cursor.index) (Parser.isolated parser)
        machine :=
      .pushFrame machine _ (leads_isolated parser machine)
    have own := sees.unbroken refines.preserves.orderly.appends unbroken
    have inner := sees.fit fit unbroken
    unfold Parser.isolated
    cases ran : parser (machine.pushFrame machine.cursor.index) with
    | ok value after =>
      obtain ⟨active, _, _, holds⟩ := refines.ok inner own ran
      exact ⟨active, _, rfl, matched _ _ _ _ holds⟩
    | error failure after =>
      obtain ⟨active, _, recoverable, holds⟩ := refines.error inner own ran
      simp only [recoverable, dite_true]
      exact ⟨active, _, rfl, failed _ _ _ holds⟩

theorem atLevel (level : Int32) (refines : Refines Holds parser meaning) :
    Refines Holds (atLevel level parser)
      fun source cursor result => meaning source { cursor with level } result where
  preserves := preserves_blocks.atLevel level refines.preserves
  meant machine fit unbroken := by
    have sees : Sees Holds parser (machine.setLevel level) (Parser.atLevel level parser) machine :=
      .atLevel parser level machine
    have meant := refines.meant _ (sees.fit fit unbroken)
      (sees.unbroken refines.preserves.orderly.appends unbroken)
    unfold Parser.atLevel
    cases ran : parser (machine.setLevel level) with
    | ok value after | error failure after =>
      rw [ran] at meant
      exact ⟨meant.active, meant.result⟩

-- What is put together from these.

theorem look (read : Source → Cursor → α) :
    Refines Holds (look read) fun source cursor result =>
      result = .matched (read source cursor) cursor.index :=
  leaf (fun source cursor => .refl source cursor) fun _ _ _ => rfl

theorem looking (read : Source → Cursor → α) {next : α → Parser Stored β}
    (later : ∀ start, Refines Holds (next start) fun source cursor result =>
      read source cursor = start → whole source cursor result) :
    Refines Holds (Parser.look read >>= next) whole := by
  refine bind (look read) later ?_ ?_
  next => rintro source cursor _ _ result same holds; cases same; exact holds rfl
  next => rintro source cursor same; cases same

theorem pure (value : α) :
    Refines Holds (pure value) fun _ cursor result => result = .matched value cursor.index :=
  look fun _ _ => value

theorem miss (mismatch : Mismatch) (label : Option (Nat × String)) :
    Refines Holds (miss mismatch label : Parser Stored α) fun _ _ result => result = .failed :=
  leaf (fun source cursor => .refl source cursor) fun _ _ _ => rfl

theorem register (read : Source → Cursor → Nat) (label : String) (value : α) :
    Refines Holds
      (fun machine => .ok value (machine.register (read machine.source machine.cursor) label))
      fun _ cursor result => result = .matched value cursor.index := by
  rw [register_eq]
  exact leaf (fun source cursor => .refl source cursor) fun _ _ _ => rfl

theorem map (f : α → β) (refines : Refines Holds parser meaning)
    (meant : ∀ source cursor result, meaning source cursor result →
      whole source cursor (result.map f)) : Refines Holds (f <$> parser) whole := by
  rw [map_eq]
  refine refines.bind (fun value => pure (f value)) ?_ fun _ _ holds => meant _ _ _ holds
  rintro source cursor value stop _ holds rfl
  exact meant _ _ _ holds

theorem matcher (f : α → β) {act : Source → Cursor → Move α} (forward : Forward act)
    (meant : ∀ source cursor, cursor.index ≤ source.size →
      whole source cursor ((act source cursor).result.map f)) :
    Refines Holds (f <$> Parser.leaf act) whole :=
  map f (leaf forward meant) fun _ _ _ => id

theorem attempt (refines : Refines Holds parser meaning) : Refines Holds (attempt parser) meaning := by
  rw [attempt_eq]
  refine refines.branch pure (fun mismatch => miss mismatch none) ?_ ?_
  next => rintro source cursor value stop _ holds rfl; exact holds
  next => rintro source cursor _ holds rfl; exact holds

theorem optional (refines : Refines Holds parser meaning) {whole : Meaning (Option α)}
    (matched : ∀ source cursor value stop, meaning source cursor (.matched value stop) →
      whole source cursor (.matched (some value) stop))
    (failed : ∀ source cursor, meaning source cursor .failed →
      whole source cursor (.matched none cursor.index)) :
    Refines Holds (optional parser) whole := by
  rw [optional_eq]
  refine refines.branch (fun value => pure (some value)) (fun _ => pure none) ?_ ?_
  next => rintro source cursor value stop _ holds rfl; exact matched _ _ _ _ holds
  next => rintro source cursor _ holds rfl; exact failed _ _ holds

theorem confined (refines : Refines Holds parser meaning)
    {next : Except (Mismatch × Nat) α → Parser Stored α}
    (kept : ∀ value, next (.ok value) = Pure.pure value)
    (told : ∀ missed, ∃ label, next (.error missed) = Parser.miss missed.1 label) :
    Refines Holds (Parser.isolated parser >>= next) meaning := by
  have framed : Refines Holds (Parser.isolated parser) fun source cursor result =>
      (∃ value stop, meaning source cursor (.matched value stop) ∧
        result = .matched (.ok value) stop) ∨
      meaning source cursor .failed ∧ ∃ missed, result = .matched (.error missed) cursor.index :=
    isolated refines (fun _ _ value stop holds => .inl ⟨value, stop, holds, rfl⟩)
      fun _ _ missed holds => .inr ⟨holds, missed, rfl⟩
  have ends (found : Except (Mismatch × Nat) α) : Refines Holds (next found) fun _ cursor result =>
      result = match found with
        | .ok value => .matched value cursor.index
        | .error _ => .failed := by
    cases found with
    | ok value => rw [kept]; exact pure value
    | error missed =>
      obtain ⟨label, same⟩ := told missed
      rw [same]
      exact miss missed.1 label
  refine bind framed ends ?_ ?_
  next =>
    rintro source cursor found stop result (⟨value, stop, holds, same⟩ | ⟨holds, missed, same⟩) rfl
    next => cases same; exact holds
    next => cases same; exact holds
  next =>
    rintro source cursor (⟨_, _, _, same⟩ | ⟨_, _, same⟩)
    next => cases same
    next => cases same

theorem atomic (label : String) (refines : Refines Holds parser meaning) :
    Refines Holds (atomic label parser) meaning := by
  rw [atomic_eq]
  refine looking _ fun start => ?_
  exact (refines.confined (fun _ => rfl) fun _ => ⟨_, rfl⟩).imp fun _ _ _ holds _ => holds

theorem expect (label : String) (refines : Refines Holds parser meaning) :
    Refines Holds (expect label parser) meaning := by
  rw [expect_eq]
  exact refines.confined (fun _ => rfl) fun _ => ⟨_, rfl⟩

theorem precedence (level : Int32) (refines : Refines Holds parser meaning) {whole : Meaning α}
    (allowed : ∀ source (cursor : Cursor) result, ¬ level < cursor.level →
      meaning source { cursor with level } result → whole source cursor result)
    (below : ∀ source (cursor : Cursor), level < cursor.level → whole source cursor .failed) :
    Refines Holds (precedence level parser) whole := by
  rw [precedence_eq]
  refine looking _ fun start => ?_
  split
  next under =>
    refine (miss noMatch _).imp ?_
    rintro source cursor result rfl rfl
    exact below _ _ under
  next above =>
    refine (atLevel level refines).imp ?_
    rintro source cursor result holds rfl
    exact allowed _ _ _ above holds

end Refines

abbrev Term.means (grammar : Grammar) (args : List Arg) (term : Term) : Meaning Value :=
  fun source cursor result => Peg grammar source args cursor.level term cursor.index result

def picked (pick : Value → Value) (meaning : Meaning Value) : Meaning Value :=
  fun source cursor result => ∃ found, meaning source cursor found ∧ result = found.map pick

def pickedAll (pick : Value → Value) (meaning : Meaning Value) : Meaning (List Value) :=
  fun source cursor result => ∃ items stop,
    meaning source cursor (.matched (.list items) stop) ∧ result = .matched (items.map pick) stop

namespace Refines

variable {Holds : Source → MemoTable Stored → Prop} {grammar : Grammar} {args : List Arg}

theorem sequence {terms : List Term} {sub : Term → Parser Stored Value}
    (parts : ∀ part ∈ terms, Refines Holds (sub part) (part.means grammar args)) :
    Refines Holds (Parser.sequence (terms.map sub)) fun source cursor result =>
      (Term.sequence terms).means grammar args source cursor (result.map .list) := by
  induction terms with
  | nil =>
    refine (pure []).imp ?_
    rintro source cursor _ rfl
    exact .sequence_nil
  | cons first others ih =>
    have rest := ih fun part member => parts part (by simp [member])
    have later (value : Value) : Refines Holds
        (Parser.sequence (others.map sub) >>= fun values => Pure.pure (value :: values))
        fun source cursor result =>
          (∃ values stop, (Term.sequence others).means grammar args source cursor
            (.matched (.list values) stop) ∧ result = .matched (value :: values) stop) ∨
          (Term.sequence others).means grammar args source cursor .failed ∧ result = .failed := by
      refine bind rest (fun values => pure (value :: values)) ?_ ?_
      next => rintro source cursor values stop _ holds rfl; exact .inl ⟨values, stop, holds, rfl⟩
      next => exact fun source cursor holds => .inr ⟨holds, rfl⟩
    refine bind (parts first (by simp)) later ?_ ?_
    next =>
      rintro source cursor value middle result matched (⟨values, stop, holds, rfl⟩ | ⟨holds, rfl⟩)
      next => exact .sequence_cons matched holds
      next => exact .sequence_later matched holds
    next => exact fun source cursor holds => .sequence_first holds

theorem choice {terms : List Term} {sub : Term → Parser Stored Value}
    (parts : ∀ part ∈ terms, Refines Holds (sub part) (part.means grammar args)) :
    Refines Holds (Parser.choice (terms.map sub)) ((Term.choice terms).means grammar args) := by
  induction terms with
  | nil =>
    refine (miss noMatch none).imp ?_
    rintro source cursor _ rfl
    exact .choice_nil
  | cons first others ih =>
    have rest := ih fun part member => parts part (by simp [member])
    rw [List.map_cons, choice_cons]
    refine branch (parts first (by simp)) pure (fun _ => rest) ?_ ?_
    next => rintro source cursor value stop _ holds rfl; exact .choice_first holds
    next => exact fun source cursor result failed holds => .choice_later failed holds

theorem many {parser : Parser Stored Value} {term : Term} {pick : Value → Value}
    (round : Refines Holds parser (picked pick (term.means grammar args))) (n : Nat) :
    Refines Holds (many parser n) (pickedAll pick ((Term.many term).means grammar args)) := by
  induction n with
  | zero => exact stop
  | succ n ih =>
    let again (start : Nat) (value : Value) : Meaning (List Value) := fun source cursor result =>
      cursor.index = start ∧ result = .matched [value] cursor.index ∨
      cursor.index ≠ start ∧ ∃ items stop, (Term.many term).means grammar args source cursor
        (.matched (.list items) stop) ∧ result = .matched (value :: items.map pick) stop
    have others (start : Nat) (value : Value) :
        Refines Holds (Parser.look (fun _ cursor => cursor.index) >>= fun stop =>
          if stop = start then Pure.pure [value]
          else Parser.many parser n >>= fun values => Pure.pure (value :: values))
          (again start value) := by
      refine looking _ fun stop => ?_
      split
      next same =>
        refine (pure [value]).imp ?_
        rintro source cursor _ rfl rfl
        exact .inl ⟨same, rfl⟩
      next moved =>
        refine bind ih (fun values => pure (value :: values)) ?_ ?_
        next =>
          rintro source cursor _ _ _ ⟨items, stop, holds, same⟩ rfl rfl
          cases same
          exact .inr ⟨moved, items, _, holds, rfl⟩
        next => rintro source cursor ⟨_, _, _, same⟩; cases same
    rw [many_succ]
    refine looking _ fun start => branch round (others start) (fun _ => pure []) ?_ ?_
    next =>
      rintro source cursor value middle result ⟨found, matched, same⟩ holds rfl
      cases found with
      | failed => cases same
      | matched item stop =>
        cases same
        rcases holds with ⟨still, rfl⟩ | ⟨moved, items, stop, rest, rfl⟩
        next =>
          obtain rfl : middle = cursor.index := still
          exact ⟨[item], _, .many_empty matched, rfl⟩
        next => exact ⟨item :: items, stop, .many_more matched moved rest, rfl⟩
    next =>
      rintro source cursor _ ⟨found, failed, same⟩ rfl rfl
      cases found with
      | matched => cases same
      | failed => exact ⟨[], _, .many_done failed, rfl⟩

theorem headed {parser round : Parser Stored Value} {meaning loop : Meaning Value}
    {whole : Meaning (List Value)} {pick : Value → Value} {n : Nat}
    (first : Refines Holds parser meaning)
    (rest : Refines Holds (Parser.many round n) (pickedAll pick loop))
    (matched : ∀ source (cursor : Cursor) value middle items stop,
      meaning source cursor (.matched value middle) →
      loop source { cursor with index := middle } (.matched (.list items) stop) →
      whole source cursor (.matched (value :: items.map pick) stop))
    (failed : ∀ source cursor, meaning source cursor .failed → whole source cursor .failed) :
    Refines Holds (headed parser round n) whole := by
  have later (value : Value) : Refines Holds
      (Parser.many round n >>= fun values => Pure.pure (value :: values))
      fun source cursor result => ∃ items stop, loop source cursor (.matched (.list items) stop) ∧
        result = .matched (value :: items.map pick) stop := by
    refine bind rest (fun values => pure (value :: values)) ?_ ?_
    next =>
      rintro source cursor _ _ _ ⟨items, stop, holds, same⟩ rfl
      cases same
      exact ⟨items, _, holds, rfl⟩
    next => rintro source cursor ⟨_, _, _, same⟩; cases same
  refine bind first.attempt later ?_ failed
  rintro source cursor value middle _ first ⟨items, stop, holds, rfl⟩
  exact matched _ _ _ _ _ _ first holds

end Refines

section Matchers

variable {source : Source} {cursor : Cursor}

theorem index_skip {taken after : List Char} (rest : source.rest cursor.index = taken ++ after)
    (within : cursor.index ≤ source.size) :
    (skip (Text.size taken) source cursor).index = cursor.index + Text.size taken := by
  simp only [skip]
  by_cases none : taken = []
  next => simp [none, within]
  next =>
    have fits := (Source.boundary_add rest none).le_size
    rw [← source.size_eq] at fits
    exact Nat.min_eq_left fits

theorem result_literal (text : String) (within : cursor.index ≤ source.size) :
    (literalMove text source cursor).result.map .text = .literal source cursor.index text := by
  unfold literalMove Result.literal
  split
  next found =>
    obtain ⟨after, rest⟩ := List.isPrefixOf_iff_prefix.mp found
    simp only [Move.result, Result.map, index_skip rest.symm within]
  next => rfl

theorem result_char (test : Char → Bool) (label : String) (within : cursor.index ≤ source.size) :
    (charMove test label source cursor).result.map .char = .char source cursor.index test := by
  cases rest : source.rest cursor.index with
  | nil => simp only [charMove, Result.char, rest]; rfl
  | cons c after =>
    have split : source.rest cursor.index = [c] ++ after := rest
    have moved := index_skip split within
    simp only [Text.size_cons, Text.size_nil, Nat.add_zero] at moved
    by_cases passes : test c = true
    next => simp only [charMove, Result.char, rest, passes, if_true, Move.result, Result.map, moved]
    next => simp only [charMove, Result.char, rest, passes]; rfl

theorem result_peek : (peekMove source cursor).result.map .char = .peek source cursor.index := by
  cases rest : source.rest cursor.index <;> simp only [peekMove, Result.peek, rest] <;> rfl

theorem result_consume :
    (consumeMove source cursor).result.map .char = .char source cursor.index fun _ => true := by
  cases rest : source.rest cursor.index <;> simp only [consumeMove, Result.char, rest] <;> rfl

theorem result_end :
    (endMove source cursor).result.map (fun _ => .null) = .endOfInput source cursor.index := by
  unfold endMove Result.endOfInput
  split <;> rfl

theorem result_run (test : Char → Bool) (label : String) (within : cursor.index ≤ source.size) :
    (runMove test label source cursor).result.map .text = .run source cursor.index test := by
  have rest := (List.takeWhile_append_dropWhile (p := test) (l := source.rest cursor.index)).symm
  simp only [runMove, Result.run, Move.result, Result.map, index_skip rest within]

theorem result_run1 (test : Char → Bool) (label : String) (within : cursor.index ≤ source.size) :
    (run1Move test label source cursor).result.map .text = .run1 source cursor.index test := by
  have run := result_run test label within
  unfold run1Move Result.run1
  split
  next => rfl
  next => rw [← run]

end Matchers

end Grammar

end Packrat
