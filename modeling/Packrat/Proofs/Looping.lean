import Packrat.Proofs.Locality

set_option autoImplicit false

namespace Packrat

variable {ν α : Type}

def Ending.result (ending : Ending ν α) : Except Failure α × Cursor :=
  (ending.outcome, ending.machine.cursor)

theorem Ending.eq_ok {ending : Ending ν α} {value : α} {cursor : Cursor}
    (same : ending.result = (.ok value, cursor)) :
    ∃ after, ending = .ok value after ∧ after.cursor = cursor := by
  cases ending with
  | ok found after =>
    obtain ⟨outcome, stop⟩ := Prod.mk.inj same
    exact ⟨after, by rw [Except.ok.inj outcome], stop⟩
  | error failure after => cases (Prod.mk.inj same).1

theorem Ending.eq_error {ending : Ending ν α} {failure : Failure} {cursor : Cursor}
    (same : ending.result = (.error failure, cursor)) :
    ∃ after, ending = .error failure after ∧ after.cursor = cursor := by
  cases ending with
  | ok found after => cases (Prod.mk.inj same).1
  | error other after =>
    obtain ⟨outcome, stop⟩ := Prod.mk.inj same
    exact ⟨after, by rw [Except.error.inj outcome], stop⟩

def Machine.clean (source : Source) (cursor : Cursor) : Machine ν :=
  { Machine.start source { memoize := false } with cursor }

namespace Parser

theorem Local.result_clean {parser : Parser ν α} (isLocal : Local parser) (watched : Call → Bool)
    {machine : Machine ν} (plain : machine.config.memoize = false)
    (unseen : ∀ call, watched call = false → seedIn machine.active.activations call = none)
    (quiet : entries watched (Ending.machine
      (parser (.clean machine.source machine.cursor))).journal = 0) :
    Ending.result (parser machine) = Ending.result (parser (.clean machine.source machine.cursor)) := by
  have beside : Beside ⟨watched, 0, entries watched machine.journal⟩ False [] []
      machine.active.activations (.clean machine.source machine.cursor) machine :=
    { source := rfl
      cursor := rfl
      frame := False.elim
      first := rfl
      second := rfl
      seeds := fun call unwatched => (unseen call unwatched).symm
      plain := ⟨rfl, plain⟩
      entered := ⟨rfl, rfl⟩ }
  -- The clean run enters no watched call, so that the runs do not part.
  rcases isLocal.alike beside with met | matched
  next => exact absurd met.1 (by simp [quiet])
  next =>
    generalize parser machine = ending, parser (.clean machine.source machine.cursor) = clean
      at matched
    cases matched with
    | ok value _ after => exact Prod.ext rfl after.cursor
    | error failure _ after => exact Prod.ext rfl after.cursor

end Parser

namespace Grammar

open Packrat.Parser

def extend (item : Parser Stored Value) : Nat → Value → Parser Stored Value
  | 0, _ => fail .exhausted
  | rounds + 1, value => fun machine =>
    match item machine with
    | .ok found after =>
      if machine.cursor.index < after.cursor.index then
        extend item rounds (.list [value, found]) after
      else .ok value (after.moveTo machine.cursor)
    | .error failure after =>
      if failure.recoverable then .ok value (after.moveTo machine.cursor)
      else .error failure after

theorem extend_succ (item : Parser Stored Value) (rounds : Nat) (value : Value)
    (machine : Machine Stored) :
    extend item (rounds + 1) value machine =
      match item machine with
      | .ok found after =>
        if machine.cursor.index < after.cursor.index then
          extend item rounds (.list [value, found]) after
        else .ok value (after.moveTo machine.cursor)
      | .error failure after =>
        if failure.recoverable then .ok value (after.moveTo machine.cursor)
        else .error failure after := rfl

/-- Matches a base, as the only alternative of a choice, and extends its value. A failure leaves the
cursor where the loop began. -/
def iterate (base item : Parser Stored Value) (rounds : Nat) : Parser Stored Value := fun machine =>
  match (choice [base] >>= extend item rounds) machine with
  | .ok value after => .ok value after
  | .error failure after => .error failure (after.moveTo machine.cursor)

structure Lone (call : Call) (source : Source) (machine : Machine Stored) : Prop where
  source : machine.source = source
  plain : machine.config.memoize = false
  unseen : ∀ other, other ≠ call → seedIn machine.active.activations other = none

theorem Lone.later {call : Call} {source : Source} {before after : Machine Stored}
    (lone : Lone call source before) (later : before.Later after) : Lone call source after where
  source := later.source.trans lone.source
  plain := later.config ▸ lone.plain
  unseen other different :=
    (seedIn_of_follows later.active.follows other).trans (lone.unseen other different)

structure Sole (codec : Codec Stored Value) (call : Call) (source : Source)
    (told : Option (Value × Cursor)) (raised : Prop) (machine : Machine Stored) : Prop where
  source : machine.source = source
  plain : machine.config.memoize = false
  active : ∃ activation, machine.active.activations = [activation] ∧ activation.call = call ∧
    activation.seed = told.map (fun seed => { value := codec.encode seed.1, cursor := seed.2 }) ∧
    (raised → activation.recursive = true)

namespace Sole

variable {codec : Codec Stored Value} {call : Call} {source : Source}
  {told : Option (Value × Cursor)} {raised : Prop} {before after machine : Machine Stored}

theorem lone (sole : Sole codec call source told raised machine) : Lone call source machine where
  source := sole.source
  plain := sole.plain
  unseen other different := by
    obtain ⟨activation, active, own, _⟩ := sole.active
    simp [active, seedIn, own, Ne.symm different]

theorem later (sole : Sole codec call source told raised before) (later : before.Later after) :
    Sole codec call source told raised after where
  source := later.source.trans sole.source
  plain := later.config ▸ sole.plain
  active := by
    obtain ⟨activation, active, own, seeded, recursive⟩ := sole.active
    have follows := later.active.follows
    rw [active] at follows
    generalize after.active.activations = activations at follows
    cases follows with
    | cons same rest =>
      cases rest
      exact ⟨_, rfl, same.call.trans own, same.seed.trans seeded, same.recursive ∘ recursive⟩

theorem moveTo (sole : Sole codec call source told raised machine) (cursor : Cursor) :
    Sole codec call source told raised (machine.moveTo cursor) :=
  { sole with }

theorem round_grown (sole : Sole codec call source told True machine) (value : Value)
    (farther : ∀ seed ∈ told, seed.2.index < machine.cursor.index) :
    ∃ next, round codec call (.ok value machine) = .again next ∧ next.cursor = call.cursor ∧
      Sole codec call source (some (value, machine.cursor)) False next := by
  obtain ⟨activation, active, own, seeded, recursive⟩ := sole.active
  have given : activation.seed.filter (machine.cursor.index ≤ ·.cursor.index) = none := by
    cases told with
    | none => simp [seeded]
    | some seed =>
      have beyond := farther seed rfl
      simp [seeded, Option.filter, beyond]
  refine ⟨replant codec call value machine, ?_, rfl, sole.source, sole.plain, ?_⟩
  next => simp [Parser.round, Active.innermost?, active, recursive trivial, given]
  next =>
    refine ⟨{ activation with
      recursive := false
      seed := some { value := codec.encode value, cursor := machine.cursor } }, ?_, own, rfl,
      False.elim⟩
    simp [replant, Active.plant, active, Activation.plant]

theorem round_kept {seed : Value × Cursor} (sole : Sole codec call source (some seed) True machine)
    (value : Value) (kept : machine.cursor.index ≤ seed.2.index) :
    round codec call (.ok value machine) = .done (.ok seed.1 (machine.moveTo seed.2)) := by
  obtain ⟨activation, active, own, seeded, recursive⟩ := sole.active
  have given : activation.seed.filter (machine.cursor.index ≤ ·.cursor.index) =
      some { value := codec.encode seed.1, cursor := seed.2 } := by
    simp [seeded, Option.filter, kept]
  simp [Parser.round, Active.innermost?, active, recursive trivial, given, useSeed, Codec.read,
    codec.decode_encode, conclude]

theorem round_failed (sole : Sole codec call source told raised machine) (failure : Failure)
    (final : told = none ∨ failure.recoverable = false) :
    round codec call (.error failure machine) = .done (.error failure machine) := by
  obtain ⟨activation, active, own, seeded, _⟩ := sole.active
  have innermost : machine.active.innermost?.bind Activation.seed = activation.seed := by
    simp [Active.innermost?, active]
  simp only [Parser.round, innermost, seeded]
  cases told with
  | none => rfl
  | some seed =>
    have fatal := final.resolve_left (by simp)
    simp [fatal]

end Sole

structure Recalled (call : Call) (told : Option (Value × Cursor)) (before : Machine Stored)
    (ending : Ending Stored Value) : Prop where
  source : ending.machine.source = before.source
  config : ending.machine.config = before.config
  active : ending.machine.active.activations =
    Activation.reenter call before.active.activations
  result : ending.result =
    match told with
    | none => (.error .unseeded, call.cursor)
    | some seed => (.ok seed.1, seed.2)

theorem Recalled.sole {codec : Codec Stored Value} {call : Call} {source : Source}
    {told : Option (Value × Cursor)} {raised : Prop} {before : Machine Stored}
    {ending : Ending Stored Value} (recalled : Recalled call told before ending)
    (sole : Sole codec call source told raised before) :
    Sole codec call source told True ending.machine where
  source := recalled.source.trans sole.source
  plain := recalled.config ▸ sole.plain
  active := by
    obtain ⟨activation, active, own, seeded, _⟩ := sole.active
    refine ⟨{ activation with recursive := true }, ?_, own, seeded, fun _ => rfl⟩
    rw [recalled.active, active]
    simp [Activation.reenter, own]

def leftBody (reentry item base : Parser Stored Value) : Parser Stored Value :=
  choice [Value.list <$> Parser.sequence [reentry, item], base]

theorem pair_apply (first second : Parser Stored Value) (machine : Machine Stored) :
    (Value.list <$> Parser.sequence [first, second]) machine =
      match first machine with
      | .ok value after =>
        match second after with
        | .ok found last => .ok (.list [value, found]) last
        | .error failure last => .error failure last
      | .error failure after => .error failure after := by
  simp only [map_eq, Parser.sequence, bind_apply]
  cases first machine with
  | error failure after => rfl
  | ok value after =>
    simp only
    cases second after <;> rfl

section LeftBody

variable {codec : Codec Stored Value} {call : Call} {source : Source} {reentry : Parser Stored Value}
  (item base : Parser Stored Value) {raised : Prop} {machine : Machine Stored}

theorem leftBody_unseeded (recalled : Recalled call none machine (reentry machine))
    (sole : Sole codec call source none raised machine) (origin : machine.cursor = call.cursor) :
    ∃ after, leftBody reentry item base machine = choice [base] after ∧
      after.cursor = call.cursor ∧ Sole codec call source none True after := by
  obtain ⟨last, ended, _⟩ := Ending.eq_error recalled.result
  have after := recalled.sole sole
  rw [ended] at after
  refine ⟨last.moveTo machine.cursor, ?_, origin, after.moveTo _⟩
  simp only [leftBody, choice_cons _ [base], branch, pair_apply, ended]
  rfl

theorem leftBody_seeded {seed : Value × Cursor}
    (recalled : Recalled call (some seed) machine (reentry machine))
    (sole : Sole codec call source (some seed) raised machine) :
    ∃ after, after.cursor = seed.2 ∧ Sole codec call source (some seed) True after ∧
      leftBody reentry item base machine =
        match item after with
        | .ok found last => .ok (.list [seed.1, found]) last
        | .error failure last =>
          if failure.recoverable then choice [base] (last.moveTo machine.cursor)
          else .error failure last := by
  obtain ⟨after, ended, stop⟩ := Ending.eq_ok recalled.result
  have sole := recalled.sole sole
  rw [ended] at sole
  refine ⟨after, stop, sole, ?_⟩
  simp only [leftBody, choice_cons _ [base], branch, pair_apply, ended]
  cases item after with
  | ok value last => rfl
  | error failure last => cases failure <;> rfl

end LeftBody

structure Echoes (call : Call) (source : Source) (place : Cursor → Prop)
    (results : Cursor → Except Failure Value × Cursor) (parser : Parser Stored Value) : Prop where
  orderly : Orderly parser
  result : ∀ machine, Lone call source machine → place machine.cursor →
    Ending.result (parser machine) = results machine.cursor

def Beyond (call : Call) (source : Source) (cursor : Cursor) : Prop :=
  call.cursor.index < cursor.index ∧ cursor.index ≤ source.size

structure Alike (codec : Codec Stored Value) (call : Call) (source : Source)
    (reentry item again base anew : Parser Stored Value)
    (found first : Cursor → Except Failure Value × Cursor) : Prop where
  recalls : ∀ told machine, Sole codec call source told False machine →
    machine.cursor = call.cursor → Recalled call told machine (reentry machine)
  item : Echoes call source (Beyond call source) found item
  again : Echoes call source (Beyond call source) found again
  base : Echoes call source (· = call.cursor) first (choice [base])
  anew : Echoes call source (· = call.cursor) first (choice [anew])
  within : ∀ cursor value stop, Beyond call source cursor → found cursor = (.ok value, stop) →
    stop.index ≤ source.size

structure Agree (first second : Ending Stored Value) : Prop where
  outcome : first.outcome = second.outcome
  cursor : ∀ value, second.outcome = .ok value → first.machine.cursor = second.machine.cursor

section Growing

variable {codec : Codec Stored Value} {call : Call} {source : Source}
  {reentry item again base anew : Parser Stored Value}
  {found first : Cursor → Except Failure Value × Cursor}

theorem Alike.grows (alike : Alike codec call source reentry item again base anew found first)
    {value begun : Value} {cursor start : Cursor} (starts : first call.cursor = (.ok begun, start))
    (since : start.index ≤ cursor.index) (beyond : Beyond call source cursor)
    {machine looping : Machine Stored}
    (sole : Sole codec call source (some (value, cursor)) False machine)
    (origin : machine.cursor = call.cursor) (lone : Lone call source looping)
    (here : looping.cursor = cursor) {n rounds : Nat} (enough : source.size - cursor.index < n)
    (often : source.size - cursor.index < rounds) :
    Agree (grow codec call (leftBody reentry item base) n machine)
      (extend again rounds value looping) := by
  -- One run of the body is one round of the loop. The seed holds the loop's value and cursor.
  induction n generalizing value cursor machine looping rounds with
  | zero => omega
  | succ n ih =>
    obtain ⟨rounds, rfl⟩ : ∃ less, rounds = less + 1 := ⟨rounds - 1, by omega⟩
    obtain ⟨after, stop, held, same⟩ :=
      leftBody_seeded item base (alike.recalls _ machine sole origin) sole
    have ran := alike.item.result after held.lone (stop ▸ beyond)
    have looped := alike.again.result looping lone (here ▸ beyond)
    have later := held.later (alike.item.orderly after)
    have onward := lone.later (alike.again.orderly looping)
    rw [stop] at ran
    rw [here] at looped
    rw [grow_succ, same, extend_succ]
    obtain ⟨outcome, reached, results⟩ : ∃ outcome reached, found cursor = (outcome, reached) :=
      ⟨_, _, rfl⟩
    rw [results] at ran looped
    cases outcome with
    | ok other =>
      obtain ⟨last, ended, at_last⟩ := Ending.eq_ok ran
      obtain ⟨next, looped, at_next⟩ := Ending.eq_ok looped
      rw [ended, Ending.machine_ok] at later
      rw [looped, Ending.machine_ok] at onward
      rw [ended, looped]
      simp only [here, at_next]
      by_cases farther : cursor.index < reached.index
      next =>
        obtain ⟨grown, again, back, replanted⟩ := later.round_grown (.list [value, other])
          (by rintro seed ⟨⟩; simpa [at_last] using farther)
        rw [again, if_pos farther]
        have within := alike.within cursor other reached beyond results
        rw [at_last] at replanted
        exact ih (by omega) ⟨by have := beyond.1; omega, within⟩ replanted back onward at_next
          (by omega) (by omega)
      next =>
        have kept : last.cursor.index ≤ cursor.index := by simpa [at_last] using farther
        rw [later.round_kept _ kept, if_neg farther]
        exact ⟨rfl, fun _ _ => rfl⟩
    | error failure =>
      obtain ⟨last, ended, _⟩ := Ending.eq_error ran
      obtain ⟨next, looped, _⟩ := Ending.eq_error looped
      rw [ended, Ending.machine_error] at later
      rw [ended, looped]
      by_cases recoverable : failure.recoverable = true
      next =>
        -- The body falls back on its base, which gets no farther than the seed.
        have back := later.moveTo machine.cursor
        have fallen := alike.base.result _ back.lone origin
        have settled := back.later (alike.base.orderly _)
        rw [show (last.moveTo machine.cursor).cursor = call.cursor from origin, starts] at fallen
        obtain ⟨final, based, at_final⟩ := Ending.eq_ok fallen
        rw [based, Ending.machine_ok] at settled
        simp only [recoverable, if_true, based]
        rw [settled.round_kept begun (by simpa [at_final] using since)]
        exact ⟨rfl, fun _ _ => here.symm⟩
      next =>
        simp only [recoverable]
        rw [Bool.not_eq_true] at recoverable
        simp only [Bool.false_eq_true, if_false]
        rw [later.round_failed failure (.inr recoverable)]
        exact ⟨rfl, by simp⟩

theorem Alike.iterates (alike : Alike codec call source reentry item again base anew found first)
    (consumes : ∀ value stop, first call.cursor = (.ok value, stop) → Beyond call source stop)
    {machine looping : Machine Stored} (sole : Sole codec call source none False machine)
    (origin : machine.cursor = call.cursor) (lone : Lone call source looping)
    (here : looping.cursor = call.cursor) {n rounds : Nat} (enough : source.size + 1 < n)
    (often : source.size < rounds) :
    Agree (grow codec call (leftBody reentry item base) n machine)
      ((choice [anew] >>= extend again rounds) looping) := by
  obtain ⟨n, rfl⟩ : ∃ less, n = less + 1 := ⟨n - 1, by omega⟩
  -- Without a seed the first alternative fails, and the base gives the first seed.
  obtain ⟨after, same, back, held⟩ :=
    leftBody_unseeded item base (alike.recalls _ machine sole origin) sole origin
  have ran := alike.base.result after held.lone back
  have later := held.later (alike.base.orderly after)
  have looped := alike.anew.result looping lone here
  have onward := lone.later (alike.anew.orderly looping)
  rw [back] at ran
  rw [here] at looped
  rw [grow_succ, same, bind_apply]
  obtain ⟨outcome, reached, results⟩ : ∃ outcome reached, first call.cursor = (outcome, reached) :=
    ⟨_, _, rfl⟩
  rw [results] at ran looped
  cases outcome with
  | ok value =>
    obtain ⟨last, ended, at_last⟩ := Ending.eq_ok ran
    obtain ⟨next, looped, at_next⟩ := Ending.eq_ok looped
    rw [ended, Ending.machine_ok] at later
    rw [looped, Ending.machine_ok] at onward
    obtain ⟨grown, again, back, replanted⟩ := later.round_grown value (by simp)
    rw [at_last] at replanted
    rw [ended, looped, again]
    exact alike.grows results (Nat.le_refl _) (consumes value reached results) replanted back onward
      at_next (by omega) (by omega)
  | error failure =>
    obtain ⟨last, ended, _⟩ := Ending.eq_error ran
    obtain ⟨next, looped, _⟩ := Ending.eq_error looped
    rw [ended, Ending.machine_error] at later
    rw [ended, looped, later.round_failed failure (.inl rfl)]
    exact ⟨rfl, by simp⟩

end Growing

theorem Agree.iterates {grown : Ending Stored Value} {base item : Parser Stored Value} {rounds : Nat}
    {machine : Machine Stored} (agree : Agree grown ((choice [base] >>= extend item rounds) machine))
    (codec : Codec Stored Value) {call : Call} (origin : machine.cursor = call.cursor) :
    Ending.result (iterate base item rounds machine) =
      Ending.result (reported codec call (close codec call false grown)) := by
  have outcome := agree.outcome
  have cursor := agree.cursor
  unfold iterate
  cases ran : (choice [base] >>= extend item rounds) machine with
  | ok value after =>
    rw [ran] at outcome cursor
    cases grown with
    | ok other last =>
      have closed := popped_settle call false (.ok (codec.encode other)) last
      exact Prod.ext outcome.symm ((closed.cursor.trans (cursor value rfl)).symm)
    | error failure last => cases outcome
  | error failure after =>
    rw [ran] at outcome
    cases grown with
    | ok other last => cases outcome
    | error other last =>
      -- Both give back what a failure has consumed.
      have closed := popped_settle call false (.error other) (last.moveTo call.cursor)
      exact Prod.ext outcome.symm (origin.trans closed.cursor.symm)

end Grammar

end Packrat
