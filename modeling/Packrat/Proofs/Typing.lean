import Packrat.Proofs.Visits

set_option autoImplicit false

namespace Packrat

open Packrat.Grammar (Shape Stored Value)

def Failure.misuse : Failure → Bool
  | .staleSnapshot | .mismatched _ => true
  | .noMatch | .unseeded | .exhausted => false

theorem Failure.misuse_of_recoverable {failure : Failure} (recoverable : failure.recoverable = true) :
    failure.misuse = false := by
  cases failure <;> first | rfl | cases recoverable

theorem Failure.recoverable_of_usable {failure : Failure} (usable : failure.misuse = false)
    (whole : failure ≠ .exhausted) : failure.recoverable = true := by
  cases failure <;> first | rfl | exact absurd rfl whole | cases usable

namespace Ending

variable {ν α : Type}

def Clean (ending : Ending ν α) : Prop :=
  ∀ failure, ending.outcome = .error failure → failure.misuse = false

@[simp] theorem clean_ok (value : α) (machine : Machine ν) : Clean (.ok value machine) := by
  simp [Clean]

@[simp] theorem clean_error (failure : Failure) (machine : Machine ν) :
    Clean (α := α) (.error failure machine) ↔ failure.misuse = false := by
  simp [Clean]

end Ending

/-- A verdict from which a rule with results of the shape can be answered. -/
structure Verdict.Typed (shape : Shape) (verdict : Verdict Stored) : Prop where
  matched : ∀ stored, verdict.outcome = .ok stored → stored.shape = shape
  failed : ∀ failure, verdict.outcome = .error failure → failure.recoverable = true

structure Machine.Typed (shapes : RuleName → Shape) (machine : Machine Stored) : Prop where
  memo : ∀ {call verdict}, machine.memo.find? call = some verdict →
    verdict.Typed (shapes call.rule)
  seeds : ∀ {activation seed}, activation ∈ machine.active.activations →
    activation.seed = some seed → seed.value.shape = shapes activation.call.rule

namespace Machine.Typed

variable {shapes : RuleName → Shape} {machine : Machine Stored}

theorem start (source : Source) (config : Config) : (Machine.start source config).Typed shapes where
  memo found := by simp [Machine.start, MemoTable.find?_eq, MemoTable.entries] at found
  seeds member := by simp [Machine.start] at member

theorem report (typed : machine.Typed shapes) (call : Call) (step : Step Stored) :
    (machine.report call step).Typed shapes :=
  { typed with }

theorem moveTo (typed : machine.Typed shapes) (cursor : Cursor) :
    (machine.moveTo cursor).Typed shapes :=
  { typed with }

theorem pushFrame (typed : machine.Typed shapes) (index : Nat) :
    (machine.pushFrame index).Typed shapes :=
  { typed with }

theorem setLevel (typed : machine.Typed shapes) (level : Int32) :
    (machine.setLevel level).Typed shapes :=
  { typed with }

theorem seed_innermost {call : Call} {activation : Activation Stored} {seed : Seed Stored}
    (typed : machine.Typed shapes) (own : machine.calls.head? = some call)
    (innermost : machine.active.innermost? = some activation)
    (seeded : activation.seed = some seed) : seed.value.shape = shapes call.rule := by
  have same : activation.call = call := by
    simpa [Machine.calls, ← Active.innermost?.eq_def, innermost] using own
  exact same ▸ typed.seeds (List.mem_of_head? innermost) seeded

theorem course : Parser.Course (Machine.Typed shapes) fun _ after => after.Typed shapes where
  refl typed := typed
  trans _ typed := typed
  ready _ typed := typed
  moveTo typed _ := typed.moveTo _
  register _ _ typed := { typed with }
  pushFrame index typed := typed.pushFrame index
  dropFrame typed := { typed with }
  setLevel level typed := typed.setLevel level
  putBack typed := { typed with }

end Machine.Typed

namespace Parser

open Ending (Clean clean_ok clean_error)

variable {α : Type} {shapes : RuleName → Shape}

structure Safe (shapes : RuleName → Shape) (parser : Parser Stored α) : Prop where
  typed : ∀ machine : Machine Stored, machine.Typed shapes →
    (Ending.machine (parser machine)).Typed shapes
  clean : ∀ machine : Machine Stored, machine.Typed shapes → Clean (parser machine)

theorem safe_stop : Safe shapes (fail .exhausted : Parser Stored α) where
  typed _ typed := typed
  clean _ _ := (clean_error _ _).mpr rfl

theorem safe_blocks : Closed fun _ parser => Safe shapes parser where
  leaf {_ act} forward :=
    { typed := Machine.Typed.course.closed.leaf forward
      clean := by
        intro machine _ failure failed
        rw [outcome_leaf] at failed
        cases outcome : (act machine.source machine.cursor).outcome with
        | ok value => simp [outcome, Except.mapError] at failed
        | error mismatch =>
          simp only [outcome, Except.mapError, Except.error.injEq] at failed
          subst failed
          exact Failure.misuse_of_recoverable mismatch.property }
  bind {_ _ parser next} safe continued :=
    { typed := Machine.Typed.course.closed.bind safe.typed fun value => (continued value).typed
      clean := by
        intro machine typed
        have kept := safe.typed machine typed
        have first := safe.clean machine typed
        rw [bind_apply]
        cases ending : parser machine with
        | ok value after => exact (continued value).clean after (ending ▸ kept :)
        | error failure after => simpa [ending] using first }
  branch {_ _ parser found missed} safe matched unmatched :=
    { typed := Machine.Typed.course.closed.branch safe.typed (fun value => (matched value).typed)
        fun mismatch => (unmatched mismatch).typed
      clean := by
        intro machine typed
        have kept := safe.typed machine typed
        have first := safe.clean machine typed
        unfold branch
        cases ending : parser machine with
        | ok value after => exact (matched value).clean after (ending ▸ kept :)
        | error failure after =>
          by_cases recoverable : failure.recoverable = true
          next =>
            simp only [recoverable, dite_true]
            rw [ending] at kept
            exact (unmatched ⟨failure, recoverable⟩).clean _ (kept.moveTo machine.cursor)
          next => simpa [ending, recoverable] using first }
  ahead {_ parser} safe :=
    { typed := Machine.Typed.course.closed.ahead safe.typed
      clean := by
        intro machine typed
        have first := safe.clean machine typed
        unfold ahead
        cases ending : parser machine with
        | ok value after => simp
        | error failure after =>
          simp only [ending, clean_error] at first ⊢
          split <;> simpa using first }
  notHere {_ parser} label safe :=
    { typed := Machine.Typed.course.closed.notHere label safe.typed
      clean := by
        intro machine typed
        have first := safe.clean _ (typed.pushFrame machine.cursor.index)
        simp only [notHere]
        cases ending : parser (machine.pushFrame machine.cursor.index) with
        | ok value after => exact (clean_error _ _).mpr rfl
        | error failure after =>
          simp only [ending, clean_error] at first ⊢
          split
          next => exact clean_ok _ _
          next => simpa using first }
  isolated {_ parser} safe :=
    { typed := Machine.Typed.course.closed.isolated safe.typed
      clean := by
        intro machine typed
        have first := safe.clean _ (typed.pushFrame machine.cursor.index)
        unfold isolated
        cases ending : parser (machine.pushFrame machine.cursor.index) with
        | ok value after => simp
        | error failure after =>
          simp only [ending, clean_error] at first ⊢
          split
          next => exact clean_ok _ _
          next => simpa using first }
  atLevel {_ parser} level safe :=
    { typed := Machine.Typed.course.closed.atLevel level safe.typed
      clean := by
        intro machine typed
        have first := safe.clean _ (typed.setLevel level)
        unfold atLevel
        cases ending : parser (machine.setLevel level) with
        | ok value after => simp
        | error failure after => simpa [ending] using first }

section Invoke

variable {call : Call} {body : Parser Stored Value} {machine : Machine Stored}

theorem read_typed {shape : Shape} {stored : Stored} (typed : stored.shape = shape)
    (rule : RuleName) : (Stored.codec shape).read rule stored = .ok stored.value := by
  simp [Codec.read, Stored.codec, typed]

theorem clean_useSeed {seed : Seed Stored} (typed : seed.value.shape = shapes call.rule)
    (machine : Machine Stored) :
    Clean (useSeed (Stored.codec (shapes call.rule)) call seed machine) := by
  rw [useSeed, read_typed typed]
  exact clean_ok _ _

theorem clean_replay {verdict : Verdict Stored} (typed : verdict.Typed (shapes call.rule))
    (machine : Machine Stored) :
    Clean (replay (Stored.codec (shapes call.rule)) call verdict machine) := by
  unfold replay
  cases outcome : verdict.outcome with
  | ok stored =>
    simp only [Except.bind, read_typed (typed.matched stored outcome)]
    exact clean_ok _ _
  | error failure =>
    exact (clean_error _ _).mpr (Failure.misuse_of_recoverable (typed.failed failure outcome))

theorem typed_replant (typed : machine.Typed shapes) (own : machine.calls.head? = some call)
    (value : Value) :
    (replant (Stored.codec (shapes call.rule)) call value machine).Typed shapes where
  memo := typed.memo
  seeds := by
    intro activation seed member seeded
    simp only [replant, Active.plant] at member
    cases active : machine.active.activations with
    | nil => simp [active, Activation.plant] at member
    | cons innermost outer =>
      simp only [active, Activation.plant, List.mem_cons] at member
      rcases member with rfl | member
      next =>
        obtain rfl : innermost.call = call := by simpa [Machine.calls, active] using own
        cases seeded
        rfl
      next => exact typed.seeds (by simp [active, member]) seeded

def SafeRound (shapes : RuleName → Shape) (round : Round Stored Value) : Prop :=
  round.machine.Typed shapes ∧ ∀ ending, round = .done ending → ending.Clean

theorem safe_round {ending : Ending Stored Value} (typed : ending.machine.Typed shapes)
    (clean : ending.Clean) (own : ending.machine.calls.head? = some call) :
    SafeRound shapes (round (Stored.codec (shapes call.rule)) call ending) := by
  have ended (last : Ending Stored Value) (kept : last.machine.Typed shapes) (fine : last.Clean) :
      SafeRound shapes (.done last) :=
    ⟨kept, by rintro _ ⟨⟩; exact fine⟩
  have seeded {activation : Activation Stored} {seed : Seed Stored}
      (innermost : ending.machine.active.innermost? = some activation)
      (seeded : activation.seed = some seed) :
      SafeRound shapes (.done (useSeed (Stored.codec (shapes call.rule)) call seed
        ending.machine)) := by
    refine ended _ ?_ (clean_useSeed (typed.seed_innermost own innermost seeded) _)
    rw [machine_useSeed]
    exact typed.moveTo _
  cases ending with
  | error failure after =>
    simp only [round]
    cases found : after.active.innermost?.bind Activation.seed with
    | none => exact ended _ typed clean
    | some seed =>
      obtain ⟨activation, innermost, has⟩ := Option.bind_eq_some_iff.mp found
      cases failure.recoverable with
      | false => exact ended _ typed clean
      | true => exact seeded innermost has
  | ok value after =>
    simp only [round]
    cases innermost : after.active.innermost? with
    | none => exact ended _ typed clean
    | some activation =>
      simp only
      split
      next => exact ended _ typed clean
      next =>
        split
        next seed has => exact seeded innermost (Option.eq_some_of_filter_eq_some has)
        next => exact ⟨typed_replant typed own value, by simp⟩

theorem safe_grow (orderly : Orderly body) (safe : Safe shapes body) (n : Nat)
    (typed : machine.Typed shapes) (own : machine.calls.head? = some call) :
    (Ending.machine (grow (Stored.codec (shapes call.rule)) call body n machine)).Typed shapes ∧
      Clean (grow (Stored.codec (shapes call.rule)) call body n machine) := by
  induction n generalizing machine with
  | zero => exact ⟨typed, (clean_error _ _).mpr rfl⟩
  | succ n ih =>
    have ran : (Ending.machine (body machine)).calls.head? = some call :=
      (orderly machine).calls ▸ own
    have once := safe_round (safe.typed machine typed) (safe.clean machine typed) ran
    have calls := (inside_round (Stored.codec (shapes call.rule)) call (body machine)).calls
    rw [grow_succ]
    cases result : round (Stored.codec (shapes call.rule)) call (body machine) with
    | done ending =>
      rw [result] at once
      exact ⟨once.1, once.2 ending rfl⟩
    | again next =>
      rw [result] at once calls
      exact ih once.1 (calls ▸ ran)

theorem typed_settle {memoized : Bool} {outcome : Except Failure Stored}
    (typed : machine.Typed shapes)
    (matched : ∀ stored, outcome = .ok stored → stored.shape = shapes call.rule) :
    (settle call memoized outcome machine).Typed shapes := by
  have closed : (popped machine).Typed shapes :=
    { typed with seeds := fun member => typed.seeds (List.mem_of_mem_tail member) }
  have result := settled call memoized outcome machine
  generalize settle call memoized outcome machine = last at result ⊢
  cases result with
  | withheld => exact closed.report _ _
  | dropped => exact closed
  | stored _ _ final =>
    have inserted : (stashed call outcome machine).Typed shapes :=
      { closed with
        memo := by
          intro other verdict found
          rcases MemoTable.of_find?_insert found with ⟨rfl, rfl⟩ | earlier
          next => exact ⟨matched, final⟩
          next => exact typed.memo earlier }
    exact inserted.report _ _

theorem typed_opened (typed : machine.Typed shapes) (call : Call) :
    (opened call machine).Typed shapes where
  memo := typed.memo
  seeds := by
    intro activation seed member seeded
    simp only [opened, Active.push, List.mem_cons] at member
    rcases member with rfl | member
    next => cases seeded
    next => exact typed.seeds member seeded

theorem safe_activate (call : Call) (orderly : Orderly body) (safe : Safe shapes body)
    (memoized : Bool) (n : Nat) :
    Safe shapes (activate (Stored.codec (shapes call.rule)) call memoized body n) := by
  have grown (machine : Machine Stored) (typed : machine.Typed shapes) :=
    safe_grow orderly safe n (typed_opened typed call) rfl
  constructor
  next =>
    intro machine typed
    have kept := (grown machine typed).1
    rw [activate_eq]
    cases ending : grow (Stored.codec (shapes call.rule)) call body n (opened call machine) with
    | ok value after =>
      rw [ending] at kept
      exact typed_settle kept (by rintro _ ⟨⟩; rfl)
    | error failure after =>
      rw [ending] at kept
      exact typed_settle (kept.moveTo call.cursor) (by simp)
  next =>
    intro machine typed
    rw [activate_eq, Clean, outcome_close]
    exact (grown machine typed).2

theorem safe_reenter {activation : Activation Stored} (typed : machine.Typed shapes)
    (found : machine.active.find? call = some activation) :
    (Ending.machine (reenter (Stored.codec (shapes call.rule)) call activation machine)).Typed
        shapes ∧
      Clean (reenter (Stored.codec (shapes call.rule)) call activation machine) := by
  obtain ⟨member, own⟩ := mem_of_find? found
  have marked : ({ machine with active := machine.active.reenter call } :
      Machine Stored).Typed shapes :=
    { typed with
      seeds := by
        intro later seed inside seeded
        obtain ⟨former, present, same⟩ :=
          Activation.exists_former (Activation.follows_reenter call _) inside
        rw [same.call]
        exact typed.seeds present (same.seed ▸ seeded) }
  simp only [reenter]
  cases seeded : activation.seed with
  | none => exact ⟨marked.report _ _, (clean_error _ _).mpr rfl⟩
  | some seed =>
    have shape := typed.seeds member seeded
    rw [own] at shape
    refine ⟨?_, clean_useSeed shape _⟩
    simp only [machine_useSeed]
    exact (marked.report _ _).moveTo _

theorem safe_evaluate (call : Call) (orderly : Orderly body) (safe : Safe shapes body)
    (memoized : Bool) (n : Nat) :
    Safe shapes (evaluate (Stored.codec (shapes call.rule)) call memoized body n) := by
  have activated := safe_activate call orderly safe memoized n
  constructor
  all_goals
    intro machine typed
    unfold evaluate
    split
  next found => exact (safe_reenter typed found).1
  next => exact activated.typed machine typed
  next found => exact (safe_reenter typed found).2
  next => exact activated.clean machine typed

theorem safe_answer (call : Call) (orderly : Orderly body) (safe : Safe shapes body)
    (memoized : Bool) (n : Nat) :
    Safe shapes (answer (Stored.codec (shapes call.rule)) call memoized body n) := by
  have evaluated := safe_evaluate call orderly safe memoized n
  constructor
  all_goals
    intro machine typed
    have checked (hit : Bool) := typed.report call (.checked hit)
    unfold answer
    split
  next =>
    split
    next =>
      rw [machine_replay]
      exact { typed with }
    next => exact evaluated.typed _ (checked false)
  next => exact evaluated.typed machine typed
  next =>
    split
    next found => exact clean_replay (typed.memo found) _
    next => exact evaluated.clean _ (checked false)
  next => exact evaluated.clean machine typed

theorem Safe.invoke (safe : Safe shapes body) (orderly : Orderly body) {shape : Shape} {rule : Rule}
    (same : shape = shapes rule.name) (args : List Arg) (n : Nat) :
    Safe shapes (invoke (Stored.codec shape) rule args body n) := by
  subst same
  have answered (machine : Machine Stored) :
      Safe shapes (answer (Stored.codec (shapes rule.name)) (callOf rule args machine)
        (rule.memoized && machine.config.memoize) body n) :=
    safe_answer (callOf rule args machine) orderly safe _ n
  constructor
  next =>
    intro machine typed
    have entered := typed.report (callOf rule args machine) .entering
    have kept := (answered machine).typed _ entered
    rw [invoke_eq]
    cases ending : answer _ (callOf rule args machine) _ body n _ with
    | ok value after | error failure after =>
      rw [ending] at kept
      exact kept.report _ _
  next =>
    intro machine typed
    rw [invoke_eq, Clean, outcome_reported]
    exact (answered machine).clean _ (typed.report _ _)

end Invoke

section Runs

variable {parser : Parser Stored α} {machine after : Machine Stored}

theorem typed_after (safe : Safe shapes parser) (typed : machine.Typed shapes)
    {ending : Ending Stored α} (ran : parser machine = ending) : ending.machine.Typed shapes :=
  ran ▸ safe.typed machine typed

theorem typed_repeats (safe : Safe shapes parser) {n : Nat} (repeats : Repeats parser n machine after)
    (typed : machine.Typed shapes) : after.Typed shapes := by
  induction repeats with
  | none => exact typed
  | next matched _ _ ih => exact ih (typed_after safe typed matched)

theorem typed_regrows (call : Call) {body : Parser Stored Value} (orderly : Orderly body)
    (safe : Safe shapes body) {n : Nat}
    (regrows : Regrows (Stored.codec (shapes call.rule)) call body n machine after)
    (typed : machine.Typed shapes) (own : machine.calls.head? = some call) : after.Typed shapes := by
  induction regrows with
  | none => exact typed
  | @next n start middle last again _ ih =>
    have ran : (Ending.machine (body start)).calls.head? = some call :=
      (orderly start).calls ▸ own
    have once := safe_round (safe.typed start typed) (safe.clean start typed) ran
    have calls := (inside_round (Stored.codec (shapes call.rule)) call (body start)).calls
    rw [again] at once calls
    exact ih once.1 (calls ▸ ran)

end Runs

end Parser

namespace Grammar

open Packrat.Parser

def Typed (grammar : Grammar) (shapes : RuleName → Shape) : Prop :=
  ∀ entry ∈ grammar.definitions, entry.2.body.Typed grammar shapes

instance (grammar : Grammar) (shapes : RuleName → Shape) : Decidable (grammar.Typed shapes) :=
  inferInstanceAs (Decidable (∀ entry ∈ grammar.definitions, entry.2.body.Typed grammar shapes))

theorem Typed.body {grammar : Grammar} {shapes : RuleName → Shape} {key : String}
    {definition : Definition} (typed : grammar.Typed shapes)
    (found : grammar.find? key = some definition) : definition.body.Typed grammar shapes :=
  typed _ (mem_of_find? found)

theorem Typed.safe {grammar : Grammar} {shapes : RuleName → Shape} (typed : grammar.Typed shapes)
    (pure : grammar.Pure) (n : Nat) (args : List Arg) {term : Term} (termPure : term.Pure)
    (termTyped : term.Typed grammar shapes) : Safe shapes (term.parser grammar n args) := by
  refine @Term.holds_throughout _ safe_blocks safe_stop grammar
    (fun term => term.Pure ∧ term.Typed grammar shapes) ?_ ?_ ?_ ?_ n args term
    ⟨termPure, termTyped⟩
  next => exact fun fits => fits.1.plain
  next => exact fun fits member => ⟨fits.1.part member, fits.2.part member⟩
  next => exact fun _ found => ⟨pure.body found, typed.body found⟩
  next =>
    intro shape key argTerms definition n passed fits found safe
    exact safe.invoke (pure.orderly n passed (pure.body found)) (fits.2.shape found) passed n

section Visits

variable {grammar : Grammar} {shapes : RuleName → Shape} {outer inner : Evaluation}

theorem Typed.kept (typed : grammar.Typed shapes) (pure : grammar.Pure) :
    Kept (fun _ _ => True) grammar fun term => term.Pure ∧ term.Typed grammar shapes where
  part admitted member := ⟨admitted.1.part member, admitted.2.part member⟩
  body found := ⟨pure.body found, typed.body found⟩
  preserves n args _ admitted :=
    { orderly := pure.orderly n args admitted.1
      advances := pure.advances n args admitted.1
      memo := fun _ _ _ => trivial }

theorem Typed.has (typed : grammar.Typed shapes) (pure : grammar.Pure)
    (has : outer.Has grammar inner) (admitted : outer.term.Pure ∧ outer.term.Typed grammar shapes)
    (machine : outer.machine.Typed shapes) : inner.machine.Typed shapes := by
  have safe (n : Nat) (args : List Arg) {part : Term} (member : part ∈ outer.term.parts) :
      Safe shapes (part.parser grammar n args) :=
    typed.safe pure n args (admitted.1.part member) (admitted.2.part member)
  cases has with
  | sequence matched =>
    exact typed_after (safe_blocks.sequence fun part member => safe _ _
      (List.mem_append_left _ member)) machine matched
  | choice failed =>
    exact typed_after (safe_blocks.choice fun part member => safe _ _
      (List.mem_append_left _ member)) machine failed
  | times _ matched => exact typed_after (safe_blocks.times (safe _ _ (.head [])) _) machine matched
  | many _ rounds => exact typed_repeats (safe _ _ (.head [])) rounds machine
  | many1_later matched _ rounds =>
    exact typed_repeats (safe _ _ (.head [])) rounds
      (typed_after (safe _ _ (.head [])) machine matched)
  | sepBy_separator either matched _ rounds =>
    have members := Kept.separated_parts either
    exact typed_repeats (safe_blocks.bind (safe _ _ members.2) fun _ => safe _ _ members.1) rounds
      (typed_after (safe _ _ members.1) machine matched)
  | sepBy_later either matched _ rounds separated =>
    have members := Kept.separated_parts either
    have first := typed_after (safe _ _ members.1) machine matched
    exact typed_after (safe _ _ members.2) (typed_repeats
      (safe_blocks.bind (safe _ _ members.2) fun _ => safe _ _ members.1) rounds first) separated
  | many1_first | sepBy_first | attempt | optional | ahead | ifArg_yes | ifArg_no | textOf | tag =>
    exact machine
  | notHere | atomic | expect => exact machine.pushFrame _
  | precedence | precedenceArg | atLevel => exact machine.setLevel _
  | @call n done args passed shape key argTerms definition call asking start middle found resolved own
      begun left regrows =>
    have body := pure.body found
    have typedShape := admitted.2.shape found
    subst own typedShape
    obtain ⟨asked, rfl, same⟩ := opened_of_begun begun
    have begins : asked.Typed shapes := by
      rcases same with rfl | rfl
      next => exact machine.report _ _
      next => exact (machine.report _ _).report _ _
    exact typed_regrows (callOf definition.rule passed asking) (pure.orderly n passed body)
      (typed.safe pure n passed body (typed.body found)) regrows (typed_opened begins _) rfl

theorem Typed.visits (typed : grammar.Typed shapes) (pure : grammar.Pure)
    (visits : outer.Visits grammar inner)
    (admitted : outer.term.Pure ∧ outer.term.Typed grammar shapes)
    (machine : outer.machine.Typed shapes) :
    (inner.term.Pure ∧ inner.term.Typed grammar shapes) ∧ inner.machine.Typed shapes := by
  induction visits with
  | refl => exact ⟨admitted, machine⟩
  | tail _ has ih =>
    exact ⟨((typed.kept pure).sees has ih.1).1, typed.has pure has ih.1 ih.2⟩

end Visits

end Grammar

end Packrat
