import Packrat.Proofs.Frames
import Packrat.Proofs.Logging
import Packrat.Proofs.Termination

set_option autoImplicit false

namespace Packrat

variable {ν : Type}

namespace Machine

def Told (start : Nat) (before after : Machine ν) : Prop :=
  ∃ added, after.journal = added ++ before.journal ∧
    (∀ report ∈ expectations added, start ≤ report.1) ∧
    after.farthest.innermost = before.farthest.innermost.registerAll (expectations added)

namespace Told

variable {start later : Nat} {before middle after : Machine ν}

theorem refl (start : Nat) (machine : Machine ν) : Told start machine machine :=
  ⟨[], rfl, by simp [expectations], rfl⟩

theorem trans (first : Told start before middle) (second : Told start middle after) :
    Told start before after := by
  obtain ⟨added, journal, within, frame⟩ := first
  obtain ⟨more, extended, beyond, registered⟩ := second
  refine ⟨more ++ added, by rw [extended, journal, List.append_assoc], ?_, ?_⟩
  next =>
    intro report member
    rw [expectations_append, List.mem_append] at member
    exact member.elim (within report) (beyond report)
  next => rw [registered, frame, expectations_append, Farthest.Frame.registerAll_append]

theorem mono (told : Told later before after) (le : start ≤ later) : Told start before after := by
  obtain ⟨added, journal, within, frame⟩ := told
  exact ⟨added, journal, fun report member => Nat.le_trans le (within report member), frame⟩

theorem report (told : Told start before after) (call : Call) (step : Step ν) :
    Told start before (after.report call step) := by
  obtain ⟨added, journal, rest⟩ := told
  exact ⟨.step call after.cursor.index step :: added, by simp [Machine.report, write, journal], rest⟩

theorem register {index : Nat} (told : Told start before after) (le : start ≤ index)
    (label : String) : Told start before (after.register index label) := by
  refine told.trans ⟨[.expected index label], rfl, ?_, rfl⟩
  simpa [expectations, Signal.expectation?] using le

end Told

structure Plain (machine : Machine ν) : Prop where
  -- From beyond the end of its text, a run of characters would stop at the end, before where it began.
  within : machine.cursor.index ≤ machine.source.size
  unmemoized : machine.config.memoize = false

structure Accounted (before after : Machine ν) : Prop extends before.Further after where
  told : before.Plain → Told before.cursor.index before after

variable {before after : Machine ν}

theorem Plain.further (plain : before.Plain) (further : before.Further after) : after.Plain where
  within :=
    further.advanced.source ▸ further.advanced.reaches.le_of_le (Nat.le_refl _) plain.within
  unmemoized := further.later.config ▸ plain.unmemoized

theorem Accounted.passage : Parser.Passage (ν := ν) Machine.Sound Accounted where
  refl sound := ⟨.refl sound, fun _ => .refl _ _⟩
  trans first second :=
    { first.toFurther.trans second.toFurther with
      told := fun plain =>
        have rest := second.told (plain.further first.toFurther)
        (first.told plain).trans (rest.mono (first.advanced.reaches.index_le plain.within)) }
  ready _ accounted := accounted.advanced.sound
  moveTo accounted reaches := { accounted.toFurther.moveTo reaches with told := accounted.told }
  register label accounted reaches :=
    { accounted.toFurther.register _ label with
      told := fun plain => (accounted.told plain).register (reaches.index_le plain.within) label }

theorem Accounted.putBack {level : Int32} (accounted : (before.setLevel level).Accounted after) :
    before.Accounted (after.setLevel before.cursor.level) where
  later := Parser.indifferent_later.course.putBack accounted.later
  advanced := Parser.course_advanced.putBack accounted.advanced
  told plain := accounted.told ⟨plain.within, plain.unmemoized⟩

end Machine

namespace Parser

variable {α : Type}

def Accounts (parser : Parser ν α) : Prop :=
  ∀ machine : Machine ν, machine.Sound → machine.Accounted (Ending.machine (parser machine))

theorem accounts_sequential : Sequential (ν := ν) fun _ parser _ => Accounts parser :=
  Machine.Accounted.passage.sequential

theorem accounts_stop (failure : Failure) : Accounts (fail failure : Parser ν α) :=
  fun _ sound => Machine.Accounted.passage.refl sound

namespace Accounts

variable {parser : Parser ν α} (accounts : Accounts parser)

include accounts

theorem many (n : Nat) : Accounts (many parser n) :=
  @Sequential.many _ _ accounts_sequential α parser parser n n (fun _ => accounts_stop _)
    (Nat.le_refl n) accounts

theorem ahead : Accounts (ahead parser) :=
  fun _ sound => Machine.Accounted.passage.ahead accounts sound

theorem atLevel (level : Int32) : Accounts (atLevel level parser) := by
  intro machine sound
  have first := accounts (machine.setLevel level) { sound with }
  unfold Parser.atLevel
  cases ending : parser (machine.setLevel level) with
  | ok value after | error failure after =>
    rw [ending] at first
    exact first.putBack

theorem precedence (level : Int32) : Accounts (precedence level parser) :=
  @Sequential.precedence _ _ accounts_sequential α parser parser level (accounts.atLevel level)

end Accounts

section Invoke

variable {call : Call} {body : Parser ν α} {machine after : Machine ν}

theorem told_round (start : Nat) (codec : Codec ν α) (call : Call) (ending : Ending ν α) :
    Machine.Told start ending.machine (round codec call ending).machine := by
  have stay := Machine.Told.refl start ending.machine
  have moved (seed : Seed ν) : Machine.Told start ending.machine
      (Ending.machine (useSeed codec call seed ending.machine)) := by
    rw [machine_useSeed]
    exact stay
  cases ending with
  | error failure after =>
    simp only [round]
    repeat' split
    all_goals first | exact stay | exact moved _
  | ok value after =>
    simp only [round]
    repeat' split
    all_goals first | exact stay | exact moved _ | exact stay.report call .grew

theorem told_grow (codec : Codec ν α) (accounts : Accounts body) (n : Nat) (sound : machine.Sound)
    (plain : machine.Plain) (origin : machine.cursor = call.cursor)
    (own : machine.calls.head? = some call) :
    Machine.Told call.cursor.index machine
      (Ending.machine (grow codec call body n machine)) := by
  induction n generalizing machine with
  | zero => exact .refl _ _
  | succ n ih =>
    have ran := accounts machine sound
    have first := ran.told plain
    rw [origin] at first
    have once := first.trans (told_round _ codec call (body machine))
    have running : (Ending.machine (body machine)).calls.head? = some call := ran.later.calls ▸ own
    have advanced := advanced_round codec ran.advanced origin running
    have inside := ran.later.inside.trans (inside_round codec call (body machine))
    rw [grow_succ]
    cases result : round codec call (body machine) with
    | done ending => rwa [result] at once
    | again next =>
      rw [result] at once advanced inside
      have again := cursor_of_again result
      -- Every round begins where the call does, so none tells anything before that.
      have still : next.Plain := by
        refine ⟨?_, inside.config ▸ plain.unmemoized⟩
        have same : next.source = machine.source := advanced.source
        rw [again, ← origin, same]
        exact plain.within
      exact once.trans (ih advanced.sound still again (inside.calls ▸ own))

theorem told_settle {memoized : Bool} (inside : (opened call machine).Inside after)
    (told : Machine.Told call.cursor.index (opened call machine) after)
    (outcome : Except Failure ν) :
    Machine.Told call.cursor.index machine (settle call memoized outcome after) := by
  obtain ⟨added, journal, within, frame⟩ := told
  have closed : Machine.Told call.cursor.index machine (popped after) := by
    refine ⟨added, journal, within, ?_⟩
    have merged := innermost_popMerge inside
    rw [frame] at merged
    exact merged.trans (Farthest.Frame.merge_registerAll _ fun report member _ => within report member)
  have result := settled call memoized outcome after
  generalize settle call memoized outcome after = last at result ⊢
  cases result with
  | withheld => exact closed.report call .withheld
  | dropped => exact closed
  | stored => exact closed.report call .stored

theorem told_evaluate (codec : Codec ν α) (orderly : Orderly body) (accounts : Accounts body)
    (n : Nat) (memoized : Bool) (sound : machine.Sound) (plain : machine.Plain)
    (origin : machine.cursor = call.cursor) :
    Machine.Told call.cursor.index machine
      (Ending.machine (evaluate codec call memoized body n machine)) := by
  have stay := Machine.Told.refl call.cursor.index machine
  unfold evaluate
  split
  next activation found =>
    obtain ⟨cursor, ran⟩ := machine_reenter codec call activation machine
    rw [ran]
    exact stay.report call _
  next =>
    have inside : (opened call machine).Inside
        (Ending.machine (grow codec call body n (opened call machine))) := inside_grow orderly n _
    have grown := told_grow codec accounts n (sound_opened sound call)
      ⟨plain.within, plain.unmemoized⟩ origin rfl
    rw [activate_eq]
    generalize grow codec call body n (opened call machine) = ending at inside grown ⊢
    cases ending with
    | ok value after => exact told_settle inside grown _
    | error failure after => exact told_settle (inside.moveTo call.cursor) grown _

theorem Accounts.invoke (accounts : Accounts body) (orderly : Orderly body)
    (advances : Advances body) (codec : Codec ν α) (rule : Rule) (args : List Arg) (n : Nat) :
    Accounts (invoke codec rule args body n) := by
  intro machine sound
  refine ⟨⟨orderly.invoke codec rule args n machine,
    advances.invoke orderly codec rule args n machine sound⟩, fun plain => ?_⟩
  have entered := (Machine.Told.refl machine.cursor.index machine).report
    (callOf rule args machine) .entering
  have entry : (machine.report (callOf rule args machine) .entering).Sound := { sound with }
  have own : (callOf rule args machine).cursor = machine.cursor := rfl
  have told := entered.trans
    (told_evaluate codec orderly accounts n false entry ⟨plain.within, plain.unmemoized⟩ own.symm)
  rw [invoke_eq, plain.unmemoized, Bool.and_false]
  simp only [answer, Bool.false_eq_true, if_false]
  cases ending : evaluate codec (callOf rule args machine) false body n
      (machine.report (callOf rule args machine) .entering) with
  | ok value after | error failure after =>
    rw [ending] at told
    exact told.report _ _

end Invoke

end Parser

namespace Grammar

open Packrat.Parser
open Trace.Audience (loggers)

def Term.flat : Term → Bool
  | .notHere _ _ | .atomic _ _ | .expect _ _ | .registerAt _ _ | .failAt _ _ => false
  | _ => true

def Term.Flat (term : Term) : Prop :=
  term.all Term.flat = true

instance (term : Term) : Decidable term.Flat :=
  inferInstanceAs (Decidable (_ = true))

def Flat (grammar : Grammar) : Prop :=
  ∀ entry ∈ grammar.definitions, entry.2.body.Flat

instance (grammar : Grammar) : Decidable grammar.Flat :=
  inferInstanceAs (Decidable (∀ entry ∈ grammar.definitions, entry.2.body.Flat))

theorem Term.accounts {grammar : Grammar} {n : Nat} {args : List Arg} {term : Term}
    (plain : term.plain = true) (flat : term.flat = true)
    (parts : ∀ part ∈ term.parts, Accounts (part.parser grammar n args))
    (call : ∀ shape key argTerms, term = .call shape key argTerms →
      Accounts (term.parser grammar (n + 1) args)) :
    Accounts (term.parser grammar (n + 1) args) := by
  have anchored : term.anchored = true := by
    cases term <;> first | rfl | cases flat
  refine @Term.sequenced _ accounts_sequential grammar grammar n n args term plain anchored
    (fun wraps => ?_) parts (fun accounts => accounts.many n) call
  cases term <;> simp only [Term.wraps, Term.flat, Bool.false_eq_true] at wraps flat
  case ahead term => exact (parts term (by simp [Term.parts])).ahead
  case precedence level term | precedenceArg level term =>
    exact (parts term (by simp [Term.parts])).precedence _
  case atLevel level term => exact (parts term (by simp [Term.parts])).atLevel level

theorem Flat.accounts {grammar : Grammar} (flat : grammar.Flat) (pure : grammar.Pure) (n : Nat)
    (args : List Arg) {term : Term} (termPure : term.Pure) (termFlat : term.Flat) :
    Accounts (term.parser grammar n args) := by
  refine @Term.throughout (fun _ parser => Accounts parser) grammar
    (fun term => term.Pure ∧ term.Flat) (accounts_stop _) (accounts_stop _) ?_ ?_ ?_ ?_ n args term
    ⟨termPure, termFlat⟩
  next => exact fun fits => Term.accounts fits.1.plain (Term.passes_of_all fits.2)
  next => exact fun fits member => ⟨fits.1.part member, Term.all_of_part fits.2 member⟩
  next => exact fun _ found => ⟨pure.body found, flat _ (mem_of_find? found)⟩
  next =>
    intro _ _ _ _ _ _ _ found accounts
    have bodyPure := pure.body found
    exact accounts.invoke (pure.orderly _ _ bodyPure) (pure.advances _ _ bodyPure) _ _ _ _

/-- Rules are invisible to error reporting. However many activations with frames of their own a run goes
through, and however it ends, the innermost frame afterwards is the former one, whatever that is, with
all that was told to a log registered in it, one label after another and in the order of the log. -/
theorem Flat.frame_registers_log {grammar : Grammar} (flat : grammar.Flat) (pure : grammar.Pure)
    {term : Term} (termFlat : term.Flat) (termPure : term.Pure) (n : Nat) (args : List Arg)
    {session : Session Stored} (sound : session.machine.Sound)
    (within : session.machine.cursor.index ≤ session.machine.source.size)
    (unmemoized : session.machine.config.memoize = false)
    (handed : session.machine.journal = []) (alone : loggers session.audience.observers = 1) :
    let after := (session.run (term.parser grammar n args)).2
    ∃ reported, after.log.expectations.toList = session.log.expectations.toList ++ reported ∧
      after.machine.farthest =
        { session.machine.farthest with
          innermost := session.machine.farthest.innermost.registerAll reported } := by
  intro after
  have accounted := flat.accounts pure n args termPure termFlat session.machine sound
  obtain ⟨added, journal, _, frame⟩ := accounted.told ⟨within, unmemoized⟩
  rw [handed, List.append_nil] at journal
  have ran : after = _ := congrArg Prod.snd (term.run_eq grammar session n args)
  have book := Trace.Audience.logbook_read_alone alone added
  have log := congrArg Prod.fst book
  refine ⟨expectations added, ?_, ?_⟩
  next =>
    rw [ran]
    simp only [Session.publish, Session.log, journal]
    exact (congrArg (fun log => log.expectations.toList) log).trans
      (Trace.Audience.expectations_notes _ added)
  next =>
    rw [ran]
    exact congrArg₂ Farthest.Stack.mk frame accounted.later.outer

def resumed : Session Stored where
  machine :=
    { Machine.start (.ofString "-kxyx") { memoize := false } with
      cursor := { index := 1 }
      farthest := { innermost := { position := 5, labels := ["digit"] }, outer := [{}] } }
  audience :=
    { observers := [.rejecting, .log]
      shared := Trace.Shared.letLog 0 (fun _ => { expectations := #[(0, "sign")] }) {} }

theorem frame_registers_log_crossed :
    let term : Term := .sequence [.call .plain "A" [], .endOfInput]
    let after := (resumed.run (term.parser crossed 12 [])).2
    crossed.Flat ∧ crossed.Pure ∧ term.Flat ∧ term.Pure ∧ resumed.machine.Sound ∧
    resumed.machine.cursor.index ≤ resumed.machine.source.size ∧
    resumed.machine.config.memoize = false ∧ resumed.machine.journal = [] ∧
    loggers resumed.audience.observers = 1 ∧
    after.log.expectations = #[(0, "sign"), (1, "b"), (5, "y"), (4, "End Of Input")] ∧
    after.machine.farthest.innermost = { position := 5, labels := ["digit", "y"] } ∧
    ∃ reported, after.log.expectations.toList = resumed.log.expectations.toList ++ reported ∧
      after.machine.farthest =
        { resumed.machine.farthest with
          innermost := resumed.machine.farthest.innermost.registerAll reported } := by
  intro term after
  have flat : crossed.Flat := by decide
  have fresh := Machine.Sound.fresh (ν := Stored) resumed.machine.source resumed.machine.config
    { index := 1 }
  have sound : resumed.machine.Sound := { fresh with }
  have within : resumed.machine.cursor.index ≤ resumed.machine.source.size := by decide +kernel
  have termFlat : term.Flat := by decide
  have termPure : term.Pure := by decide
  have alone : loggers resumed.audience.observers = 1 := by decide
  have told : after.log.expectations = #[(0, "sign"), (1, "b"), (5, "y"), (4, "End Of Input")] := by
    decide +kernel
  have frame : after.machine.farthest.innermost = { position := 5, labels := ["digit", "y"] } := by
    decide +kernel
  have registers := @Flat.frame_registers_log crossed flat crossed_pure term termFlat termPure 12 []
    resumed sound within rfl rfl alone
  refine ⟨flat, crossed_pure, termFlat, termPure, sound, within, rfl, rfl, alone, told, frame, ?_⟩
  simpa only [after] using registers

end Grammar

end Packrat
