import Packrat.Proofs.WriteOnce

set_option autoImplicit false

namespace Packrat

open Packrat.Parser (opened settle popped stashed settled inactive_of_find?)

variable {ν : Type}

namespace Step

def enters : Step ν → Bool
  | .entering => true
  | _ => false

def checks : Step ν → Bool
  | .checked _ => true
  | _ => false

def hits : Step ν → Bool
  | .checked hit => hit
  | _ => false

def reenters : Step ν → Bool
  | .reentered _ => true
  | _ => false

def grows : Step ν → Bool
  | .grew => true
  | _ => false

def calm : Step ν → Bool
  | .reentered _ => false
  | .failed failure => failure.recoverable
  | _ => true

end Step

def Signal.calm : Signal ν → Bool
  | .step _ _ taken => taken.calm
  | _ => true

def Signal.marks (call : Call) (test : Step ν → Bool) : Signal ν → Bool
  | .step other _ taken => other = call && test taken
  | _ => false

def often (call : Call) (test : Step ν → Bool) (history : List (Signal ν)) : Nat :=
  (since history).countP (Signal.marks call test)

/-- How often the body of a call ran since a text was bound: once whenever the call was made and answered
neither by the memo table nor by its seed, and once more for each seed. -/
def bodyRuns (call : Call) (history : List (Signal ν)) : Nat :=
  often call Step.enters history - often call Step.hits history - often call Step.reenters history +
    often call Step.grows history

def Calm (history : List (Signal ν)) : Prop :=
  ∀ signal ∈ since history, signal.calm = true

instance (history : List (Signal ν)) : Decidable (Calm history) :=
  inferInstanceAs (Decidable (∀ signal ∈ since history, signal.calm = true))

section History

variable {signal : Signal ν} {history : List (Signal ν)} {call other : Call} {index : Nat}
  {test : Step ν → Bool}

@[simp] theorem often_step (step : Step ν) :
    often call test (.step other index step :: history) =
      often call test history + if other = call ∧ test step = true then 1 else 0 := by
  have head : since (.step other index step :: history) = .step other index step :: since history :=
    since_cons rfl
  simp [often, head, List.countP_cons, Signal.marks]

@[simp] theorem often_bound (source : Source) : often call test (.bound source :: history) = 0 := rfl

theorem often_idle (idle : signal.Idle) : often call test (signal :: history) = often call test history := by
  have unmarked : signal.marks call test = false := by
    cases signal <;> first | rfl | exact idle.elim
  simp [often, since_cons idle.binds, unmarked]

@[simp] theorem Step.uncounted_ended (outcome : Except Failure ν) :
    Step.enters (.ended outcome) = false ∧ Step.checks (.ended outcome) = false ∧
      Step.hits (.ended outcome) = false ∧ Step.grows (.ended outcome) = false := by
  cases outcome <;> exact ⟨rfl, rfl, rfl, rfl⟩

theorem Calm.older (calm : Calm (signal :: history)) (unbound : signal.binds = false) : Calm history := by
  intro older member
  exact calm older (since_cons unbound ▸ List.mem_cons_of_mem signal member)

theorem Calm.step {step : Step ν} (calm : Calm (.step call index step :: history)) :
    step.calm = true ∧ Calm history :=
  ⟨calm (.step call index step) List.mem_cons_self, calm.older rfl⟩

end History

namespace Moment

open Packrat.Grammar

variable {grammar : Grammar} {before after : Moment}

theorem Declared.memoized {config : Config} {own : Pending} (declared : Declared grammar config own)
    (memoizes : config.memoize = true)
    (all : ∀ entry ∈ grammar.definitions, entry.2.rule.name = own.call.rule →
      entry.2.rule.memoized = true) : own.memoized = true := by
  obtain ⟨key, definition, found, named, same⟩ := declared
  rw [same, all _ (mem_of_find? found) named, memoizes]
  rfl

def Unmarked (moment : Moment) : Prop :=
  Calm moment.history → ∀ activation ∈ moment.machine.active.activations,
    activation.recursive = false ∧ activation.tainted = false

structure Asked (grammar : Grammar) (config : Config) (call : Call) (moment : Moment) : Prop where
  fewer : often call Step.checks moment.history ≤ often call Step.enters moment.history
  unasked : ⟨call, false⟩ ∈ moment.pending →
    often call Step.checks moment.history < often call Step.enters moment.history
  always : config.memoize = true →
    (∀ entry ∈ grammar.definitions, entry.2.rule.name = call.rule → entry.2.rule.memoized = true) →
      often call Step.enters moment.history = often call Step.checks moment.history

structure Frugal (call : Call) (moment : Moment) : Prop where
  ungrown : often call Step.grows moment.history = 0
  -- A call that is always looked up has been stored once it is closed.
  spent : often call Step.enters moment.history = often call Step.checks moment.history →
    0 < often call Step.enters moment.history →
      call ∈ puts moment.history ∨ ⟨call, true⟩ ∈ moment.pending
  once : often call Step.enters moment.history = often call Step.checks moment.history →
    often call Step.enters moment.history ≤ often call Step.hits moment.history + 1

structure Counted (grammar : Grammar) (config : Config) (call : Call) (moment : Moment) : Prop where
  asked : moment.Asked grammar config call
  frugal : Calm moment.history → moment.Frugal call

section Counts

variable {config : Config} {call : Call} {machine last : Machine Stored} {pending : List Pending}
  {past : List (Signal Stored)}

theorem Asked.made (asked : before.Asked grammar config call) {memoized : Bool}
    (declared : Declared grammar config ⟨call, memoized⟩)
    (enters : often call Step.enters after.history = often call Step.enters before.history + 1)
    (checks : often call Step.checks after.history =
      often call Step.checks before.history + if memoized = true then 1 else 0)
    (opened : ⟨call, false⟩ ∈ after.pending → memoized = true → ⟨call, false⟩ ∈ before.pending) :
    after.Asked grammar config call := by
  obtain ⟨fewer, unasked, always⟩ := asked
  cases memoized with
  | false =>
    simp only [Bool.false_eq_true, if_false] at checks
    refine ⟨by omega, fun _ => by omega, fun memoizes all => ?_⟩
    cases declared.memoized memoizes all
  | true =>
    simp only [if_true] at checks
    refine ⟨by omega, fun member => ?_, fun memoizes all => ?_⟩
    next =>
      have former := unasked (opened member rfl)
      omega
    next =>
      have former := always memoizes all
      omega

theorem Asked.still (asked : before.Asked grammar config call)
    (counts : ∀ test ∈ [Step.enters, Step.checks],
      often call test after.history = often call test before.history)
    (unasked : ⟨call, false⟩ ∈ after.pending → ⟨call, false⟩ ∈ before.pending) :
    after.Asked grammar config call := by
  have enters := counts Step.enters (by simp)
  have checks := counts Step.checks (by simp)
  refine ⟨?_, ?_, ?_⟩ <;> rw [enters, checks]
  next => exact asked.fewer
  next => exact asked.unasked ∘ unasked
  next => exact asked.always

theorem Counted.still (counted : before.Counted grammar config call)
    (calm : Calm after.history → Calm before.history)
    (counts : ∀ test ∈ [Step.enters, Step.checks, Step.hits, Step.grows],
      often call test after.history = often call test before.history)
    (unasked : ⟨call, false⟩ ∈ after.pending → ⟨call, false⟩ ∈ before.pending)
    (spent : Calm after.history → call ∈ puts before.history ∨ ⟨call, true⟩ ∈ before.pending →
      call ∈ puts after.history ∨ ⟨call, true⟩ ∈ after.pending) :
    after.Counted grammar config call := by
  obtain ⟨asked, frugal⟩ := counted
  have enters := counts Step.enters (by simp)
  have checks := counts Step.checks (by simp)
  have hits := counts Step.hits (by simp)
  have grows := counts Step.grows (by simp)
  have same : ∀ test ∈ [Step.enters, Step.checks],
      often call test after.history = often call test before.history :=
    fun test member => counts test (List.mem_append_left [Step.hits, Step.grows] member)
  refine ⟨asked.still same unasked, fun quiet => ⟨?_, ?_, ?_⟩⟩ <;>
    simp only [enters, checks, hits, grows]
  next => exact (frugal (calm quiet)).ungrown
  next => exact fun always made => spent quiet ((frugal (calm quiet)).spent always made)
  next => exact (frugal (calm quiet)).once

def Foreign (call : Call) (added : List (Signal Stored)) : Prop :=
  ∀ signal ∈ added, ∃ other index step, signal = .step other index step ∧ other ≠ call

theorem Foreign.counts {added history : List (Signal Stored)} (foreign : Foreign call added) :
    (∀ test, often call test (added ++ history) = often call test history) ∧
      (call ∈ puts history → call ∈ puts (added ++ history)) ∧
      (Calm (added ++ history) → Calm history) := by
  induction added with
  | nil => exact ⟨fun _ => rfl, id, id⟩
  | cons signal added ih =>
    obtain ⟨counts, stored, calm⟩ := ih fun other member => foreign other (List.mem_cons_of_mem _ member)
    obtain ⟨other, index, step, rfl, different⟩ := foreign signal List.mem_cons_self
    refine ⟨fun test => ?_, fun put => ?_, fun quiet => calm quiet.step.2⟩
    next => simp [different, counts]
    next =>
      have later := stored put
      cases step with
      | stored => exact List.mem_cons_of_mem _ later
      | entering | checked | reentered | grew | withheld | leaving | failed => exact later

theorem Counted.foreign (counted : before.Counted grammar config call) {added : List (Signal Stored)}
    (same : after.history = added ++ before.history) (foreign : Foreign call added)
    (pending : ∀ memoized, ⟨call, memoized⟩ ∈ after.pending ↔ ⟨call, memoized⟩ ∈ before.pending) :
    after.Counted grammar config call := by
  obtain ⟨counts, stored, calm⟩ := @Foreign.counts call added before.history foreign
  rw [← same] at counts stored calm
  exact counted.still calm (fun test _ => counts test) (pending false).mp fun _ =>
    .imp stored (pending true).mpr

theorem Counted.bound (closed : before.pending = []) (source : Source) :
    Counted grammar config call { before with machine := before.machine.bind source } :=
  ⟨⟨Nat.le_refl _, fun member => by simp [closed] at member, fun _ _ => rfl⟩,
    fun _ => ⟨rfl, fun _ made => (Nat.lt_irrefl 0 made).elim, fun _ => Nat.zero_le _⟩⟩

theorem Counted.hit (counted : Counted grammar config call ⟨machine, pending, past⟩)
    {verdict : Verdict Stored} (outcome : Except Failure Stored)
    (declared : Declared grammar config ⟨call, true⟩) (stored : call ∈ puts (machine.journal ++ past)) :
    Counted grammar config call ⟨machine.answered call verdict outcome, pending, past⟩ := by
  have counts (test : Step Stored → Bool) (silent : test (.ended outcome) = false) :
      often call test (Moment.history ⟨machine.answered call verdict outcome, pending, past⟩) =
        often call test (machine.journal ++ past) + (if test .entering = true then 1 else 0) +
          if test (.checked true) = true then 1 else 0 := by
    simp [Moment.history, Machine.answered, Machine.report, Machine.write, silent]
  have enters := counts Step.enters (by simp)
  have checks := counts Step.checks (by simp)
  have hits := counts Step.hits (by simp)
  have grows := counts Step.grows (by simp)
  refine ⟨counted.asked.made declared enters checks fun member _ => member, fun calm => ?_⟩
  obtain ⟨ungrown, _, once⟩ := counted.frugal (calm.step.2.step.2 : Calm _).step.2
  refine ⟨grows.trans ungrown, fun _ _ => .inl ((puts_ended outcome).symm ▸ stored), ?_⟩
  rw [enters, checks, hits]
  exact fun always => Nat.succ_le_succ (once (Nat.succ.inj always))

theorem often_missed (machine : Machine Stored) (other : Call) (memoized : Bool)
    (past : List (Signal Stored)) (test : Step Stored → Bool) :
    often call test ((machine.missed other memoized).journal ++ past) =
      often call test (machine.journal ++ past) + (if other = call ∧ test .entering = true then 1 else 0) +
        if memoized = true ∧ other = call ∧ test (.checked false) = true then 1 else 0 := by
  cases memoized <;> simp [Machine.missed, Machine.report, Machine.write]

theorem Asked.reentered {own : Pending} (asked : Asked grammar config call ⟨machine, pending, past⟩)
    (declared : Declared grammar config own) (cursor : Cursor) (seeded : Bool)
    (outcome : Except Failure Stored) :
    Asked grammar config call
      ⟨(({ machine.missed own.call own.memoized with active := machine.active.reenter own.call }.report
        own.call (.reentered seeded)).moveTo cursor).report own.call (.ended outcome), pending, past⟩ := by
  obtain ⟨other, memoized⟩ := own
  have counts (test : Step Stored → Bool)
      (silent : test (.reentered seeded) = false ∧ test (.ended outcome) = false) :
      often call test (Moment.history ⟨(({ machine.missed other memoized with
        active := machine.active.reenter other }.report other (.reentered seeded)).moveTo cursor).report
          other (.ended outcome), pending, past⟩) =
        often call test ((machine.missed other memoized).journal ++ past) := by
    simp [Moment.history, Machine.report, Machine.write, Machine.moveTo, silent]
  have enters := counts Step.enters ⟨rfl, by simp⟩
  have checks := counts Step.checks ⟨rfl, by simp⟩
  have missed := @often_missed call machine other memoized past
  by_cases same : other = call
  next =>
    subst same
    refine asked.made declared ?_ ?_ fun member _ => member
    next =>
      rw [enters, missed]
      simp [Step.enters, Moment.history]
    next =>
      rw [checks, missed]
      simp [Step.checks, Moment.history]
  next =>
    refine asked.still ?_ id
    simp only [List.forall_mem_cons, List.not_mem_nil, false_implies, implies_true, and_true, enters,
      checks, missed, same, false_and, and_false, if_false]
    exact ⟨rfl, rfl⟩

theorem calm_missed {memoized : Bool} (calm : Calm ((machine.missed call memoized).journal ++ past)) :
    Calm (machine.journal ++ past) := by
  cases memoized with
  | false => exact calm.step.2
  | true => exact (calm.step.2 : Calm (.step call machine.cursor.index .entering :: _)).step.2

theorem often_begun (machine : Machine Stored) (call : Call) (memoized : Bool)
    (past : List (Signal Stored)) :
    often call Step.enters ((machine.missed call memoized).journal ++ past) =
        often call Step.enters (machine.journal ++ past) + 1 ∧
      often call Step.checks ((machine.missed call memoized).journal ++ past) =
        (often call Step.checks (machine.journal ++ past) + if memoized = true then 1 else 0) ∧
      often call Step.hits ((machine.missed call memoized).journal ++ past) =
        often call Step.hits (machine.journal ++ past) ∧
      often call Step.grows ((machine.missed call memoized).journal ++ past) =
        often call Step.grows (machine.journal ++ past) := by
  have counts := @often_missed call machine call memoized past
  refine ⟨?_, ?_, ?_, ?_⟩
  next => simpa [Step.enters] using counts Step.enters
  next => simpa [Step.checks] using counts Step.checks
  next => simpa [Step.hits] using counts Step.hits
  next => simpa [Step.grows] using counts Step.grows

theorem Frugal.unmade (frugal : Frugal call ⟨machine, pending, past⟩)
    (tallied : Tallied config ⟨machine, pending, past⟩) (unknown : machine.memo.find? call = none)
    (inactive : machine.active.find? call = none)
    (always : often call Step.enters (machine.journal ++ past) =
      often call Step.checks (machine.journal ++ past)) :
    often call Step.enters (machine.journal ++ past) = 0 := by
  have absent : call ∉ puts (machine.journal ++ past) :=
    (tallied.find?_isSome call).not.mp (by simp [unknown])
  have new : call ∉ pending.map Pending.call := tallied.active ▸ inactive_of_find? inactive
  by_contra made
  rcases frugal.spent always (Nat.pos_of_ne_zero made) with stored | pended
  next => exact absent stored
  next => exact new (List.mem_map_of_mem pended)

theorem Counted.begun (counted : Counted grammar config call ⟨machine, pending, past⟩) {memoized : Bool}
    (tallied : Tallied config ⟨machine, pending, past⟩) (declared : Declared grammar config ⟨call, memoized⟩)
    (unknown : memoized = true → machine.memo.find? call = none)
    (inactive : machine.active.find? call = none) :
    Counted grammar config call
      ⟨opened call (machine.missed call memoized), ⟨call, memoized⟩ :: pending, past⟩ := by
  obtain ⟨enters, checks, hits, grows⟩ := often_begun machine call memoized past
  have fewer : often call Step.checks (machine.journal ++ past) ≤
      often call Step.enters (machine.journal ++ past) := counted.asked.fewer
  refine ⟨counted.asked.made declared enters checks fun member memo => ?_, fun calm => ?_⟩
  next =>
    rcases List.mem_cons.mp member with own | member
    next => simp [memo] at own
    next => exact member
  next =>
    have frugal := counted.frugal (calm_missed calm)
    -- A call that is not looked up has not been looked up whenever it was made.
    have looked : often call Step.enters ((machine.missed call memoized).journal ++ past) =
        often call Step.checks ((machine.missed call memoized).journal ++ past) →
          memoized = true := by
      intro always
      cases memoized with
      | false =>
        simp only [Bool.false_eq_true, if_false] at checks
        omega
      | true => rfl
    refine ⟨grows.trans frugal.ungrown, fun always _ => ?_, fun always => ?_⟩
    next =>
      cases looked always
      exact .inr List.mem_cons_self
    next =>
      cases looked always
      simp only [if_true] at checks
      replace always : often call Step.enters ((machine.missed call true).journal ++ past) =
        often call Step.checks ((machine.missed call true).journal ++ past) := always
      have unmade := frugal.unmade tallied (unknown rfl) inactive (by omega)
      change often call Step.enters ((machine.missed call true).journal ++ past) ≤
        often call Step.hits ((machine.missed call true).journal ++ past) + 1
      omega

theorem calm_closed {own : Pending} {outcome : Except Failure Stored}
    (calm : Calm (Moment.history ⟨(settle own.call own.memoized outcome machine).report own.call
      (.ended outcome), pending, past⟩)) :
    (∀ failure, outcome = .error failure → failure.recoverable = true) ∧
      Calm (machine.journal ++ past) := by
  have ended := calm.step
  refine ⟨?_, ?_⟩
  next =>
    rintro failure rfl
    exact ended.1
  next =>
    replace ended := ended.2
    have result := settled own.call own.memoized outcome machine
    generalize settle own.call own.memoized outcome machine = last at result ended
    cases result with
    | withheld | stored => exact ended.step.2
    | dropped => exact ended

theorem often_closed {own : Pending} {outcome : Except Failure Stored} {test : Step Stored → Bool}
    (silent : test .withheld = false ∧ test .stored = false ∧ test (.ended outcome) = false) :
    often call test (Moment.history ⟨(settle own.call own.memoized outcome machine).report own.call
      (.ended outcome), pending, past⟩) = often call test (machine.journal ++ past) := by
  obtain ⟨withheld, stored, ended⟩ := silent
  have result := settled own.call own.memoized outcome machine
  generalize settle own.call own.memoized outcome machine = last at result ⊢
  cases result <;>
    simp [Moment.history, Machine.report, Machine.write, popped, stashed, withheld, stored, ended]

theorem Counted.closed {own : Pending} (counted : Counted grammar config call ⟨machine, own :: pending, past⟩)
    (unmarked : Unmarked ⟨machine, own :: pending, past⟩) (outcome : Except Failure Stored) :
    Counted grammar config call ⟨(settle own.call own.memoized outcome machine).report own.call
      (.ended outcome), pending, past⟩ := by
  refine counted.still (fun calm => (calm_closed calm).2) ?_ (List.mem_cons_of_mem _) ?_
  next =>
    intro test member
    apply often_closed
    simp only [List.mem_cons, List.not_mem_nil, or_false] at member
    rcases member with rfl | rfl | rfl | rfl <;> exact ⟨rfl, rfl, by simp⟩
  next =>
    intro calm spent
    obtain ⟨final, earlier⟩ := calm_closed calm
    have untainted : machine.active.innermost?.any Activation.tainted = false := by
      rw [← Bool.not_eq_true, Option.any_eq_true]
      rintro ⟨activation, innermost, tainted⟩
      have clean := (unmarked earlier activation (List.mem_of_head? innermost)).2
      cases clean.symm.trans tainted
    have result := settled own.call own.memoized outcome machine
    generalize settle own.call own.memoized outcome machine = last at result ⊢
    cases result with
    | withheld tainted => cases untainted.symm.trans tainted
    | dropped _ unstored =>
      refine spent.imp (fun stored => (puts_ended outcome).symm ▸ stored) fun pended => ?_
      rcases List.mem_cons.mp pended with rfl | outer
      next =>
        obtain ⟨failure, rfl, fatal⟩ := unstored rfl
        cases fatal.symm.trans (final failure rfl)
      next => exact outer
    | stored =>
      rcases spent with stored | pended
      next => exact .inl ((puts_stored _ outcome).symm ▸ List.mem_cons_of_mem _ stored)
      next =>
        rcases List.mem_cons.mp pended with rfl | outer
        next => exact .inl ((puts_stored _ outcome).symm ▸ List.mem_cons_self)
        next => exact .inr outer

theorem Next.unmarked (next : Next grammar before after) (unmarked : before.Unmarked) : after.Unmarked := by
  cases next with
  | aside | handed => exact unmarked
  | told _ idle => exact fun calm => unmarked (calm.older idle.binds)
  | bound => exact fun _ _ member => nomatch member
  | hit => exact fun calm => unmarked (calm.step.2.step.2 : Calm (.step _ _ .entering :: _)).step.2
  | reentered => exact fun calm => nomatch (calm.step.2 : Calm (.step _ _ (.reentered _) :: _)).step.1
  | begun =>
    intro calm activation member
    rcases List.mem_cons.mp member with rfl | outer
    next => exact ⟨rfl, rfl⟩
    next =>
      rw [Machine.active_missed] at outer
      exact unmarked (calm_missed calm) activation outer
  | regrown seed innermost recursive =>
    intro calm
    have clean := (unmarked calm.step.2 _ (List.mem_of_head? innermost)).1
    cases clean.symm.trans recursive
  | closed outcome =>
    intro calm activation member
    change activation ∈ (settle _ _ outcome _).active.activations at member
    rw [(Parser.popped_settle _ _ outcome _).active] at member
    exact unmarked (calm_closed calm).2 activation (List.mem_of_mem_tail member)

theorem Next.counted (next : Next grammar before after) (outside : BoundOutside after.history)
    (tallied : before.Tallied config) (unmarked : before.Unmarked)
    (counted : before.Counted grammar config call) : after.Counted grammar config call := by
  cases next with
  | aside | handed => exact counted.still id (fun _ _ => rfl) id fun _ => id
  | told _ idle =>
    exact counted.still (·.older idle.binds) (fun _ _ => often_idle idle) id fun _ =>
      .imp_left (puts_cons idle.binds idle.put? ▸ id)
  | bound _ source =>
    exact .bound (tallied.unopened outside) source
  | @hit machine pending past own verdict outcome declared stored =>
    have declared : Declared grammar config ⟨own, true⟩ := tallied.config ▸ declared
    by_cases same : own = call
    next =>
      subst same
      exact counted.hit outcome declared ((tallied.find?_isSome own).mp (by simp [stored]))
    next =>
      refine @Counted.foreign _ _ _ _ _ counted [_, _, _] rfl ?_ fun _ => Iff.rfl
      simp [Foreign, same]
  | @reentered machine pending past own activation cursor seeded outcome declared unknown active =>
    have declared : Declared grammar config own := tallied.config ▸ declared
    refine ⟨?_, fun calm => nomatch (calm.step.2 : Calm (.step _ _ (.reentered _) :: _)).step.1⟩
    exact counted.asked.reentered declared cursor seeded outcome
  | @begun machine pending past own declared unknown inactive =>
    obtain ⟨other, memoized⟩ := own
    by_cases same : other = call
    next =>
      subst same
      exact counted.begun tallied (tallied.config ▸ declared) unknown inactive
    next =>
      have pended (flag : Bool) : ⟨call, flag⟩ ∈ (⟨other, memoized⟩ : Pending) :: pending ↔
          ⟨call, flag⟩ ∈ pending := by
        simp [Ne.symm same]
      cases memoized with
      | false =>
        refine @Counted.foreign _ _ _ _ _ counted [_] rfl ?_ pended
        simp [Foreign, same]
      | true =>
        refine @Counted.foreign _ _ _ _ _ counted [_, _] rfl ?_ pended
        simp [Foreign, same]
  | @regrown machine pending past own activation seed innermost recursive =>
    refine ⟨counted.asked.still (fun test member => ?_) id, fun calm => ?_⟩
    next =>
      have silent : test .grew = false := by
        simp only [List.mem_cons, List.not_mem_nil, or_false] at member
        rcases member with rfl | rfl <;> rfl
      simp [Moment.history, Machine.report, Machine.write, silent]
    next =>
      have clean := (unmarked calm.step.2 activation (List.mem_of_head? innermost)).1
      cases clean.symm.trans recursive
  | closed outcome => exact counted.closed unmarked outcome

end Counts

theorem Passes.kept {source : Source} {config : Config} {moment : Moment}
    (passes : Passes grammar (.start source config) moment) (outside : BoundOutside moment.history) :
    moment.Tallied config ∧ moment.Unmarked ∧ ∀ call, moment.Counted grammar config call := by
  induction passes with
  | refl =>
    refine ⟨.start source config, fun _ _ member => (nomatch member), fun call => ⟨?_, fun _ => ?_⟩⟩
    next => exact ⟨Nat.le_refl _, (nomatch ·), fun _ _ => rfl⟩
    next => exact ⟨rfl, fun _ made => (Nat.lt_irrefl 0 made).elim, fun _ => Nat.zero_le _⟩
  | tail _ next ih =>
    obtain ⟨added, same⟩ := next.history
    obtain ⟨tallied, unmarked, counted⟩ := ih (same ▸ outside).older
    exact ⟨next.tallied outside tallied, next.unmarked unmarked,
      fun call => next.counted outside tallied unmarked (counted call)⟩

end Moment

end Packrat
