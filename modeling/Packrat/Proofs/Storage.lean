import Packrat.Proofs.Thrift

set_option autoImplicit false

namespace Packrat

open Packrat.Parser (opened settle callOf popped stashed settled inactive_of_find?)

variable {ν : Type}

theorem Nested.unbound {inner history : List (Signal ν)} (nested : Nested inner) {last : Signal ν}
    {call : Call} {start : Nat}
    (outside : BoundOutside (last :: (inner ++ .step call start .entering :: history))) :
    Unbound inner := by
  intro source member
  obtain ⟨newer, older, rfl⟩ := List.append_of_mem member
  have parts : newer ++ .bound source :: older = (newer ++ [.bound source]) ++ older := by simp
  have opened := nested.inside parts (.step call start .entering :: history)
  rw [outside (last :: newer) source (older ++ .step call start .entering :: history) (by simp)] at opened
  cases List.suffix_nil.mp opened

def Machine.Stays (before after : Machine ν) : Prop :=
  ∃ added, after.journal = added ++ before.journal ∧ (Unbound added → before.Inside after)

namespace Parser

theorem calling_stays : Machine.Calling (ν := ν) Machine.Stays where
  aside machine _ _ _ := ⟨[], rfl, fun _ => { (Machine.Later.refl machine).inside with }⟩
  trans := by
    rintro before middle after ⟨added, same, inside⟩ ⟨more, equal, further⟩
    refine ⟨more ++ added, by rw [equal, same, List.append_assoc], fun unbound => ?_⟩
    rw [Unbound.append] at unbound
    exact (inside unbound.2).trans (further unbound.1)
  register machine index label :=
    ⟨[_], rfl, fun _ => (Machine.Later.refl machine).inside.register index label⟩
  allow machine lines :=
    ⟨[.allowed lines], rfl, fun _ => (Machine.Later.refl machine).inside.write fun _ => rfl⟩
  dropFrame := fun ⟨added, same, inside⟩ => ⟨added, same, fun unbound => (inside unbound).dropFrame.1⟩
  checked machine call hit :=
    ⟨[_], rfl, fun _ => (Machine.Later.refl machine).inside.report call (.checked hit) trivial⟩
  merge machine _ := ⟨[], rfl, fun _ => { (Machine.Later.refl machine).inside with }⟩
  reenter {machine call activation} found seeded := by
    refine ⟨[_], rfl, fun _ => Machine.Later.inside ?_⟩
    have marked : machine.Later { machine with active := machine.active.reenter call } :=
      { Machine.Later.refl machine with
        active := ⟨Activation.follows_reenter call _, fun depth => Activation.beyond_reenter call depth _⟩ }
    exact marked.report call (.reentered seeded) trivial
  plant machine call seed := by
    refine ⟨[_], rfl, fun _ => ?_⟩
    have later := (Machine.Later.refl machine).inside.report call .grew trivial
    exact { later with active := Activation.grown_plant _ _ }
  settle {first machine after call memoized outcome} _ inactive unknown ran _ := by
    obtain ⟨added, same, inside⟩ := ran
    obtain ⟨more, equal⟩ := (popped_settle call memoized outcome after).journal
    refine ⟨more ++ added, by rw [equal, same, List.append_assoc]; rfl, fun unbound => ?_⟩
    exact (later_settle (inside (Unbound.append.mp unbound).2) (inactive_of_find? inactive) unknown
      outcome).inside
  reported {_ machine call} codec {ending} ran := by
    obtain ⟨added, same, inside⟩ := ran
    have stays (last : Signal ν) (closes : ∀ earlier, openCalls (last :: earlier) = (openCalls earlier).tail) :
        machine.Stays (ending.machine.write last) := by
      refine ⟨last :: (added ++ [.step call machine.cursor.index .entering]),
        by simp [Machine.write, same, Machine.report], fun unbound => ?_⟩
      have later := inside fun source member => unbound source (by simp [member])
      obtain ⟨more, equal, balanced⟩ := later.journal
      have journal : last :: ending.machine.journal =
          last :: (more ++ [.step call machine.cursor.index .entering]) ++ machine.journal := by
        simp [equal, Machine.report, Machine.write]
      exact { later with journal := ⟨_, journal, balanced.enclose closes⟩ }
    cases ending with
    | ok value after => exact stays _ fun _ => rfl
    | error failure after => exact stays _ fun _ => rfl

variable {α : Type} {codec : Codec ν α} {call : Call} {body : Parser ν α} {machine : Machine ν}
  {verdict : Verdict ν} {n : Nat} {memoized : Bool}

structure Stores (codec : Codec ν α) (machine : Machine ν) (ending : Ending ν α) (verdict : Verdict ν) :
    Prop where
  outcome : verdict.outcome = ending.outcome.map codec.encode
  cursor : verdict.cursor = ending.machine.cursor
  farthest : ending.machine.farthest = machine.farthest.merge verdict.frame

theorem stores_settle {after : Machine ν} {outcome : Except Failure ν}
    (inside : (opened call machine).Inside after) (unknown : machine.memo.find? call = none)
    (stored : (settle call memoized outcome after).memo.find? call = some verdict) :
    verdict.outcome = outcome ∧ verdict.cursor = after.cursor ∧
      (settle call memoized outcome after).farthest = machine.farthest.merge verdict.frame := by
  have untouched : after.memo.find? call = none :=
    (inside.untouched call List.mem_cons_self).trans unknown
  have outer : after.farthest.outer = machine.farthest.innermost :: machine.farthest.outer := inside.outer
  have result := settled call memoized outcome after
  generalize settle call memoized outcome after = last at result stored ⊢
  cases result with
  | withheld | dropped => cases untouched.symm.trans stored
  | stored =>
    obtain rfl := Option.some.inj ((MemoTable.find?_insert_self _ _ _).symm.trans stored)
    refine ⟨rfl, rfl, ?_⟩
    simp [Machine.report, Machine.write, stashed, popped, Farthest.Stack.popMerge, Farthest.Stack.pop,
      Farthest.Stack.merge, outer]

theorem stores_close {ending : Ending ν α} (inside : (opened call machine).Inside ending.machine)
    (unknown : machine.memo.find? call = none)
    (stored : (close codec call memoized ending).machine.memo.find? call = some verdict) :
    Stores codec machine (close codec call memoized ending) verdict := by
  have rewinds : (opened call machine).Inside (rewound call ending) := by
    cases ending with
    | ok value after => exact inside
    | error failure after => exact inside.moveTo _
  rw [machine_close] at stored
  obtain ⟨outcome, cursor, farthest⟩ := stores_settle rewinds unknown stored
  refine ⟨by rw [outcome_close]; exact outcome, ?_, by rw [machine_close]; exact farthest⟩
  rw [machine_close, (popped_settle _ _ _ _).cursor]
  exact cursor

def StoresOnly (codec : Codec ν α) (call : Call) (machine : Machine ν) (ending : Ending ν α) : Prop :=
  ∃ added, ending.machine.journal = added ++ machine.journal ∧
    (Unbound added → ∀ verdict, ending.machine.memo.find? call = some verdict →
      Stores codec machine ending verdict)

theorem storesOnly_evaluate (runs : Runs Machine.Stays body) (codec : Codec ν α) (n : Nat)
    (unknown : machine.memo.find? call = none) :
    StoresOnly codec call machine (evaluate codec call memoized body n machine) := by
  unfold evaluate
  cases found : machine.active.find? call with
  | some activation =>
    obtain ⟨cursor, ran⟩ := machine_reenter codec call activation machine
    refine ⟨[_], by rw [ran]; rfl, fun _ verdict stored => ?_⟩
    rw [ran] at stored
    cases unknown.symm.trans stored
  | none =>
    obtain ⟨added, same, inside⟩ := calling_stays.grow runs codec call n (opened call machine)
    simp only [activate_eq]
    generalize grow codec call body n (opened call machine) = ending at same inside
    obtain ⟨more, equal⟩ := journal_close codec call memoized ending
    refine ⟨more ++ added, by rw [equal, same, List.append_assoc]; rfl, fun unbound verdict stored => ?_⟩
    exact stores_close (inside (Unbound.append.mp unbound).2) unknown stored

theorem storesOnly_answer (runs : Runs Machine.Stays body) (codec : Codec ν α) (memoized : Bool) (n : Nat)
    (unknown : machine.memo.find? call = none) :
    StoresOnly codec call machine (answer codec call memoized body n machine) := by
  cases memoized with
  | false => exact storesOnly_evaluate runs codec n unknown
  | true =>
    simp only [answer, unknown, if_true]
    have asked : (machine.report call (.checked false)).memo.find? call = none := unknown
    obtain ⟨added, same, stores⟩ := @storesOnly_evaluate _ _ _ _ _ true runs codec n asked
    refine ⟨added ++ [_], by rw [same, List.append_assoc]; rfl, fun unbound verdict stored => ?_⟩
    have answered := stores (Unbound.append.mp unbound).1 verdict stored
    exact ⟨answered.outcome, answered.cursor, answered.farthest⟩

theorem answer_stored (codec : Codec ν α) (body : Parser ν α) (n : Nat)
    (stored : machine.memo.find? call = some verdict) {outcome : Except Failure α}
    (same : verdict.outcome = outcome.map codec.encode) :
    (Ending.outcome (answer codec call true body n machine)) = outcome ∧
      Ending.machine (answer codec call true body n machine) =
        { machine.report call (.checked true) with
          cursor := verdict.cursor
          farthest := machine.farthest.merge verdict.frame } := by
  have reads : verdict.outcome.bind (codec.read call.rule) = outcome := by
    rw [same]
    cases outcome with
    | error failure => rfl
    | ok value => simp [Except.map, Except.bind, Codec.read, codec.decode_encode]
  simp only [answer, stored, if_true, replay, reads]
  cases outcome <;> exact ⟨rfl, rfl⟩

theorem nested_answer (runs : Runs Machine.Chronicled body) (codec : Codec ν α) (call : Call)
    (memoized : Bool) (n : Nat) (machine : Machine ν) :
    ∃ inner, (Ending.machine (answer codec call memoized body n (machine.report call .entering))).journal =
      inner ++ .step call machine.cursor.index .entering :: machine.journal ∧ Nested inner :=
  (calling_chronicled.answer runs memoized (.refl (machine.report call .entering))).journal

theorem Stores.reported {ending : Ending ν α}
    (stores : Stores codec (machine.report call .entering) ending verdict) :
    Stores codec machine (reported codec call ending) verdict := by
  cases ending <;> exact ⟨stores.outcome, stores.cursor, stores.farthest⟩

end Parser

namespace Grammar

open Packrat.Parser
open Moment (Passes)

theorem Term.stays (grammar : Grammar) (n : Nat) (args : List Arg) (term : Term) :
    Runs Machine.Stays (term.parser grammar n args) :=
  Term.runs_always calling_stays
    (fun _ source => ⟨[.bound source], rfl, fun unbound => absurd List.mem_cons_self (unbound source)⟩)
    n args term

namespace Invocation

variable {grammar : Grammar} (invocation : Invocation grammar)

theorem answered {machine : Machine Stored} {verdict : Verdict Stored} {outcome : Except Failure Value}
    (memoized : invocation.memoized machine = true)
    (stored : machine.memo.find? (invocation.call machine) = some verdict)
    (same : verdict.outcome = outcome.map (Stored.codec invocation.shape).encode) :
    (invocation.ending machine).outcome = outcome ∧
      (invocation.ending machine).machine =
        machine.answered (invocation.call machine) verdict verdict.outcome := by
  have known : (machine.report (invocation.call machine) .entering).memo.find?
      (invocation.call machine) = some verdict := stored
  obtain ⟨found, ran⟩ := answer_stored (Stored.codec invocation.shape) invocation.body invocation.budget
    known same
  rw [ending_eq, memoized, outcome_reported]
  refine ⟨found, ?_⟩
  rw [same, ← found]
  generalize Parser.answer (Stored.codec invocation.shape) (invocation.call machine) true invocation.body
    invocation.budget (machine.report (invocation.call machine) .entering) = last at ran ⊢
  cases last with
  | ok value after | error failure after =>
    obtain rfl : after = _ := ran
    rfl

theorem stores {machine : Machine Stored} {past : List (Signal Stored)} {verdict : Verdict Stored}
    (outside : BoundOutside ((invocation.ending machine).machine.journal ++ past))
    (unknown : machine.memo.find? (invocation.call machine) = none)
    (stored : (invocation.ending machine).machine.memo.find? (invocation.call machine) = some verdict) :
    Stores (Stored.codec invocation.shape) machine (invocation.ending machine) verdict := by
  have entered : (machine.report (invocation.call machine) .entering).memo.find?
      (invocation.call machine) = none := unknown
  have runs : Runs Machine.Stays invocation.body := Term.stays grammar _ _ _
  have ordered : Runs Machine.Chronicled invocation.body := Term.chronicles grammar _ _ _
  obtain ⟨added, same, stores⟩ := storesOnly_answer runs (Stored.codec invocation.shape)
    (invocation.memoized machine) invocation.budget entered
  obtain ⟨inner, journal, nested⟩ := nested_answer ordered (Stored.codec invocation.shape)
    (invocation.call machine) (invocation.memoized machine) invocation.budget machine
  obtain rfl : added = inner := List.append_cancel_right (same.symm.trans journal)
  rw [ending_eq] at outside stored ⊢
  generalize invocation.call machine = call at *
  generalize Parser.answer (Stored.codec invocation.shape) call (invocation.memoized machine)
    invocation.body invocation.budget (machine.report call .entering) = last at *
  obtain ⟨outcome, left⟩ := machine_reported (Stored.codec invocation.shape) call last
  rw [left] at outside stored
  simp only [Machine.report, Machine.write, Journal.write_list, journal, List.cons_append,
    List.append_assoc] at outside
  exact (stores (nested.unbound outside) verdict stored).reported

end Invocation

end Grammar

namespace Moment

open Packrat.Grammar
open Packrat.Parser (Stores)

theorem countP_events (history : List (Signal Stored)) :
    (events history).countP (·.kind = .cachePut) = (history.filterMap Signal.put?).length := by
  induction history with
  | nil => rfl
  | cons signal older ih =>
    rw [events_cons, List.countP_append, ih]
    cases signal with
    | step call index step =>
      cases step with
      | checked hit => cases hit <;> rfl
      | _ => rfl
    | _ => rfl

/-- What the memo table guarantees at a moment, of the time since a text was bound and until one is bound
again. -/
structure WriteOnce (grammar : Grammar) (config : Config) (moment : Moment) : Prop where
  once : (puts moment.history).Nodup
  size : moment.machine.memo.size = (events (since moment.history)).countP (·.kind = .cachePut)
  lasting : ∀ {later added}, Passes grammar moment later → later.history = added ++ moment.history →
    Unbound added → BoundOutside later.history → ∀ call verdict,
      moment.machine.memo.find? call = some verdict → later.machine.memo.find? call = some verdict
  -- The first of two invocations stores its outcome, the second one is made at any later moment.
  repeats : ∀ (first second : Invocation grammar) {later added verdict},
    let call := first.call moment.machine
    let ending := first.ending moment.machine
    let met : Moment := { moment with machine := ending.machine }
    moment.machine.memo.find? call = none → met.machine.memo.find? call = some verdict →
    Passes grammar met later → later.history = added ++ met.history → Unbound added →
    BoundOutside later.history → second.call later.machine = call → second.shape = first.shape →
    second.memoized later.machine = true →
      verdict.cursor = ending.machine.cursor ∧
      ending.machine.farthest = moment.machine.farthest.merge verdict.frame ∧
      (second.ending later.machine).outcome = ending.outcome ∧
      (second.ending later.machine).machine = later.machine.answered call verdict verdict.outcome
  -- A call was always looked up if its rule is memoized wherever it is defined.
  asked : ∀ call, config.memoize = true →
    (∀ entry ∈ grammar.definitions, entry.2.rule.name = call.rule → entry.2.rule.memoized = true) →
      often call Step.enters moment.history = often call Step.checks moment.history
  frugal : ∀ call, often call Step.enters moment.history = often call Step.checks moment.history →
    Calm moment.history → bodyRuns call moment.history ≤ 1

theorem Passes.invoked {grammar : Grammar} {first : Moment} {moment : Moment}
    (passes : Passes grammar first moment) (invocation : Invocation grammar) :
    Passes grammar first { moment with machine := (invocation.ending moment.machine).machine } :=
  passes.trans (Term.strides grammar (invocation.budget + 1) invocation.args _ moment.machine moment.pending
    moment.past)

theorem Passes.repeats {grammar : Grammar} {source : Source} {config : Config} {moment later : Moment}
    {added : List (Signal Stored)} {verdict : Verdict Stored}
    (passes : Passes grammar (.start source config) moment) (first second : Invocation grammar)
    (unknown : moment.machine.memo.find? (first.call moment.machine) = none)
    (stored : (first.ending moment.machine).machine.memo.find? (first.call moment.machine) = some verdict)
    (on : Passes grammar { moment with machine := (first.ending moment.machine).machine } later)
    (same : later.history = added ++ ((first.ending moment.machine).machine.journal ++ moment.past))
    (unbound : Unbound added) (outside : BoundOutside later.history)
    (called : second.call later.machine = first.call moment.machine) (shaped : second.shape = first.shape)
    (memoized : second.memoized later.machine = true) :
    Stores (Stored.codec first.shape) moment.machine (first.ending moment.machine) verdict ∧
      (second.ending later.machine).outcome = (first.ending moment.machine).outcome ∧
      (second.ending later.machine).machine =
        later.machine.answered (first.call moment.machine) verdict verdict.outcome := by
  have met := (same ▸ outside : BoundOutside (added ++ _)).older
  have stores := first.stores met unknown stored
  have kept := on.keeps same unbound outside (Passes.kept (passes.invoked first) met).1 stored
  rw [← called] at kept ⊢
  exact ⟨stores, second.answered memoized kept (shaped.symm ▸ stores.outcome)⟩

theorem Passes.writeOnce {grammar : Grammar} {source : Source} {config : Config} {moment : Moment}
    (passes : Passes grammar (.start source config) moment) (outside : BoundOutside moment.history) :
    moment.WriteOnce grammar config := by
  obtain ⟨tallied, _, counted⟩ := passes.kept outside
  exact
    { once := tallied.once
      size := by
        rw [countP_events, MemoTable.size, ← List.length_map Prod.fst, tallied.keys]
        rfl
      lasting := fun on same unbound outside _ _ stored => on.keeps same unbound outside tallied stored
      repeats := by
        intro first second later added verdict call ending met unknown stored on same unbound outside called
          shaped memoized
        obtain ⟨stores, found, ran⟩ := passes.repeats first second unknown stored on same unbound outside
          called shaped memoized
        exact ⟨stores.cursor, stores.farthest, found, ran⟩
      asked := fun call => (counted call).asked.always
      frugal := by
        intro call always calm
        obtain ⟨ungrown, _, once⟩ := (counted call).frugal calm
        have runs := once always
        unfold bodyRuns
        omega }

end Moment

namespace Grammar

open Moment (Passes)

/-- A session in which no text is bound inside of a call is at every moment, also inside of calls, one in
which the memo table was written once: no call has been stored twice since a text was bound, the table
is as large as the log says, what is stored stays and answers every later call, and without left recursion
and fatal failures a call that is always looked up has its body run once at most. -/
theorem memo_table_is_written_once (grammar : Grammar) (source : Source) (config : Config)
    {requests : List Request} (keeps : ∀ request ∈ requests, request.keepsLog = true) :
    let session := (Session.start source config).observe .log
    let final := (enterAll grammar session requests).2
    let met : Moment := { machine := final.machine, past := chronicle grammar session requests }
    Passes grammar (.start source config) met ∧
    final.log.events.toList = events met.history ∧
    ∀ moment, Passes grammar (.start source config) moment → BoundOutside moment.history →
      moment.WriteOnce grammar config := by
  intro session final met
  have handed : final.machine.journal = [] := journal_enterAll grammar requests rfl
  have history : met.history = chronicle grammar session requests := by
    rw [Moment.history, handed, List.nil_append]
  refine ⟨?_, ?_, fun moment passes outside => passes.writeOnce outside⟩
  next =>
    have led := @passes_enterAll grammar session requests [] rfl
    rw [List.append_nil] at led
    exact led
  next =>
    rw [history]
    exact log_eq_events grammar source config keeps

def listing : Grammar where
  definitions :=
    [("list",
      { rule := { name := { grammar := "listing", rule := "list" } }
        body := .choice
          [.sequence [.call .plain "item" [], .literal ",", .call .plain "list" []],
           .call .plain "item" []] }),
     ("item",
      { rule := { name := { grammar := "listing", rule := "item" } }
        body := .literal "x" })]

theorem memo_table_is_written_once_listing :
    let requests : List Request := [.parse (.call .plain "list" [])]
    let session := (Session.start (.ofString "x") {}).observe .log
    let final := (enterAll listing session requests).2
    let met : Moment := { machine := final.machine, past := chronicle listing session requests }
    let call : Call := { cursor := {}, rule := { grammar := "listing", rule := "item" } }
    final.log.count .entering "item" = 2 ∧ often call Step.enters met.history = 2 ∧
      bodyRuns call met.history ≤ 1 ∧
      met.machine.memo.size = (events (since met.history)).countP (·.kind = .cachePut) ∧
      met.machine.memo.size = 2 := by
  intro requests session final met call
  obtain ⟨led, _, holds⟩ := memo_table_is_written_once listing (.ofString "x") {}
    (by decide : ∀ request ∈ requests, request.keepsLog = true)
  have unbound : Unbound met.history := by decide +kernel
  have outside : BoundOutside met.history := by
    intro newer source older split
    exact absurd (split ▸ by simp) (unbound source)
  have calm : Calm met.history := by decide +kernel
  have written := holds met led outside
  have asked := written.asked call rfl (by decide)
  exact ⟨by decide +kernel, by decide +kernel, written.frugal call asked calm, written.size,
    by decide +kernel⟩

end Grammar

end Packrat
