import Packrat.Proofs.Transparency

set_option autoImplicit false

namespace Packrat

open Ending (Exhausted)

def withheldCalls {ν : Type} (journal : List (Signal ν)) : List Call :=
  journal.filterMap fun
    | .step call _ .withheld => some call
    | _ => none

theorem mem_withheldCalls {ν : Type} {journal : List (Signal ν)} {call : Call}
    (withheld : Withheld journal call) : call ∈ withheldCalls journal := by
  obtain ⟨index, member⟩ := withheld
  exact List.mem_filterMap.mpr ⟨_, member, rfl⟩

namespace Grammar

open Packrat.Parser

variable {grammar : Grammar} {shapes : RuleName → Shape} {switch : RuleName → Bool}

structure Rested (book : Book Stored Value) (source : Source) (config : Config)
    (machine : Machine Stored) : Prop where
  source : machine.source = source
  config : machine.config = config
  idle : machine.active.activations = []
  sound : machine.Sound
  honest : book.Honest machine

theorem Rested.fresh (book : Book Stored Value) (source : Source) (config : Config)
    (cursor : Cursor) : Rested book source config { source, config, cursor } where
  source := rfl
  config := rfl
  idle := rfl
  sound := .fresh source config cursor
  honest := by
    intro call verdict found
    simp [find?_empty] at found

theorem Rested.moveTo {book : Book Stored Value} {source : Source} {config : Config}
    {machine : Machine Stored} (rested : Rested book source config machine) (cursor : Cursor) :
    Rested book source config (machine.moveTo cursor) :=
  { rested with sound := { rested.sound with }, honest := rested.honest }

theorem Uniform.rested (uniform : grammar.Uniform shapes) (pure : grammar.Pure) {args : List Arg}
    {term : Term} (termPure : term.Pure) (typed : term.Typed grammar shapes) {source : Source}
    {config : Config} {machine : Machine Stored} {ending : Ending Stored Value}
    (rested : Rested (grammar.book shapes switch) source config machine)
    (ends : term.EndsWith (grammar.switched switch) args machine ending) :
    Rested (grammar.book shapes switch) source config (Ending.machine ending) := by
  obtain ⟨_, n, run⟩ := ends
  rw [← run n (Nat.le_refl n)]
  have later := (pure.switched switch).orderly n args termPure machine
  refine ⟨later.source.trans rested.source, later.config.trans rested.config, ?_, ?_, ?_⟩
  next =>
    have follows := later.active.follows
    rw [rested.idle] at follows
    exact List.forall₂_nil_left_iff.mp follows
  next => exact ((pure.switched switch).advances n args termPure machine rested.sound).sound
  next => exact (uniform.simulates pure (Nat.le_refl n) args termPure typed).keeps machine rested.honest

theorem Rested.aligned {book : Book Stored Value} {source : Source} {config plainConfig : Config}
    {machine : Machine Stored} (rested : Rested book source config machine)
    (unmemoized : plainConfig.memoize = false) :
    Aligned book.Looked { framed := False } [] machine
      { source, config := plainConfig, cursor := machine.cursor } :=
  ⟨rested.source.symm, rfl, False.elim, rested.idle, rfl, unmemoized, by simp⟩

/-- What was run before does not matter for a term, wherever either runs, if the calls that a plain
run of the term withholds are in neither memo table. -/
theorem Uniform.answer_is_independent (uniform : grammar.Uniform shapes) (pure : grammar.Pure)
    {first second : Term} (firstPure : first.Pure) (firstTyped : first.Typed grammar shapes)
    (secondPure : second.Pure) (secondTyped : second.Typed grammar shapes) (source : Source)
    (config : Config) (switch : RuleName → Bool) (start cursor : Cursor) :
    ∃ before used fresh plain,
      first.EndsWith (grammar.switched switch) [] { source, config, cursor := start } before ∧
      second.EndsWith (grammar.switched switch) [] ((Ending.machine before).moveTo cursor) used ∧
      second.EndsWith (grammar.switched switch) [] { source, config, cursor } fresh ∧
      second.EndsWith grammar [] { source, config := { memoize := false }, cursor } plain ∧
      ((∀ call, Withheld (Ending.machine plain).journal call →
          (Ending.machine used).memo.find? call = none ∧
          (Ending.machine fresh).memo.find? call = none) →
        Ending.outcome used = Ending.outcome fresh ∧
        (Ending.machine used).cursor = (Ending.machine fresh).cursor) := by
  let book := grammar.book shapes switch
  have begins := Rested.fresh book source config start
  have again := Rested.fresh book source config cursor
  obtain ⟨before, ran⟩ := (pure.switched switch).exists_ending firstPure [] begins.sound
  have rested := (uniform.rested pure firstPure firstTyped begins ran).moveTo cursor
  obtain ⟨used, usedEnds⟩ := (pure.switched switch).exists_ending secondPure [] rested.sound
  obtain ⟨fresh, freshEnds⟩ := (pure.switched switch).exists_ending secondPure [] again.sound
  obtain ⟨plain, plainEnds⟩ := pure.exists_ending secondPure []
    (Machine.Sound.fresh source { memoize := false } cursor)
  refine ⟨before, used, fresh, plain, ran, usedEnds, freshEnds, plainEnds, fun apart => ?_⟩
  have left := uniform.agrees pure secondPure secondTyped (rested.aligned rfl) rested.honest usedEnds
    plainEnds fun call withheld => (apart call withheld).1
  have right := uniform.agrees pure secondPure secondTyped (again.aligned rfl) again.honest freshEnds
    plainEnds fun call withheld => (apart call withheld).2
  exact ⟨left.outcome.trans right.outcome.symm, left.cursor.trans right.cursor.symm⟩

theorem crossed_uniform : crossed.Uniform fun _ => .plain :=
  .of_distinct (by decide) (by decide)

theorem crossed_switched : crossed.switched (fun _ => true) = crossed := rfl

theorem answer_is_independent_crossed :
    crossed.Uniform (fun _ => .plain) ∧ crossed.Pure ∧ ∃ before used fresh,
      (Term.many (.call .plain "A" [])).EndsWith crossed [] { source := .ofString "kxy" } before ∧
      (Term.call .plain "A" []).EndsWith crossed [] ((Ending.machine before).moveTo {}) used ∧
      (Term.call .plain "A" []).EndsWith crossed [] { source := .ofString "kxy" } fresh ∧
      Ending.outcome used = Ending.outcome fresh ∧
      (Ending.machine used).cursor = (Ending.machine fresh).cursor := by
  have pure : crossed.Pure := by decide
  let start : Machine Stored := { source := .ofString "kxy" }
  let many : Term := .many (.call .plain "A" [])
  let once : Term := .call .plain "A" []
  have manyPure : many.Pure := by decide
  have oncePure : once.Pure := by decide
  have independent := crossed_uniform.answer_is_independent pure manyPure (by decide) oncePure
    (by decide) (.ofString "kxy") {} (fun _ => true) {} {}
  rw [crossed_switched] at independent
  obtain ⟨before, used, fresh, plain, ran, usedEnds, freshEnds, plainEnds, same⟩ := independent
  have first : before = many.trial crossed start :=
    ran.unique (Term.trial_ends pure manyPure (by decide +kernel))
  subst first
  have second : used = once.trial crossed ((Ending.machine (many.trial crossed start)).moveTo {}) :=
    usedEnds.unique (Term.trial_ends pure oncePure (by decide +kernel))
  have third : fresh = once.trial crossed start :=
    freshEnds.unique (Term.trial_ends pure oncePure (by decide +kernel))
  have fourth : plain = once.trial crossed { start with config := { memoize := false } } :=
    plainEnds.unique (Term.trial_ends pure oncePure (by decide +kernel))
  have apart : ∀ call ∈ withheldCalls (Ending.machine plain).journal,
      (Ending.machine used).memo.find? call = none ∧
      (Ending.machine fresh).memo.find? call = none := by
    rw [second, third, fourth]
    decide +kernel
  exact ⟨crossed_uniform, pure, _, used, fresh, ran, usedEnds, freshEnds,
    same fun call withheld => apart call (mem_withheldCalls withheld)⟩

theorem answer_depends_on_history :
    (crossed.Uniform (fun _ => .plain) ∧ crossed.Pure ∧ ∃ before used fresh,
      (Term.call .plain "A" []).EndsWith crossed [] { source := .ofString "kxy" } before ∧
      (Term.call .plain "B" []).EndsWith crossed [] ((Ending.machine before).moveTo {}) used ∧
      (Term.call .plain "B" []).EndsWith crossed [] { source := .ofString "kxy" } fresh ∧
      (Ending.outcome used).map Value.json = .error .noMatch ∧
      (Ending.outcome fresh).map Value.json = .ok "[\"k\",\"x\"]") ∧
    (mixed.Uniform (fun _ => .plain) ∧ mixed.Pure ∧ ∃ before used fresh,
      (Term.call .plain "kept" []).EndsWith mixed [] { source := .ofString "1+1+1" } before ∧
      (Term.call .plain "unkept" []).EndsWith mixed [] ((Ending.machine before).moveTo {}) used ∧
      (Term.call .plain "unkept" []).EndsWith mixed [] { source := .ofString "1+1+1" } fresh ∧
      (Ending.machine used).cursor.index = 1 ∧ (Ending.machine fresh).cursor.index = 5) := by
  have call (key : String) : (Term.call .plain key []).Pure := by rfl
  have crossedPure : crossed.Pure := by decide
  have mixedPure : mixed.Pure := by decide
  refine ⟨⟨crossed_uniform, crossedPure, _, _, _, Term.trial_ends crossedPure (call "A") ?_,
    Term.trial_ends crossedPure (call "B") ?_, Term.trial_ends crossedPure (call "B") ?_, ?_, ?_⟩,
    ⟨mixed_uniform, mixedPure, _, _, _, Term.trial_ends mixedPure (call "kept") ?_,
      Term.trial_ends mixedPure (call "unkept") ?_, Term.trial_ends mixedPure (call "unkept") ?_,
      ?_, ?_⟩⟩
  all_goals decide +kernel

end Grammar

end Packrat
