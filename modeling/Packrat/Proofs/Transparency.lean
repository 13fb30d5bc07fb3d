import Packrat.Proofs.Directness
import Packrat.Proofs.Replay
import Packrat.Proofs.Termination

set_option autoImplicit false

namespace Packrat

open Ending (Exhausted)

namespace Grammar

open Packrat.Parser

def Definition.switched (switch : RuleName → Bool) (definition : Definition) : Definition :=
  { definition with rule := { definition.rule with memoized := switch definition.rule.name } }

/-- The grammar with memoization switched on or off, rule by rule. -/
def switched (grammar : Grammar) (switch : RuleName → Bool) : Grammar where
  definitions := grammar.definitions.map fun entry => (entry.1, entry.2.switched switch)

theorem find?_switched (grammar : Grammar) (switch : RuleName → Bool) (key : String) :
    (grammar.switched switch).find? key =
      (grammar.find? key).map (Definition.switched switch) := by
  unfold Grammar.find? switched
  induction grammar.definitions with
  | nil => rfl
  | cons entry rest ih =>
    obtain ⟨name, definition⟩ := entry
    simp only [List.map_cons, List.lookup_cons]
    cases key == name
    next => exact ih
    next => rfl

theorem Pure.switched {grammar : Grammar} (pure : grammar.Pure) (switch : RuleName → Bool) :
    (grammar.switched switch).Pure := by
  intro entry member
  obtain ⟨former, inside, rfl⟩ := List.mem_map.mp member
  exact pure former inside

def book (grammar : Grammar) (shapes : RuleName → Shape) (switch : RuleName → Bool) :
    Book Stored Value where
  memoized := switch
  codec rule := Stored.codec (shapes rule)
  Body call body := ∃ key definition, grammar.find? key = some definition ∧
    definition.rule.name = call.rule ∧
    body = fun n => definition.body.parser grammar n call.args

variable {grammar : Grammar} {shapes : RuleName → Shape} {switch : RuleName → Bool}

theorem simulates_many {book : Book Stored Value} {α : Type} {first second : Parser Stored α}
    {n m : Nat} (within : n ≤ m) (simulates : book.Simulates first second) :
    book.Simulates (many first n) (many second m) := by
  induction n generalizing m with
  | zero => exact Book.simulates_stop _ (orderly_blocks.many orderly_stop simulates.right m)
  | succ n ih =>
    obtain ⟨m, rfl⟩ : ∃ less, m = less + 1 := ⟨m - 1, by omega⟩
    exact Book.simulates_blocks.structural.many_succ simulates (ih (by omega))

theorem Uniform.simulates (uniform : grammar.Uniform shapes) (pure : grammar.Pure) {n m : Nat}
    (within : n ≤ m) (args : List Arg) {term : Term} (termPure : term.Pure)
    (typed : term.Typed grammar shapes) :
    (grammar.book shapes switch).Simulates (term.parser (grammar.switched switch) n args)
      (term.parser grammar m args) := by
  induction n generalizing m args term with
  | zero =>
    simp only [Term.parser]
    exact Book.simulates_stop _ (pure.orderly m args termPure)
  | succ n ih =>
    obtain ⟨m, rfl⟩ : ∃ less, m = less + 1 := ⟨m - 1, by omega⟩
    have shorter : n ≤ m := by omega
    refine Term.related Book.simulates_blocks termPure.plain
      (fun part member => ih shorter args (termPure.part member) (typed.part member))
      (fun simulates => simulates_many shorter simulates) ?_
    rintro shape key argTerms rfl
    simp only [Term.parser, find?_switched]
    cases found : grammar.find? key with
    | none => exact Book.simulates_blocks.structural.noMatch
    | some definition =>
      have body := pure.body found
      have bodyTyped := uniform.typed found
      obtain rfl : shape = shapes definition.rule.name := typed.shape found
      let passed := argTerms.map (ArgTerm.resolve args)
      have runs (cursor : Cursor) : (grammar.book shapes switch).Body
          { cursor, rule := (definition.switched switch).rule.name, args := passed }
          fun k => definition.body.parser grammar k passed :=
        ⟨key, definition, found, rfl, rfl⟩
      have enacts (cursor : Cursor) : (grammar.book shapes switch).Enacts n
          { cursor, rule := (definition.switched switch).rule.name, args := passed }
          (definition.body.parser (grammar.switched switch) n passed) := by
        refine ⟨?_, ?_⟩
        next =>
          rintro _ ⟨other, alternative, stored, same, rfl⟩ most enough
          rw [uniform.unique stored found same]
          exact ih enough passed body bodyTyped
        next =>
          rintro _ ⟨other, alternative, stored, same, rfl⟩ less most enough
          exact pure.prolongs enough _ (pure.body stored)
      have keeps := (ih (Nat.le_refl n) passed body bodyTyped).keeps
      exact Book.Enacts.invoke enacts runs keeps ((pure.switched switch).orderly n _ body)
        (pure.orderly m _ body) shorter rfl rfl

theorem Uniform.agrees (uniform : grammar.Uniform shapes) (pure : grammar.Pure) {args : List Arg}
    {term : Term} (termPure : term.Pure) (typed : term.Typed grammar shapes) {framed : Prop}
    {cached plain : Machine Stored} {ending other : Ending Stored Value}
    (aligned : Aligned (grammar.book shapes switch).Looked { framed } [] cached plain)
    (honest : (grammar.book shapes switch).Honest cached)
    (ends : term.EndsWith (grammar.switched switch) args cached ending)
    (plainEnds : term.EndsWith grammar args plain other)
    (apart : ∀ call, Withheld (Ending.machine other).journal call →
      (Ending.machine ending).memo.find? call = none) :
    Agreed (grammar.book shapes switch).Looked { framed } 0 ending other := by
  obtain ⟨whole, n, budget⟩ := ends
  obtain ⟨plainWhole, m, plainBudget⟩ := plainEnds
  have agrees := (uniform.simulates pure (Nat.le_refl (max n m)) args termPure typed).agrees
    aligned honest
  rw [budget (max n m) (Nat.le_max_left n m), plainBudget (max n m) (Nat.le_max_right n m)] at agrees
  rcases agrees with diverged | agreed
  next =>
    rcases diverged with exhausted | exhausted | ⟨around, _⟩ | ⟨around, _⟩ |
      ⟨call, withheld, stored⟩
    next => exact absurd exhausted whole
    next => exact absurd exhausted plainWhole
    next => exact absurd rfl around
    next => exact absurd rfl around
    next => exact absurd (apart call withheld) stored
  next => exact agreed

theorem find?_empty {ν : Type} (call : Call) : ({} : MemoTable ν).find? call = none := by
  simp [MemoTable.find?_eq, MemoTable.entries]

/-- Memoization is transparent where left recursion is direct: the run of a term that memoizes nothing
decides how the run ends under all settings, the one of the whole parse and those of the rules. -/
theorem Uniform.memoization_is_transparent (uniform : grammar.Uniform shapes) (pure : grammar.Pure)
    {term : Term} (termPure : term.Pure) (typed : term.Typed grammar shapes) {source : Source}
    {plain : Ending Stored Value}
    (plainEnds : term.EndsWith grammar [] { source, config := { memoize := false } } plain)
    (direct : Direct (Ending.machine plain).journal) (switch : RuleName → Bool) (config : Config) :
    ∃ ending, term.EndsWith (grammar.switched switch) [] { source, config } ending ∧
      Ending.outcome ending = Ending.outcome plain ∧
      (Ending.machine ending).cursor = (Ending.machine plain).cursor ∧
      (Ending.machine ending).farthest.innermost = (Ending.machine plain).farthest.innermost := by
  obtain ⟨ending, ends⟩ := (pure.switched switch).exists_ending termPure []
    (Machine.Sound.fresh source config {})
  refine ⟨ending, ends, ?_⟩
  have aligned : Aligned (ν := Stored) (grammar.book shapes switch).Looked { framed := True } []
      { source, config } { source, config := { memoize := false } } :=
    ⟨rfl, rfl, fun _ => rfl, rfl, rfl, rfl, by simp⟩
  have honest : (grammar.book shapes switch).Honest { source, config } := by
    intro call verdict found
    simp [find?_empty] at found
  have apart (call : Call) : ¬ Withheld (Ending.machine plain).journal call := by
    obtain ⟨_, budget, run⟩ := plainEnds
    have same := run budget (Nat.le_refl budget)
    rw [← same] at direct ⊢
    exact pure.not_withheld termPure rfl rfl direct call
  have agreed := uniform.agrees pure termPure typed aligned honest ends plainEnds
    fun call withheld => absurd withheld (apart call)
  exact ⟨agreed.outcome, agreed.cursor, agreed.frame trivial⟩

def sums : Grammar where
  definitions :=
    [("sum",
      { rule := { name := { grammar := "sums", rule := "sum" } }
        body := .choice [.sequence [.call .plain "sum" [], .literal "+", .call .plain "number" []],
          .call .plain "number" []] }),
     ("number",
      { rule := { name := { grammar := "sums", rule := "number" } }
        body := .run1 Char.isDigit "digit" })]

theorem memoization_is_transparent_sums :
    sums.Uniform (fun _ => .plain) ∧ sums.Pure ∧ ∃ plain,
      (Term.call .plain "sum" []).EndsWith sums []
        { source := .ofString "1+2+3", config := { memoize := false } } plain ∧
      Direct (Ending.machine plain).journal ∧
      ∀ (switch : RuleName → Bool) (config : Config), ∃ ending,
        (Term.call .plain "sum" []).EndsWith (sums.switched switch) []
          { source := .ofString "1+2+3", config } ending ∧
        Ending.outcome ending = Ending.outcome plain ∧
        (Ending.machine ending).cursor = (Ending.machine plain).cursor ∧
        (Ending.machine ending).farthest.innermost =
          (Ending.machine plain).farthest.innermost := by
  have uniform : sums.Uniform fun _ => .plain := .of_distinct (by decide) (by decide)
  have pure : sums.Pure := by decide
  have ends := Term.trial_ends pure (by decide : (Term.call .plain "sum" []).Pure)
    (by decide +kernel : ¬ Exhausted (Term.trial sums (.call .plain "sum" [])
      { source := .ofString "1+2+3", config := { memoize := false } }))
  have direct : Direct (Ending.machine (Term.trial sums (.call .plain "sum" [])
      { source := .ofString "1+2+3", config := { memoize := false } })).journal := by
    decide +kernel
  exact ⟨uniform, pure, _, ends, direct,
    uniform.memoization_is_transparent pure (by decide) (by decide) ends direct⟩

def mixed : Grammar where
  definitions :=
    [("kept",
      { rule := { name := { grammar := "mixed", rule := "ones" } }
        body := .choice [.sequence [.call .plain "kept" [], .literal "+", .literal "1"],
          .literal "1"] }),
     ("unkept",
      { rule := { name := { grammar := "mixed", rule := "ones" }, memoized := false }
        body := .choice [.sequence [.call .plain "kept" [], .literal "+", .literal "1"],
          .literal "1"] })]

theorem mixed_uniform : mixed.Uniform fun _ => .plain where
  typed found := by
    have typed : ∀ entry ∈ mixed.definitions, entry.2.body.Typed mixed fun _ => .plain := by decide
    exact typed _ (mem_of_find? found)
  unique found other _ := by
    have first := mem_of_find? found
    have second := mem_of_find? other
    simp only [mixed, List.mem_cons, Prod.mk.injEq, List.not_mem_nil, or_false] at first second
    rcases first with ⟨_, rfl⟩ | ⟨_, rfl⟩ <;> rcases second with ⟨_, rfl⟩ | ⟨_, rfl⟩ <;> rfl

theorem mixed_switches_show :
    mixed.Uniform (fun _ => .plain) ∧ mixed.Pure ∧ ∃ plain cached,
      (Term.sequence [.ahead (.call .plain "kept" []), .call .plain "unkept" []]).EndsWith mixed []
        { source := .ofString "1+1+1", config := { memoize := false } } plain ∧
      (Term.sequence [.ahead (.call .plain "kept" []), .call .plain "unkept" []]).EndsWith mixed []
        { source := .ofString "1+1+1" } cached ∧
      Direct (Ending.machine plain).journal ∧
      (Ending.machine plain).cursor.index = 5 ∧ (Ending.machine cached).cursor.index = 1 := by
  have pure : mixed.Pure := by decide
  let term : Term := .sequence [.ahead (.call .plain "kept" []), .call .plain "unkept" []]
  have termPure : term.Pure := by decide
  exact ⟨mixed_uniform, pure, _, _, Term.trial_ends pure termPure (by decide +kernel),
    Term.trial_ends pure termPure (by decide +kernel), by decide +kernel, by decide +kernel,
    by decide +kernel⟩

end Grammar

end Packrat
