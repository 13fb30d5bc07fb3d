import Mathlib.Data.Set.Card
import Mathlib.Data.Set.Finite.List
import Packrat.Proofs.Halting

set_option autoImplicit false

namespace Packrat

open Ending (Exhausted)

namespace Grammar

open Packrat.Parser

theorem Term.sizeOf_part {term part : Term} (member : part ∈ term.parts) :
    sizeOf part < sizeOf term := by
  cases term <;> simp only [Term.parts, List.mem_cons, List.not_mem_nil, or_false] at member
  case sequence terms | choice terms =>
    have smaller := List.sizeOf_lt_of_mem member
    simp only [sequence.sizeOf_spec, choice.sizeOf_spec]
    omega
  case sepBy | sepBy1 | ifArg | ifCount =>
    simp only [sepBy.sizeOf_spec, sepBy1.sizeOf_spec, ifArg.sizeOf_spec, ifCount.sizeOf_spec]
    rcases member with rfl | rfl <;> omega
  all_goals
    subst member
    simp

def Term.ownArgs : Term → List (List ArgTerm)
  | .call _ _ args => [args]
  | _ => []

def Term.argTerms (term : Term) : List (List ArgTerm) :=
  term.ownArgs ++ term.parts.attach.flatMap fun part => part.val.argTerms
termination_by sizeOf term
decreasing_by exact Term.sizeOf_part part.property

theorem Term.argTerms_call (shape : Shape) (key : String) (args : List ArgTerm) :
    args ∈ (Term.call shape key args).argTerms := by
  rw [Term.argTerms]
  simp [Term.ownArgs]

theorem Term.argTerms_part {term part : Term} (member : part ∈ term.parts) :
    part.argTerms ⊆ term.argTerms := by
  intro args inside
  rw [Term.argTerms]
  simp only [List.mem_append, List.mem_flatMap, List.mem_attach, true_and, Subtype.exists]
  exact .inr ⟨part, member, inside⟩

def Among (given : List Arg) : Arg → Prop
  -- Arithmetic on arguments stays within the range of its type.
  | .int _ | .word _ => True
  | arg => arg ∈ given

theorem among_of_mem {given : List Arg} {arg : Arg} (member : arg ∈ given) : Among given arg := by
  cases arg <;> first | exact member | trivial

theorem among_addTo {given : List Arg} {arg : Arg} (among : Among given arg) (n : Int) :
    Among given (addTo arg n) := by
  cases arg <;> exact among

structure Scope where
  rules : List RuleName
  given : List Arg
  most : Nat
  weight : Nat

namespace Scope

variable (scope : Scope)

def calls (limit : Nat) : Set Call :=
  { call | call.cursor.index ≤ limit ∧ call.rule ∈ scope.rules ∧ call.args.length ≤ scope.most ∧
    ∀ arg ∈ call.args, Among scope.given arg }

structure Covers (term : Term) : Prop where
  most : ∀ args ∈ term.argTerms, args.length ≤ scope.most
  given : ∀ args ∈ term.argTerms, ∀ arg, .given arg ∈ args → arg ∈ scope.given

structure CoversAll (grammar : Grammar) : Prop where
  rule : ∀ {key definition}, grammar.find? key = some definition →
    definition.rule.name ∈ scope.rules
  body : ∀ {key definition}, grammar.find? key = some definition → scope.Covers definition.body
  weight : ∀ {key definition}, grammar.find? key = some definition →
    sizeOf definition.body < scope.weight

noncomputable def unused (limit : Nat) (active : List Call) : Nat :=
  (scope.calls limit \ { call | call ∈ active }).ncard

variable {scope}

theorem Covers.part {term part : Term} (covers : scope.Covers term) (member : part ∈ term.parts) :
    scope.Covers part where
  most args inside := covers.most args (Term.argTerms_part member inside)
  given args inside := covers.given args (Term.argTerms_part member inside)

theorem among_resolve {args : List Arg} {argTerms : List ArgTerm}
    (given : ∀ arg, .given arg ∈ argTerms → arg ∈ scope.given)
    (among : ∀ arg ∈ args, Among scope.given arg) :
    ∀ arg ∈ argTerms.map (ArgTerm.resolve args), Among scope.given arg := by
  intro arg member
  obtain ⟨argTerm, inside, rfl⟩ := List.mem_map.mp member
  cases argTerm with
  | given arg => exact among_of_mem (given arg inside)
  | passed index add =>
    apply among_addTo
    unfold argAt
    cases found : args[index]? with
    | none => trivial
    | some arg => exact among arg (List.mem_of_getElem? found)

theorem finite_among (given : List Arg) : { arg | Among given arg }.Finite := by
  have words : Finite UInt64 :=
    .of_injective (fun word => word.toBitVec.toFin) fun _ _ same =>
      UInt64.toBitVec_inj.mp (BitVec.eq_of_toFin_eq same)
  have ints : Finite Int64 :=
    .of_injective (fun int => int.toBitVec.toFin) fun _ _ same =>
      Int64.toBitVec_inj.mp (BitVec.eq_of_toFin_eq same)
  refine ((Set.finite_range Arg.int).union ((Set.finite_range Arg.word).union
    given.finite_toSet)).subset ?_
  rintro arg among
  cases arg with
  | int value => exact .inl ⟨value, rfl⟩
  | word value => exact .inr (.inl ⟨value, rfl⟩)
  | flag | char | text => exact .inr (.inr among)

theorem finite_calls (limit : Nat) : (scope.calls limit).Finite := by
  have levels : Finite Int32 :=
    .of_injective (fun level => level.toBitVec.toFin) fun _ _ same =>
      Int32.toBitVec_inj.mp (BitVec.eq_of_toFin_eq same)
  have among : Finite { arg // Among scope.given arg } := finite_among scope.given
  -- Finitely many arguments, and no more than so many in a call.
  have lists : { args : List Arg | args.length ≤ scope.most ∧
      ∀ arg ∈ args, Among scope.given arg }.Finite := by
    refine ((List.finite_length_le { arg // Among scope.given arg } scope.most).image
      (List.map Subtype.val)).subset ?_
    rintro args ⟨short, inside⟩
    exact ⟨args.attachWith _ inside, by simpa using short, by simp⟩
  refine ((((Set.finite_le_nat limit).prod (Set.finite_univ (α := Int32))).prod
    (scope.rules.finite_toSet.prod lists)).image fun parts =>
      ({ cursor := { index := parts.1.1, level := parts.1.2 }, rule := parts.2.1,
         args := parts.2.2 } : Call)).subset ?_
  rintro ⟨⟨index, level⟩, rule, args⟩ ⟨near, known, short, inside⟩
  exact ⟨((index, level), (rule, args)), ⟨⟨near, trivial⟩, known, short, inside⟩, rfl⟩

theorem unused_cons_lt {limit : Nat} {active : List Call} {call : Call}
    (member : call ∈ scope.calls limit) (inactive : call ∉ active) :
    scope.unused limit (call :: active) < scope.unused limit active := by
  refine Set.ncard_lt_ncard ⟨?_, ?_⟩ (scope.finite_calls limit).sdiff
  next =>
    intro other unused
    exact ⟨unused.1, fun used => unused.2 (List.mem_cons_of_mem call used)⟩
  next =>
    intro same
    have unused := same ⟨member, inactive⟩
    exact unused.2 List.mem_cons_self

theorem unused_le (limit : Nat) (active : List Call) :
    scope.unused limit active ≤ (scope.calls limit).ncard :=
  Set.ncard_le_ncard Set.sdiff_subset (scope.finite_calls limit)

end Scope

variable {grammar : Grammar} {scope : Scope}

theorem Pure.halts (pure : grammar.Pure) (coversAll : scope.CoversAll grammar)
    {source : Source} {limit : Nat} (size : source.size ≤ limit) {calls : List Call} {n : Nat}
    {args : List Arg} {term : Term} (termPure : term.Pure)
    (covers : scope.Covers term) (among : ∀ arg ∈ args, Among scope.given arg)
    (enough : sizeOf term + scope.weight * scope.unused limit calls + limit + 3 ≤ n) :
    Halts source limit calls (term.parser grammar n args) := by
  induction n generalizing calls args term with
  | zero => omega
  | succ n ih =>
    -- The induction is on the budget, which the measure bounds from below.
    refine Term.holds (halts_blocks size) termPure.plain (fun part member => ?_)
      (fun halts => halts.many size (by omega)) ?_
    next =>
      have smaller := Term.sizeOf_part member
      exact ih (termPure.part member) (covers.part member) among (by omega)
    next =>
      rintro shape key argTerms rfl
      have inside := Term.argTerms_call shape key argTerms
      have passed := Scope.among_resolve (covers.given _ inside) among
      have most := covers.most _ inside
      have positive : 0 < sizeOf (Term.call shape key argTerms) := by simp
      simp only [Term.parser]
      cases found : grammar.find? key with
      | none => exact (halts_blocks size).structural.noMatch
      | some definition =>
        have body := pure.body found
        refine Halts.invoke size (pure.orderly n _ body) (pure.advances n _ body) ?_ (by omega)
        intro call rule resolved index inactive
        have known : call ∈ scope.calls limit :=
          ⟨index, rule ▸ coversAll.rule found, by simpa [resolved] using most, resolved ▸ passed⟩
        have fewer := Scope.unused_cons_lt known inactive
        have light := coversAll.weight found
        refine ih body (coversAll.body found) passed ?_
        -- One call fewer is unused, which pays for the whole body.
        have paid := Nat.mul_le_mul_left scope.weight fewer
        rw [Nat.mul_succ] at paid
        omega

theorem exists_bound {α : Type} (f : α → Nat) (items : List α) :
    ∃ bound, ∀ item ∈ items, f item ≤ bound := by
  induction items with
  | nil => exact ⟨0, by simp⟩
  | cons first rest ih =>
    obtain ⟨bound, below⟩ := ih
    refine ⟨max (f first) bound, fun item member => ?_⟩
    rcases List.mem_cons.mp member with rfl | member
    next => exact Nat.le_max_left _ _
    next => exact Nat.le_trans (below item member) (Nat.le_max_right _ _)

def ArgTerm.given? : ArgTerm → Option Arg
  | .given arg => some arg
  | .passed _ _ => none

theorem exists_scope (grammar : Grammar) (term : Term) (args : List Arg) :
    ∃ scope : Scope, scope.CoversAll grammar ∧ scope.Covers term ∧
      ∀ arg ∈ args, Among scope.given arg := by
  let bodies := grammar.definitions.map fun entry => entry.2.body
  let lists := term.argTerms ++ bodies.flatMap Term.argTerms
  obtain ⟨most, short⟩ := exists_bound List.length lists
  obtain ⟨weight, light⟩ := exists_bound sizeOf bodies
  -- Everything is read off the start term and the bodies.
  let scope : Scope :=
    { rules := grammar.definitions.map fun entry => entry.2.rule.name
      given := args ++ lists.flatten.filterMap ArgTerm.given?
      most
      weight := weight + 1 }
  have covers (part : Term) (inside : part.argTerms ⊆ lists) : scope.Covers part := by
    refine ⟨fun args member => short args (inside member), fun args member arg given => ?_⟩
    refine List.mem_append_right _ (List.mem_filterMap.mpr ⟨.given arg, ?_, rfl⟩)
    exact List.mem_flatten.mpr ⟨args, inside member, given⟩
  have body {key : String} {definition : Definition} (found : grammar.find? key = some definition) :
      definition.body ∈ bodies :=
    List.mem_map_of_mem (mem_of_find? found)
  refine ⟨scope, ⟨?_, ?_, ?_⟩, ?_, ?_⟩
  next =>
    intro key definition found
    exact List.mem_map_of_mem (mem_of_find? found)
  next =>
    intro key definition found
    refine covers _ fun args member => List.mem_append_right _ ?_
    exact List.mem_flatMap.mpr ⟨_, body found, member⟩
  next =>
    intro key definition found
    have := light _ (body found)
    simp only [scope]
    omega
  next => exact covers term (List.subset_append_left _ _)
  next =>
    intro arg member
    exact among_of_mem (List.mem_append_left _ member)

theorem Pure.exists_budget (pure : grammar.Pure) {term : Term}
    (termPure : term.Pure) (args : List Arg) (source : Source) (limit : Nat) :
    ∃ budget, ∀ machine : Machine Stored, machine.Sound → machine.source = source →
      machine.cursor.index ≤ limit → ¬ Exhausted (term.parser grammar budget args machine) := by
  obtain ⟨scope, coversAll, covers, among⟩ := exists_scope grammar term args
  let last := max limit source.size
  refine ⟨sizeOf term + scope.weight * (scope.calls last).ncard + last + 3, ?_⟩
  intro machine sound same within
  have unused := Nat.mul_le_mul_left scope.weight (scope.unused_le last machine.calls)
  have halts := pure.halts coversAll (Nat.le_max_right limit source.size) termPure covers among
    (Nat.add_le_add_right (Nat.add_le_add_right (Nat.add_le_add_left unused _) _) _)
  exact halts.ends machine ⟨sound, same, Nat.le_trans within (Nat.le_max_left _ _), rfl⟩

theorem Pure.exists_ending (pure : grammar.Pure) {term : Term}
    (termPure : term.Pure) (args : List Arg) {machine : Machine Stored}
    (sound : machine.Sound) : ∃ ending, term.EndsWith grammar args machine ending := by
  obtain ⟨budget, ends⟩ :=
    pure.exists_budget termPure args machine.source machine.cursor.index
  exact ⟨_, .of_budget pure termPure rfl (ends machine sound rfl (Nat.le_refl _))⟩

/-- Every run ends, whatever the left recursion and whatever is memoized: from some budget on, more
budget changes nothing. The budget bounds how deep activations nest, how often a seed grows and how
often a repetition goes round. -/
theorem Pure.every_run_ends (pure : grammar.Pure) {term : Term}
    (termPure : term.Pure) (source : Source) :
    ∃ budget, ∀ config : Config, ∃ ending, ¬ Exhausted ending ∧
      ∀ more ≥ budget, term.parser grammar more [] { source, config } = ending := by
  obtain ⟨budget, ends⟩ := pure.exists_budget termPure [] source 0
  refine ⟨budget, fun config => ?_⟩
  have whole := ends { source, config } (.fresh source config {}) rfl (Nat.le_refl 0)
  refine ⟨_, whole, fun more enough => ?_⟩
  exact ((pure.prolongs enough [] termPure _).resolve_left whole).symm

def crossed : Grammar where
  definitions :=
    [("A",
      { rule := { name := { grammar := "crossed", rule := "A" } }
        body := .choice [.sequence [.call .plain "B" [], .literal "y"], .literal "k"] }),
     ("B",
      { rule := { name := { grammar := "crossed", rule := "B" } }
        body := .choice [.sequence [.call .plain "A" [], .literal "x"], .literal "b"] })]

theorem crossed_pure : crossed.Pure :=
  by decide

theorem every_run_ends_crossed :
    crossed.Pure ∧
    (Term.many (.optional (.call .plain "A" []))).Pure ∧
    ∃ budget, ∀ config : Config, ∃ ending, ¬ Exhausted ending ∧ ∀ more ≥ budget,
      (Term.many (.optional (.call .plain "A" []))).parser crossed more []
        { source := .ofString "kxy", config } = ending :=
  ⟨crossed_pure, by decide, crossed_pure.every_run_ends (by decide) (.ofString "kxy")⟩

end Grammar

end Packrat
