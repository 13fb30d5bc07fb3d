import Packrat.Proofs.Looping
import Packrat.Proofs.Reachability
import Packrat.Proofs.Termination

set_option autoImplicit false

namespace Packrat.Grammar

open Ending (Exhausted)
open Packrat.Parser

/-- The rule of the name is called by the key at once, or by the last of a chain of rules of which each
only calls the next. -/
inductive Leads (grammar : Grammar) (name : RuleName) : String → List RuleName → Prop
  | here {key : String} {definition : Definition} (found : grammar.find? key = some definition)
      (own : definition.rule.name = name) : Leads grammar name key []
  | through {key next : String} {definition : Definition} {shape : Shape} {names : List RuleName}
      (found : grammar.find? key = some definition) (calls : definition.body = .call shape next [])
      (rest : Leads grammar name next names) :
      Leads grammar name key (definition.rule.name :: names)

section Chain

variable {codec : Codec Stored Value} {rule : Rule} {body : Parser Stored Value}
  {machine : Machine Stored} {call own : Call} {told : Option (Value × Cursor)}

theorem invoke_active (codec : Codec Stored Value) (body : Parser Stored Value) (n : Nat)
    (plain : machine.config.memoize = false) (same : callOf rule [] machine = call)
    {activation : Activation Stored} (active : machine.active.find? call = some activation) :
    invoke codec rule [] body n machine =
      reported codec call (reenter codec call activation (machine.report call .entering)) := by
  have found : (machine.report call .entering).active.find? call = some activation := active
  rw [invoke_eq, same, plain, Bool.and_false]
  simp only [answer, evaluate, found, Bool.false_eq_true, if_false]

theorem invoke_inactive (codec : Codec Stored Value) (body : Parser Stored Value) (n : Nat)
    (plain : machine.config.memoize = false) (same : callOf rule [] machine = call)
    (inactive : call ∉ machine.calls) :
    invoke codec rule [] body n machine =
      reported codec call (close codec call false
        (grow codec call body n (opened call (machine.report call .entering)))) := by
  have missing : (machine.report call .entering).active.find? call = none :=
    Book.find?_of_inactive inactive
  rw [invoke_eq, same, plain, Bool.and_false]
  simp only [answer, evaluate, missing, Bool.false_eq_true, if_false, activate_eq]

theorem Recalled.passed {n : Nat} (codec : Codec Stored Value) (different : own ≠ call)
    (origin : own.cursor = call.cursor)
    (recalled : Recalled call told (opened own (machine.report own .entering))
      (body (opened own (machine.report own .entering)))) :
    Recalled call told machine (reported codec own (close codec own false
      (grow codec own body (n + 1) (opened own (machine.report own .entering))))) := by
  have inner : (Ending.machine (body (opened own (machine.report own .entering)))).active.activations =
      { call := own, tainted := true } ::
        Activation.reenter call machine.active.activations := by
    rw [recalled.active]
    simp [opened, Active.push, Activation.reenter, different, Machine.report, Machine.write]
  -- Its own activation is not recursive, so that one run of its body is all.
  rw [grow_succ]
  generalize body (opened own (machine.report own .entering)) = ending at recalled inner ⊢
  cases ending with
  | ok value after =>
    have active : after.active.activations = _ := inner
    have closed := popped_settle own false (.ok (codec.encode value)) after
    simp only [Parser.round, Active.innermost?, active, List.head?_cons, Bool.not_false, if_true]
    refine ⟨closed.source.trans recalled.source, closed.config.trans recalled.config, ?_, ?_⟩
    next => exact (congrArg Active.activations closed.active).trans (congrArg List.tail active)
    next => exact (congrArg (Prod.mk (Except.ok value)) closed.cursor).trans recalled.result
  | error failure after =>
    have active : after.active.activations = _ := inner
    have closed := popped_settle own false (.error failure) (after.moveTo own.cursor)
    simp only [Parser.round, Active.innermost?, active, List.head?_cons, Option.bind_some]
    refine ⟨closed.source.trans recalled.source, closed.config.trans recalled.config, ?_, ?_⟩
    next => exact (congrArg Active.activations closed.active).trans (congrArg List.tail active)
    next =>
      have result := recalled.result
      cases told with
      | none =>
        have same : failure = .unseeded := Except.error.inj (Prod.mk.inj result).1
        exact Prod.ext (congrArg Except.error same) (closed.cursor.trans origin)
      | some seed => cases (Prod.mk.inj result).1

variable {grammar : Grammar} {shapes : RuleName → Shape} {name : RuleName} {key : String}
  {names : List RuleName}

theorem Leads.recalls (leads : Leads grammar name key names) (uniform : grammar.Uniform shapes)
    (distinct : (name :: names).Nodup) {shape : Shape}
    (typed : (Term.call shape key []).Typed grammar shapes) {n : Nat} (enough : names.length < n)
    {machine : Machine Stored} (plain : machine.config.memoize = false)
    (here : call = { cursor := machine.cursor, rule := name, args := [] })
    {activation : Activation Stored} (active : machine.active.find? call = some activation)
    (inactive : ∀ rule ∈ names,
      ({ cursor := machine.cursor, rule, args := [] } : Call) ∉ machine.calls)
    (seeded : activation.seed =
      told.map fun seed => { value := (Stored.codec (shapes name)).encode seed.1, cursor := seed.2 }) :
    Recalled call told machine ((Term.call shape key []).parser grammar n [] machine) := by
  induction leads generalizing shape n machine with
  | @here key definition found same =>
    obtain ⟨n, rfl⟩ : ∃ less, n = less + 1 := ⟨n - 1, by omega⟩
    obtain rfl : shape = shapes name := same ▸ typed.shape found
    have own : callOf definition.rule [] machine = call := by rw [here, callOf, same]
    rw [Term.parser_call found, List.map_nil]
    rw [invoke_active _ _ n plain own active]
    cases told with
    | none =>
      simp only [reenter, show activation.seed = none from seeded]
      exact ⟨rfl, rfl, rfl, by rw [here]; rfl⟩
    | some seed =>
      simp only [reenter, show activation.seed = some _ from seeded, useSeed, Codec.read,
        Codec.decode_encode, conclude]
      exact ⟨rfl, rfl, rfl, rfl⟩
  | @through key next definition inner names found calls rest ih =>
    rw [List.length_cons] at enough
    obtain ⟨n, rfl⟩ : ∃ less, n = less + 2 := ⟨n - 2, by omega⟩
    let own : Call := { cursor := machine.cursor, rule := definition.rule.name, args := [] }
    have apart : definition.rule.name ≠ name := by
      rintro rfl
      simp at distinct
    have different : own ≠ call := by
      rw [here]
      exact fun same => apart (congrArg Call.rule same)
    have bodyTyped := uniform.typed found
    rw [calls] at bodyTyped
    have quiet := inactive definition.rule.name List.mem_cons_self
    rw [Term.parser_call found, List.map_nil]
    rw [invoke_inactive _ _ _ plain rfl quiet, calls]
    refine Recalled.passed _ different (congrArg Call.cursor here).symm ?_
    have shorter : names.length < n + 1 := by omega
    refine ih (distinct.sublist (.cons_cons name (List.sublist_cons_self _ _))) bodyTyped shorter plain
      here ?_ ?_
    next =>
      rw [Active.find?_eq] at active ⊢
      have other : callOf definition.rule [] machine ≠ call := different
      simpa [opened, Active.push, Machine.report, Machine.write, other] using active
    next =>
      intro rule member active
      rcases List.mem_cons.mp active with same | active
      next =>
        have equal : rule = definition.rule.name := congrArg Call.rule same
        simp [equal ▸ member] at distinct
      next => exact inactive rule (List.mem_cons_of_mem _ member) active

theorem Leads.known (leads : Leads grammar name key names) :
    ∃ definition, grammar.find? key = some definition := by
  cases leads with
  | here found _ => exact ⟨_, found⟩
  | through found _ _ => exact ⟨_, found⟩

section Distinct

variable (uniform : grammar.Uniform shapes)
  (root : ∀ {key definition}, grammar.find? key = some definition → definition.rule.name = name →
    ∀ shape next, definition.body ≠ .call shape next [])

include uniform root

theorem Leads.unique {other : String} {others : List RuleName} {definition alternative : Definition}
    (first : Leads grammar name key names) (second : Leads grammar name other others)
    (found : grammar.find? key = some definition) (also : grammar.find? other = some alternative)
    (same : definition.rule.name = alternative.rule.name) : names = others := by
  induction first generalizing other others definition alternative with
  | here known own =>
    obtain rfl := Option.some.inj (known.symm.trans found)
    cases second with
    | here => rfl
    | through met calls =>
      obtain rfl := Option.some.inj (met.symm.trans also)
      exact absurd calls (root also (same ▸ own) _ _)
  | through known calls rest ih =>
    obtain rfl := Option.some.inj (known.symm.trans found)
    cases second with
    | here met own =>
      obtain rfl := Option.some.inj (met.symm.trans also)
      exact absurd calls (root found (same.trans own) _ _)
    | through met alike following =>
      obtain rfl := Option.some.inj (met.symm.trans also)
      have equal := uniform.unique found also same
      rw [calls, alike] at equal
      obtain ⟨rfl, rfl, _⟩ := Term.call.inj equal
      obtain ⟨next, found⟩ := rest.known
      rw [same, ih following found found rfl]

omit uniform root in
theorem Leads.suffix {rule : RuleName} (leads : Leads grammar name key names)
    (member : rule ∈ names) : ∃ key definition after, grammar.find? key = some definition ∧
      definition.rule.name = rule ∧ Leads grammar name key (rule :: after) ∧
      after.length < names.length := by
  induction leads with
  | here => cases member
  | @through key next definition shape names found calls rest ih =>
    rcases List.mem_cons.mp member with rfl | member
    next => exact ⟨key, definition, names, found, rfl, .through found calls rest, Nat.lt_succ_self _⟩
    next =>
      obtain ⟨key, definition, after, known, own, follows, shorter⟩ := ih member
      exact ⟨key, definition, after, known, own, follows, Nat.lt_succ_of_lt shorter⟩

theorem Leads.distinct (leads : Leads grammar name key names) : (name :: names).Nodup := by
  induction leads with
  | here => exact List.nodup_singleton name
  | @through key next definition shape names found calls rest ih =>
    have other : definition.rule.name ≠ name := fun same => root found same _ _ calls
    have new : definition.rule.name ∉ names := by
      -- The chain from there on would be the whole chain.
      intro member
      obtain ⟨key, alternative, after, known, own, follows, shorter⟩ := rest.suffix member
      have equal := Leads.unique uniform root (.through found calls rest) follows found known own.symm
      have length := congrArg List.length (List.cons.inj equal).2
      omega
    simp only [List.nodup_cons, List.mem_cons, not_or] at ih ⊢
    exact ⟨⟨Ne.symm other, ih.1⟩, new, ih.2⟩

end Distinct

end Chain

variable {grammar : Grammar}

def Term.echo (grammar : Grammar) (term : Term) (budget : Nat) (source : Source) (cursor : Cursor) :
    Except Failure Value × Cursor :=
  Ending.result (term.parser grammar budget [] (.clean source cursor))

section Echo

variable {call : Call} {source : Source} {term : Term} {allowed : RuleName → Prop} {least n : Nat}

theorem quiet_of_within {journal added : List (Signal Stored)} (same : journal = added ++ [])
    (other : ∀ entered index, .step entered index .entering ∈ added → entered ≠ call) :
    entries (only call) journal = 0 := by
  rw [same, List.append_nil, entries, List.countP_eq_zero]
  intro signal member enters
  cases signal with
  | step entered index step =>
    cases step with
    | entering => exact other entered index member (by simpa [Signal.enters, only] using enters)
    | checked | reentered | grew | stored | withheld | leaving | failed => cases enters
  | bound | expected | allowed | rejected | broken => cases enters

theorem Term.Confined.echoes (confined : term.Confined grammar allowed) (pure : grammar.Pure)
    {place : Cursor → Prop}
    (clear : ∀ cursor other, place cursor → allowed other.rule →
      (cursor.index ≤ source.size → cursor.index ≤ other.cursor.index) → other ≠ call)
    (ends : ∀ cursor, place cursor →
      ¬ Exhausted (term.parser grammar least [] (.clean source cursor))) (enough : least ≤ n) :
    Echoes call source place (term.echo grammar least source) (term.parser grammar n []) where
  orderly := pure.orderly n [] confined.pure
  result := by
    intro machine lone here
    have same := (pure.prolongs enough [] confined.pure (.clean source machine.cursor)).resolve_left
      (ends machine.cursor here)
    have called := confined.calls pure n [] (.clean source machine.cursor)
      (.fresh source _ machine.cursor)
    obtain ⟨added, journal, within⟩ := called.journal
    have quiet : entries (only call) (Ending.machine
        (term.parser grammar n [] (.clean source machine.cursor))).journal = 0 := by
      refine quiet_of_within journal fun other index member => ?_
      obtain ⟨permitted, farther⟩ := within other index member
      exact clear machine.cursor other here permitted farther
    have result := (pure.isLocal n [] confined.pure).result_clean (only call) lone.plain
      (fun other unwatched => lone.unseen other (by simpa [only] using unwatched))
      (lone.source ▸ quiet)
    rw [result, lone.source, Term.echo, same]

theorem Pure.item_echoes (pure : grammar.Pure) (termPure : term.Pure)
    (ends : ∀ cursor, Beyond call source cursor →
      ¬ Exhausted (term.parser grammar least [] (.clean source cursor))) (enough : least ≤ n) :
    Echoes call source (Beyond call source) (term.echo grammar least source)
      (term.parser grammar n []) := by
  -- It may reach the rule of the call, but not at a place before its own.
  have confined : term.Confined grammar fun _ => True := ⟨termPure, fun _ _ => trivial⟩
  refine confined.echoes pure ?_ ends enough
  rintro cursor other ⟨beyond, within⟩ _ farther rfl
  have := farther within
  omega

theorem Term.Pure.only (termPure : term.Pure) : (Term.choice [term]).Pure := by
  simpa [Term.Pure, Term.all, allOf, Term.plain] using termPure

theorem Pure.base_echoes (pure : grammar.Pure) (termPure : term.Pure)
    (apart : ¬ term.Reaches grammar call.rule)
    (ends : ¬ Exhausted
      ((Term.choice [term]).parser grammar least [] (.clean source call.cursor)))
    (enough : least ≤ n) :
    Echoes call source (· = call.cursor) ((Term.choice [term]).echo grammar least source)
      (choice [term.parser grammar n []]) := by
  have confined : (Term.choice [term]).Confined grammar (· ≠ call.rule) := by
    refine ⟨termPure.only, ?_⟩
    rintro name ⟨member, reaches⟩ rfl
    obtain rfl : _ = term := by simpa [Term.parts] using member
    exact apart reaches
  have echoes : Echoes call source (· = call.cursor)
      ((Term.choice [term]).echo grammar least source) ((Term.choice [term]).parser grammar (n + 1) []) := by
    refine confined.echoes pure ?_ ?_ (Nat.le_succ_of_le enough)
    next =>
      rintro cursor other _ permitted _ rfl
      exact permitted rfl
    next =>
      rintro cursor rfl
      exact ends
  simpa only [Term.parser, List.map_cons, List.map_nil] using echoes

end Echo

theorem Pure.reaches_echo (pure : grammar.Pure) {term : Term} (termPure : term.Pure) {n : Nat}
    {source : Source} {cursor stop : Cursor} {value : Value}
    (ran : term.echo grammar n source cursor = (.ok value, stop)) :
    source.Reaches cursor stop := by
  obtain ⟨after, ended, rfl⟩ := Ending.eq_ok ran
  have advanced := pure.advances n [] termPure (.clean source cursor) (.fresh source _ cursor)
  rw [ended] at advanced
  exact advanced.reaches

theorem choice_one (parser : Parser Stored Value) {machine after : Machine Stored} {value : Value}
    (ran : choice [parser] machine = .ok value after) : parser machine = .ok value after := by
  rw [choice_cons, branch] at ran
  cases ended : parser machine with
  | ok found last => rwa [ended] at ran
  | error failure last =>
    rw [ended] at ran
    cases failure <;> cases ran

theorem Pure.result_idle (pure : grammar.Pure) {term : Term} (termPure : term.Pure) (n : Nat)
    {machine : Machine Stored} (idle : machine.active.activations = [])
    (off : machine.config.memoize = false) :
    Ending.result (term.parser grammar n [] machine) =
      term.echo grammar n machine.source machine.cursor :=
  (pure.isLocal n [] termPure).result_clean (fun _ => false) off (by simp [idle, seedIn])
    (List.countP_eq_zero.mpr fun signal _ => by unfold Signal.enters; split <;> simp)

theorem Pure.exists_enough (pure : grammar.Pure) {term : Term} (termPure : term.Pure)
    (source : Source) (limit : Nat) :
    ∃ least, ∀ n ≥ least, ∀ cursor : Cursor, cursor.index ≤ limit →
      ¬ Exhausted (term.parser grammar n [] (.clean source cursor)) := by
  obtain ⟨least, ends⟩ := pure.exists_budget termPure [] source limit
  refine ⟨least, fun n enough cursor within => ?_⟩
  have whole := ends (.clean source cursor) (.fresh source _ cursor) rfl within
  rwa [(pure.prolongs enough [] termPure _).resolve_left whole] at whole

theorem Pure.beyond (pure : grammar.Pure) {base : Term} (basePure : base.Pure)
    {machine : Machine Stored} (idle : machine.active.activations = [])
    (off : machine.config.memoize = false)
    (consumes : ∀ value after, base.EndsWith grammar [] machine (.ok value after) →
      machine.cursor.index < after.cursor.index) {call : Call}
    (origin : machine.cursor = call.cursor) {n : Nat} {value : Value} {stop : Cursor}
    (ran : (Term.choice [base]).echo grammar n machine.source call.cursor = (.ok value, stop)) :
    Beyond call machine.source stop := by
  cases n with
  | zero =>
    simp only [Term.echo, Term.parser] at ran
    cases (Prod.mk.inj ran).1
  | succ n =>
    obtain ⟨after, ended, rfl⟩ := Ending.eq_ok ran
    simp only [Term.parser, List.map_cons, List.map_nil] at ended
    have clean : base.echo grammar n machine.source machine.cursor = (.ok value, after.cursor) := by
      rw [origin, Term.echo, choice_one _ ended]
      rfl
    obtain ⟨last, last_eq, same⟩ := Ending.eq_ok ((pure.result_idle basePure n idle off).trans clean)
    have farther := consumes value last
      (.of_budget pure basePure last_eq (by simp [Ending.Exhausted]))
    have reached := (pure.reaches_echo basePure clean).index
    rw [same] at farther
    rw [origin] at farther reached
    exact ⟨farther, by omega⟩

theorem Term.parser_left (grammar : Grammar) (reentry item base : Term) (n : Nat)
    (args : List Arg) :
    (Term.choice [.sequence [reentry, item], base]).parser grammar (n + 2) args =
      leftBody (reentry.parser grammar n args) (item.parser grammar n args)
        (base.parser grammar (n + 1) args) := rfl

section LeftRecursion

variable {shapes : RuleName → Shape} {key first : String} {definition : Definition} {shape : Shape}
  {item base : Term} {names : List RuleName} {call : Call} {source : Source} {least : Nat}

theorem Uniform.alike (uniform : grammar.Uniform shapes) (pure : grammar.Pure)
    (found : grammar.find? key = some definition)
    (body : definition.body = .choice [.sequence [.call shape first [], item], base])
    (leads : Leads grammar definition.rule.name first names)
    (apart : ¬ base.Reaches grammar definition.rule.name)
    (itemEnds : ∀ cursor, Beyond call source cursor →
      ¬ Exhausted (item.parser grammar least [] (.clean source cursor)))
    (baseEnds : ¬ Exhausted
      ((Term.choice [base]).parser grammar least [] (.clean source call.cursor)))
    (rule : call.rule = definition.rule.name) (args : call.args = [])
    {n budget : Nat} (long : names.length < n) (enough : least ≤ n) (often : least ≤ budget) :
    Alike (Stored.codec (shapes definition.rule.name)) call source
      ((Term.call shape first []).parser grammar n [])
      (item.parser grammar n []) (item.parser grammar budget [])
      (base.parser grammar (n + 1) []) (base.parser grammar budget [])
      (item.echo grammar least source) ((Term.choice [base]).echo grammar least source) := by
  have bodyPure := pure.body found
  have bodyTyped := uniform.typed found
  rw [body] at bodyPure bodyTyped
  have pairPure := bodyPure.part (List.mem_cons_self : Term.sequence [.call shape first [], item] ∈ _)
  have itemPure : item.Pure := pairPure.part (by simp [Term.parts])
  have basePure : base.Pure := bodyPure.part (by simp [Term.parts])
  have typed : (Term.call shape first []).Typed grammar shapes :=
    (bodyTyped.part (List.mem_cons_self : Term.sequence [.call shape first [], item] ∈ _)).part
      (by simp [Term.parts])
  have root {other : String} {alternative : Definition}
      (known : grammar.find? other = some alternative)
      (same : alternative.rule.name = definition.rule.name) (shape : Shape) (next : String) :
      alternative.body ≠ .call shape next [] := by
    rw [uniform.unique known found same, body]
    simp
  have distinct := leads.distinct uniform root
  rw [← rule] at apart
  refine ⟨?_, pure.item_echoes itemPure itemEnds enough, pure.item_echoes itemPure itemEnds often,
    pure.base_echoes basePure apart baseEnds (Nat.le_succ_of_le enough),
    pure.base_echoes basePure apart baseEnds often, ?_⟩
  next =>
    -- The rule's own activation is the only one, so that no rule of the chain is active.
    intro told machine sole origin
    obtain ⟨activation, active, own, seeded, _⟩ := sole.active
    refine leads.recalls uniform distinct typed long sole.plain ?_ ?_ ?_ seeded
    next => rw [origin, ← rule, ← args]
    next => rw [Active.find?_eq, active]; simp [own]
    next =>
      intro other member entered
      have same : other = definition.rule.name := by
        simp only [Machine.calls, active, List.map_cons, List.map_nil, List.mem_singleton, own]
          at entered
        rw [← rule, ← entered]
      exact (List.nodup_cons.mp distinct).1 (same ▸ member)
  next =>
    intro cursor value stop beyond ran
    exact (pure.reaches_echo itemPure ran).le_of_le (Nat.le_refl _) beyond.2

end LeftRecursion

/-- Left recursion is iteration: a rule that begins with itself, or with a chain of rules that leads back
to it, and otherwise matches a base that moves the cursor, comes to what the loop comes to. The item may
call the rule and the chain. -/
theorem Uniform.left_recursion_iterates {shapes : RuleName → Shape}
    (uniform : grammar.Uniform shapes) (pure : grammar.Pure) {key first : String}
    {definition : Definition} {shape : Shape} {item base : Term} {names : List RuleName}
    (found : grammar.find? key = some definition)
    (body : definition.body = .choice [.sequence [.call shape first [], item], base])
    (leads : Leads grammar definition.rule.name first names)
    (apart : ¬ base.Reaches grammar definition.rule.name) {machine : Machine Stored}
    (idle : machine.active.activations = []) (off : machine.config.memoize = false)
    (consumes : ∀ value after, base.EndsWith grammar [] machine (.ok value after) →
      machine.cursor.index < after.cursor.index) :
    ∃ ending, (Term.call (shapes definition.rule.name) key []).EndsWith grammar [] machine ending ∧
      ∃ least, ∀ budget ≥ least,
        Ending.result (iterate (base.parser grammar budget []) (item.parser grammar budget []) budget
          machine) = Ending.result ending := by
  let whole := Term.call (shapes definition.rule.name) key []
  let call : Call := callOf definition.rule [] machine
  let source := machine.source
  have wholePure : whole.Pure := rfl
  have bodyPure := pure.body found
  rw [body] at bodyPure
  have pairPure := bodyPure.part (List.mem_cons_self : Term.sequence [.call shape first [], item] ∈ _)
  have itemPure : item.Pure := pairPure.part (by simp [Term.parts])
  have basePure : base.Pure := bodyPure.part (by simp [Term.parts])
  obtain ⟨itemLeast, itemEnds⟩ := pure.exists_enough itemPure source source.size
  obtain ⟨baseLeast, baseEnds⟩ := pure.exists_enough basePure.only source call.cursor.index
  obtain ⟨wholeLeast, wholeEnds⟩ := pure.exists_enough wholePure source call.cursor.index
  let least := itemLeast + baseLeast + wholeLeast + names.length + source.size + 1
  refine ⟨whole.parser grammar (least + 3) [] machine, .of_budget pure wholePure rfl ?_, least,
    fun budget enough => ?_⟩
  next =>
    have clean := wholeEnds (least + 3) (by omega) call.cursor (Nat.le_refl _)
    have same := congrArg Prod.fst (pure.result_idle wholePure (least + 3) idle off)
    intro exhausted
    exact clean (same.symm.trans exhausted)
  have itemWhole (cursor : Cursor) (beyond : Beyond call source cursor) :
      ¬ Exhausted (item.parser grammar least [] (.clean source cursor)) :=
    itemEnds least (by omega) cursor beyond.2
  have baseWhole : ¬ Exhausted
      ((Term.choice [base]).parser grammar least [] (.clean source call.cursor)) :=
    baseEnds least (by omega) call.cursor (Nat.le_refl _)
  have alike := uniform.alike pure found body leads apart itemWhole baseWhole rfl rfl
    (n := least) (by omega) (Nat.le_refl least) enough
  have sole : Sole (Stored.codec (shapes definition.rule.name)) call source none False
      (opened call (machine.report call .entering)) :=
    ⟨rfl, off, _, congrArg (List.cons _) idle, rfl, rfl, False.elim⟩
  have lone : Lone call source machine := ⟨rfl, off, fun _ _ => by simp [idle, seedIn]⟩
  have agree := alike.iterates
    (fun value stop => pure.beyond basePure idle off consumes rfl) sole rfl lone rfl
    (n := least + 2) (by omega) (show source.size < budget by omega)
  have same : machine.cursor = call.cursor := rfl
  rw [agree.iterates _ same]
  rw [Term.parser_call found, List.map_nil,
    invoke_inactive _ _ _ off rfl (by simp [Machine.calls, idle]), body, Term.parser_left]

def argument : Term :=
  .sequence [.literal "(", .call .plain "term" [], .literal ")"]

def applications : Grammar where
  definitions :=
    [("term",
      { rule := { name := { grammar := "applications", rule := "term" } }
        body := .choice [.sequence [.call .plain "function" [], argument], .charBetween 'a' 'z'] }),
     ("function",
      { rule := { name := { grammar := "applications", rule := "function" } }
        body := .call .plain "term" [] })]

def applied : Machine Stored :=
  .clean (.ofString "f(x)(y)") {}

theorem left_recursion_iterates_applications :
    applications.Uniform (fun _ => .plain) ∧ applications.Pure ∧
    applications.Leads { grammar := "applications", rule := "term" } "function"
      [{ grammar := "applications", rule := "function" }] ∧
    ¬ (Term.charBetween 'a' 'z').Reaches applications { grammar := "applications", rule := "term" } ∧
    applied.active.activations = [] ∧ applied.config.memoize = false ∧
    (∀ value after, (Term.charBetween 'a' 'z').EndsWith applications [] applied (.ok value after) →
      applied.cursor.index < after.cursor.index) ∧
    ∃ ending, (Term.call .plain "term" []).EndsWith applications [] applied ending ∧
      (∃ least, ∀ budget ≥ least,
        Ending.result (iterate ((Term.charBetween 'a' 'z').parser applications budget [])
          (argument.parser applications budget []) budget applied) = Ending.result ending) ∧
      (Ending.machine ending).cursor.index = applied.source.size := by
  have uniform : applications.Uniform fun _ => .plain := .of_distinct (by decide) (by decide)
  have pure : applications.Pure := by decide
  have term : applications.find? "term" = some _ := rfl
  have function : applications.find? "function" = some _ := rfl
  have leads : applications.Leads { grammar := "applications", rule := "term" } "function"
      [{ grammar := "applications", rule := "function" }] := .through function rfl (.here term rfl)
  have apart : ¬ (Term.charBetween 'a' 'z').Reaches applications
      { grammar := "applications", rule := "term" } := by
    rintro ⟨member, _⟩
    simp [Term.parts] at member
  have consumes (value : Value) (after : Machine Stored)
      (ends : (Term.charBetween 'a' 'z').EndsWith applications [] applied (.ok value after)) :
      applied.cursor.index < after.cursor.index := by
    have same := (Term.trial_ends pure (by decide) (by decide +kernel)).unique ends
    have farther : applied.cursor.index <
        (Ending.machine ((Term.charBetween 'a' 'z').trial applications applied)).cursor.index := by
      decide +kernel
    rwa [same] at farther
  obtain ⟨ending, ends, loops⟩ :=
    uniform.left_recursion_iterates pure term rfl leads apart rfl rfl consumes
  have ran := (Term.trial_ends pure (by decide) (by decide +kernel)).unique ends
  have whole : (Ending.machine ((Term.call .plain "term" []).trial applications applied)).cursor.index =
      applied.source.size := by
    decide +kernel
  exact ⟨uniform, pure, leads, apart, rfl, rfl, consumes, ending, ends, loops, ran ▸ whole⟩

end Packrat.Grammar
