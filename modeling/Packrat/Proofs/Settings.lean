import Packrat.Proofs.Printing
import Packrat.Proofs.Transparency

set_option autoImplicit false

namespace Packrat

open Ending (Exhausted)

namespace Parser

variable {ν α : Type}

-- A call is direct if its body is and the call is the innermost one wherever it is active.

theorem indifferent_direct : Machine.Indifferent (ν := ν)
    fun before after => Direct before.journal → Direct after.journal where
  aside _ _ _ _ := id
  trans first second := second ∘ first
  register _ _ _ := id
  allow _ _ := id
  dropFrame := id

variable {codec : Codec ν α} {call : Call} {body : Parser ν α} {machine : Machine ν}

theorem direct_settle (call : Call) (memoized : Bool) (outcome : Except Failure ν)
    (direct : Direct machine.journal) : Direct (settle call memoized outcome machine).journal := by
  have result := settled call memoized outcome machine
  generalize settle call memoized outcome machine = last at result ⊢
  cases result <;> exact direct

theorem direct_grow (Ready : Machine ν → Prop) (codec : Codec ν α) (n : Nat)
    (runs : ∀ {machine}, Ready machine → Direct machine.journal →
      Direct (Ending.machine (body machine)).journal)
    (again : ∀ {machine next}, Ready machine → round codec call (body machine) = .again next →
      Ready next)
    (ready : Ready machine) (direct : Direct machine.journal) :
    Direct (Ending.machine (grow codec call body n machine)).journal := by
  induction n generalizing machine with
  | zero => exact direct
  | succ n ih =>
    have ran := runs ready direct
    rw [grow_succ]
    cases result : round codec call (body machine) with
    | done ending =>
      simp only
      rwa [journal_of_done result]
    | again next =>
      obtain ⟨value, after, _, ended, rfl, _⟩ := round_again result
      rw [ended] at ran
      exact ih (again ready result) ran

theorem direct_evaluate {n : Nat} {journal : List (Signal ν)} (memoized : Bool)
    (innermost : call ∈ machine.calls → machine.calls.head? = some call)
    (grown : call ∉ machine.calls → ∀ {journal}, openCalls journal = call :: machine.calls →
      Direct journal →
      Direct (Ending.machine (grow codec call body n (opened call { machine with journal }))).journal)
    (entered : openCalls journal = call :: machine.calls) (direct : Direct journal) :
    Direct (Ending.machine
      (evaluate codec call memoized body n { machine with journal })).journal := by
  unfold evaluate
  split
  next activation found =>
    obtain ⟨member, rfl⟩ := mem_of_find? found
    have own := innermost (List.mem_map_of_mem member)
    obtain ⟨cursor, ran⟩ := machine_reenter codec activation.call activation { machine with journal }
    have fact : isDirect journal = true := direct
    rw [ran]
    simp [Machine.moveTo, Machine.report, Machine.write, Direct, isDirect, entered, own, fact]
  next missing =>
    rw [activate_eq, machine_close]
    apply direct_settle
    rw [journal_rewound]
    exact grown (inactive_of_find? missing) entered direct

theorem direct_invoke {rule : Rule} {args : List Arg} {n : Nat}
    (known : openCalls machine.journal = machine.calls)
    (innermost : callOf rule args machine ∈ machine.calls →
      machine.calls.head? = some (callOf rule args machine))
    (grown : callOf rule args machine ∉ machine.calls → ∀ {journal},
      openCalls journal = callOf rule args machine :: machine.calls → Direct journal →
      Direct (Ending.machine (grow codec (callOf rule args machine) body n
        (opened (callOf rule args machine) { machine with journal }))).journal)
    (direct : Direct machine.journal) :
    Direct (Ending.machine (invoke codec rule args body n machine)).journal := by
  rw [invoke_eq]
  have evaluated (memoized : Bool) {journal : List (Signal ν)} :=
    @direct_evaluate _ _ codec _ _ _ n journal memoized innermost grown
  generalize callOf rule args machine = call at *
  have entered : openCalls (machine.report call .entering).journal = call :: machine.calls :=
    congrArg (call :: ·) known
  have answered : Direct (Ending.machine (answer codec call (rule.memoized && machine.config.memoize)
      body n (machine.report call .entering))).journal := by
    unfold answer
    split
    next =>
      split
      next =>
        simp only [machine_replay]
        exact direct
      next => exact evaluated _ entered direct
    next => exact evaluated _ entered direct
  generalize answer codec call _ body n _ = ending at answered
  cases ending <;> exact answered

end Parser

namespace Calculator

open Packrat.Parser

variable {α : Type}

def rankBody (rank : Rank) (budget : Nat) : Parser Expr Expr :=
  match rank with
  | .sum => tierBody budget .sum .product
  | .product => tierBody budget .product .factor
  | .factor => Parser.choice [negation (operand budget .factor), number, group (operand budget .sum)]

theorem operand_eq (budget : Nat) (rank : Rank) :
    operand (budget + 1) rank =
      invoke (.identity Expr) rank.rule rank.args (rankBody rank budget) budget := by
  cases rank <;> rfl

theorem rankBody_tier {rank next : Rank} (tier : Next rank next) (budget : Nat) :
    rankBody rank budget = tierBody budget rank next := by
  cases tier <;> rfl

-- What comes after the first character of a factor.

def negated (factor : Parser Expr Expr) : Parser Expr Expr := do
  blanks
  return .neg (← factor)

def grouped (sum : Parser Expr Expr) : Parser Expr Expr := do
  blanks
  let inner ← sum
  blanks
  let _ ← Parser.literal ")"
  return inner

theorem negation_eq (factor : Parser Expr Expr) :
    negation factor = Parser.literal "-" >>= fun _ => negated factor := rfl

theorem group_eq (sum : Parser Expr Expr) :
    group sum = Parser.literal "(" >>= fun _ => grouped sum := rfl

section Related

variable {R : (α : Type) → Parser Expr α → Parser Expr α → Prop}
variable {first second third fourth : Parser Expr Expr} {n m : Nat}

section

variable (respected : Sequential R)

include respected

theorem related_literal (text : String) :
    R String (Parser.literal text) (Parser.literal text) := by
  rw [literal_eq]
  exact respected.leaf (forward_literal text) (anchored_literal text)

theorem related_blanks : R Unit blanks blanks := by
  rw [blanks, run_eq]
  exact respected.map _ (respected.leaf (forward_run _ _) (anchored_run _ _))

theorem related_operator (rank : Rank) : R Operator (operator rank) (operator rank) :=
  respected.choice fun _ _ => respected.map _ (related_literal respected _)

theorem related_digits : R Expr digits digits := by
  refine respected.bind ?_ fun text => ?_
  next =>
    rw [run1_eq]
    exact respected.leaf (forward_run1 _ _) (anchored_run1 _ _)
  next =>
    simp only
    split
    next => exact respected.pure _
    next => exact respected.noMatch

theorem related_joined (rank : Rank) (same : R Expr first second) (next : R Expr third fourth) :
    R Expr (joined rank first third) (joined rank second fourth) :=
  respected.bind same fun left =>
    respected.bind (related_blanks respected) fun _ =>
      respected.bind (related_operator respected rank) fun op =>
        respected.bind (related_blanks respected) fun _ =>
          respected.bind next fun right => respected.pure (Expr.binary op left right)

theorem related_negated (same : R Expr first second) : R Expr (negated first) (negated second) :=
  respected.bind (related_blanks respected) fun _ =>
    respected.bind same fun inner => respected.pure (Expr.neg inner)

theorem related_grouped (same : R Expr first second) : R Expr (grouped first) (grouped second) :=
  respected.bind (related_blanks respected) fun _ =>
    respected.bind same fun inner =>
      respected.bind (related_blanks respected) fun _ =>
        respected.bind (related_literal respected ")") fun _ => respected.pure inner

theorem related_choice_cons {parts others : List (Parser Expr Expr)} (same : R Expr first second)
    (rest : R Expr (Parser.choice parts) (Parser.choice others)) :
    R Expr (Parser.choice (first :: parts)) (Parser.choice (second :: others)) := by
  rw [choice_cons, choice_cons]
  exact respected.branch same respected.pure fun _ => rest

theorem related_tier {rank next : Rank} (same : R Expr (operand n rank) (operand m rank))
    (closer : R Expr (operand n next) (operand m next)) :
    R Expr (tierBody n rank next) (tierBody m rank next) :=
  related_choice_cons respected (related_joined respected rank same closer)
    (related_choice_cons respected closer respected.noMatch)

theorem related_factor (first second third fourth : Parser Expr Expr)
    (signed : R Expr (negation first) (negation second)) (plain : R Expr number number)
    (enclosed : R Expr (group third) (group fourth)) :
    R Expr (Parser.choice [negation first, number, group third])
      (Parser.choice [negation second, number, group fourth]) :=
  related_choice_cons respected signed
    (related_choice_cons respected plain (related_choice_cons respected enclosed respected.noMatch))

theorem related_expression (operands : ∀ n, R Expr (operand n .sum) (operand n .sum)) :
    R Expr expression expression :=
  have spaced := related_blanks respected
  respected.bind (respected.look fun source _ => source) fun source =>
    respected.bind spaced fun _ =>
      respected.bind (operands (budgetFor source)) fun value =>
        respected.bind spaced fun _ => by
          rw [endOfInput_eq]
          exact respected.bind (respected.leaf forward_end anchored_end) fun _ =>
            respected.pure value

end

variable (respected : Structural R)

include respected

theorem related_number : R Expr number number :=
  respected.atomic "number" (related_digits respected.toSequential)

theorem related_body (operands : ∀ rank, R Expr (operand n rank) (operand m rank)) (rank : Rank) :
    R Expr (rankBody rank n) (rankBody rank m) := by
  have sequential := respected.toSequential
  have opening (text : String) := related_literal sequential text
  cases rank with
  | sum => exact related_tier sequential (operands .sum) (operands .product)
  | product => exact related_tier sequential (operands .product) (operands .factor)
  | factor =>
    refine related_factor sequential _ _ _ _ ?_ (related_number respected) ?_
    next =>
      rw [negation_eq, negation_eq]
      exact respected.bind (opening "-") fun _ => related_negated sequential (operands .factor)
    next =>
      rw [group_eq, group_eq]
      exact respected.bind (opening "(") fun _ => related_grouped sequential (operands .sum)

theorem related_operand (stop : ∀ m rank, R Expr (fail .exhausted) (operand m rank))
    (call : ∀ {n}, (∀ rank {m}, n ≤ m → R Expr (rankBody rank n) (rankBody rank m)) →
      ∀ rank {m}, n ≤ m →
        R Expr (invoke (.identity Expr) rank.rule rank.args (rankBody rank n) n)
          (invoke (.identity Expr) rank.rule rank.args (rankBody rank m) m))
    (within : n ≤ m) (rank : Rank) : R Expr (operand n rank) (operand m rank) := by
  induction n generalizing m rank with
  | zero => exact stop m rank
  | succ n ih =>
    obtain ⟨m, rfl⟩ : ∃ less, m = less + 1 := ⟨m - 1, by omega⟩
    rw [operand_eq, operand_eq]
    refine call (fun rank m within => ?_) rank (by omega)
    exact related_body respected (ih within) rank

end Related

theorem holds_operand {P : (α : Type) → Parser Expr α → Prop} (closed : Closed P)
    (stop : P Expr (fail .exhausted))
    (call : ∀ (rank : Rank) (n : Nat), P Expr (rankBody rank n) →
      P Expr (invoke (.identity Expr) rank.rule rank.args (rankBody rank n) n))
    (n : Nat) (rank : Rank) : P Expr (operand n rank) :=
  related_operand closed.structural (fun _ _ => stop)
    (fun {n} bodies rank _ _ => call rank n (bodies rank (Nat.le_refl n))) (Nat.le_refl n) rank

theorem holds_body {P : (α : Type) → Parser Expr α → Prop} (closed : Closed P)
    (operands : ∀ n rank, P Expr (operand n rank)) (n : Nat) (rank : Rank) :
    P Expr (rankBody rank n) :=
  @related_body _ n n closed.structural (operands n) rank

theorem orderly_operand (n : Nat) (rank : Rank) : Orderly (operand n rank) :=
  holds_operand orderly_blocks orderly_stop (fun _ _ orderly => orderly.invoke _ _ _ _) n rank

theorem orderly_body (n : Nat) (rank : Rank) : Orderly (rankBody rank n) :=
  holds_body orderly_blocks orderly_operand n rank

theorem advances_operand (n : Nat) (rank : Rank) : Advances (operand n rank) :=
  holds_operand advances_blocks advances_stop
    (fun rank n advances => advances.invoke (orderly_body n rank) _ _ _ _) n rank

theorem tidies_expression : Tidies expression :=
  related_expression tidies_blocks.structural.toSequential fun n =>
    holds_operand tidies_blocks .stop (fun _ _ tidies => tidies.invoke _ _ _ _) n .sum

theorem prolongs_body {n m : Nat} (within : n ≤ m) (rank : Rank) :
    Prolongs (rankBody rank n) (rankBody rank m) :=
  related_body prolongs_blocks.structural
    (related_operand prolongs_blocks.structural (fun _ _ => .stop _)
      (fun bodies rank _ within => (bodies rank within).invoke within) within) rank

-- The calls of the ranks in two runs side by side.

def book : Book Expr Expr where
  memoized _ := true
  codec _ := .identity Expr
  Body call body := ∃ rank : Rank, call.rule = rank.rule.name ∧ call.args = rank.args ∧
    body = rankBody rank

theorem rank_unique {rank other : Rank} (rule : rank.rule.name = other.rule.name)
    (args : rank.args = other.args) : rank = other :=
  (@call_inj rank other {} {} (by simp only [Rank.call, rule, args])).1

theorem simulates_operand {n m : Nat} (within : n ≤ m) (rank : Rank) :
    book.Simulates (operand n rank) (operand m rank) := by
  refine related_operand Book.simulates_blocks.structural
    (fun m rank => Book.simulates_stop _ (orderly_operand m rank)) ?_ within rank
  intro n bodies rank m within
  have flag : book.memoized rank.rule.name = rank.rule.memoized := by cases rank <;> rfl
  have enacts (cursor : Cursor) : book.Enacts n
      { cursor, rule := rank.rule.name, args := rank.args } (rankBody rank n) := by
    refine ⟨?_, ?_⟩
    next =>
      rintro _ ⟨other, rule, args, rfl⟩ m within
      obtain rfl := rank_unique rule args
      exact bodies rank within
    next =>
      rintro _ ⟨other, _, _, rfl⟩ k m within
      exact prolongs_body within other
  exact Book.Enacts.invoke enacts (fun _ => ⟨rank, rfl, rfl, rfl⟩) (bodies rank (Nat.le_refl n)).keeps
    (orderly_body n rank) (orderly_body m rank) within flag rfl

theorem simulates_expression : book.Simulates expression expression :=
  related_expression Book.simulates_blocks.structural.toSequential fun n =>
    simulates_operand (Nat.le_refl n) .sum

-- Recursion of the ranks.

theorem known_onward {machine after : Machine Expr} (known : openCalls machine.journal = machine.calls)
    (inside : machine.Inside after) : openCalls after.journal = after.calls := by
  obtain ⟨added, same, balanced⟩ := inside.journal
  rw [same, balanced, inside.calls, known]

structure Amid (rank : Rank) (origin : Cursor) (machine : Machine Expr) : Prop where
  sound : machine.Sound
  fits : origin.index ≤ machine.source.size
  reaches : machine.source.Reaches origin machine.cursor
  known : openCalls machine.journal = machine.calls
  own : machine.calls.head? = some (rank.call origin)
  around : ∀ call ∈ machine.calls.tail, ∃ (other : Rank) (cursor : Cursor),
    call = other.call cursor ∧ 3 * cursor.index + other.depth < 3 * origin.index + rank.depth

structure Poised (rank : Rank) (machine : Machine Expr) : Prop where
  sound : machine.Sound
  fits : machine.cursor.index ≤ machine.source.size
  known : openCalls machine.journal = machine.calls
  calls : Opens rank machine ∨ machine.calls.head? = some (rank.call machine.cursor)

theorem opens_iff {rank : Rank} {machine : Machine Expr} :
    Opens rank machine ↔ ∀ call ∈ machine.calls, ∃ (other : Rank) (cursor : Cursor),
      call = other.call cursor ∧
        3 * cursor.index + other.depth < 3 * machine.cursor.index + rank.depth := by
  simp [Opens, Machine.calls]

namespace Amid

variable {rank next : Rank} {origin : Cursor} {machine after : Machine Expr}

theorem index_le (amid : Amid rank origin machine) : origin.index ≤ machine.cursor.index :=
  amid.reaches.index_le amid.fits

theorem within (amid : Amid rank origin machine) : machine.cursor.index ≤ machine.source.size :=
  amid.reaches.le_of_le (Nat.le_refl _) amid.fits

theorem onward (amid : Amid rank origin machine) (inside : machine.Inside after)
    (advanced : machine.Advanced after) : Amid rank origin after where
  sound := advanced.sound
  fits := advanced.source ▸ amid.fits
  reaches := advanced.source ▸ amid.reaches.trans advanced.reaches
  known := known_onward amid.known inside
  own := inside.calls ▸ amid.own
  around := inside.calls ▸ amid.around

theorem opens (amid : Amid rank origin machine)
    (later : 3 * origin.index + rank.depth < 3 * machine.cursor.index + next.depth) :
    Opens next machine := by
  rw [opens_iff]
  intro call member
  have own := amid.own
  have around := amid.around
  cases calls : machine.calls with
  | nil => simp [calls] at own
  | cons first outer =>
    simp only [calls, List.head?_cons, Option.some.injEq, List.tail_cons] at own around
    simp only [calls, List.mem_cons] at member
    rcases member with rfl | member
    next => exact ⟨rank, origin, own, later⟩
    next =>
      obtain ⟨other, cursor, same, before⟩ := around call member
      exact ⟨other, cursor, same, by omega⟩

theorem poised (amid : Amid rank origin machine)
    (later : 3 * origin.index + rank.depth < 3 * machine.cursor.index + next.depth) :
    Poised next machine :=
  ⟨amid.sound, amid.within, amid.known, .inl (amid.opens later)⟩

theorem poised_again (amid : Amid rank origin machine) : Poised rank machine := by
  refine ⟨amid.sound, amid.within, amid.known, ?_⟩
  have before := amid.index_le
  by_cases same : machine.cursor.index = origin.index
  next =>
    have still : machine.cursor = origin := by
      have level := amid.reaches.level
      cases place : machine.cursor
      cases origin
      simp_all
    rw [still]
    exact .inr amid.own
  next => exact .inl (amid.opens (by omega))

end Amid

structure Directed (before after : Machine Expr) : Prop extends before.Further after where
  direct : Direct before.journal → Direct after.journal

def Straight (Ready : Machine Expr → Prop) (parser : Parser Expr α) : Prop :=
  ∀ machine, Ready machine → Directed machine (Ending.machine (parser machine))

namespace Straight

variable {Ready : Machine Expr → Prop}

theorem sequential (sound : ∀ {machine}, Ready machine → machine.Sound)
    (ready : ∀ {before after}, Ready before → before.Inside after → before.Advanced after →
      Ready after) : Sequential fun _ parser _ => Straight Ready parser :=
  Passage.sequential
    { refl := fun ready => ⟨.refl (sound ready), id⟩
      trans := fun first second =>
        ⟨first.toFurther.trans second.toFurther, second.direct ∘ first.direct⟩
      ready := fun origin directed => ready origin directed.later.inside directed.advanced
      moveTo := fun directed reaches => ⟨directed.toFurther.moveTo reaches, directed.direct⟩
      register := fun label directed _ => ⟨directed.toFurther.register _ label, directed.direct⟩ }

theorem number (sound : ∀ {machine}, Ready machine → machine.Sound) : Straight Ready number := by
  intro machine ready
  refine ⟨⟨?_, ?_⟩, ?_⟩
  next => exact related_number orderly_blocks.structural machine
  next => exact related_number advances_blocks.structural machine (sound ready)
  next => exact related_number indifferent_direct.closed.structural machine

end Straight

theorem straight_amid (rank : Rank) (origin : Cursor) :
    Sequential fun _ parser _ => Straight (Amid rank origin) parser :=
  Straight.sequential Amid.sound Amid.onward

theorem straight_later (origin : Cursor) : Sequential fun _ parser _ =>
    Straight (fun machine => Amid .factor origin machine ∧ origin.index < machine.cursor.index)
      parser := by
  refine Straight.sequential (fun ready => ready.1.sound) fun ready inside advanced => ?_
  have moved := advanced.reaches.index_le ready.1.within
  exact ⟨ready.1.onward inside advanced, Nat.lt_of_lt_of_le ready.2 moved⟩

theorem index_lt_of_literal {text : String} {value : String} {machine after : Machine Expr}
    (some : text.toList ≠ []) (ran : Parser.literal text machine = .ok value after) :
    machine.cursor.index < after.cursor.index := by
  have moved : after = machine.moveTo
        (Parser.skip (Text.size text.toList) machine.source machine.cursor) ∧
      text.toList.isPrefixOf (machine.source.rest machine.cursor.index) = true := by
    rw [literal_eq] at ran
    by_cases found : text.toList.isPrefixOf (machine.source.rest machine.cursor.index) = true
    next =>
      simp only [leaf, literalMove, found, if_true] at ran
      cases ran
      exact ⟨rfl, found⟩
    next =>
      simp only [leaf, literalMove, found] at ran
      cases ran
  obtain ⟨rest, split⟩ := List.isPrefixOf_iff_prefix.mp moved.2
  have fits := (Source.boundary_add split.symm some).le_size
  rw [← machine.source.size_eq] at fits
  obtain ⟨first, others, chars⟩ := List.exists_cons_of_ne_nil some
  have positive := first.utf8Size_pos
  rw [moved.1]
  simp only [Machine.moveTo, Parser.skip, chars, Text.size_cons] at fits ⊢
  omega

theorem Straight.opening {origin : Cursor} {text : String} {parser : Parser Expr Expr}
    (some : text.toList ≠ [])
    (straight : Straight
      (fun machine => Amid .factor origin machine ∧ origin.index < machine.cursor.index) parser) :
    Straight (Amid .factor origin) (Parser.literal text >>= fun _ => parser) := by
  have opens := related_literal (straight_amid .factor origin) text
  intro machine ready
  have first := opens machine ready
  rw [bind_apply]
  cases ending : Parser.literal text machine with
  | ok value after =>
    rw [ending] at first
    have farther := index_lt_of_literal some ending
    have before := ready.index_le
    have rest := straight after ⟨ready.onward first.later.inside first.advanced, by omega⟩
    exact ⟨first.toFurther.trans rest.toFurther, rest.direct ∘ first.direct⟩
  | error failure after => rwa [ending] at first

section Ranks

variable {rank next : Rank} {origin : Cursor} {n : Nat}

theorem straight_body
    (operands : ∀ rank {machine}, Poised rank machine → Direct machine.journal →
      Direct (Ending.machine (operand n rank machine)).journal) (rank : Rank) (origin : Cursor) :
    Straight (Amid rank origin) (rankBody rank n) := by
  have straight {Ready : Machine Expr → Prop} (other : Rank)
      (poised : ∀ {machine}, Ready machine → Poised other machine) :
      Straight Ready (operand n other) := fun machine ready =>
    ⟨⟨orderly_operand n other machine, advances_operand n other machine (poised ready).sound⟩,
      operands other (poised ready)⟩
  have sequential := straight_amid rank origin
  rcases rank.factor_or_next with rfl | ⟨next, tier⟩
  next =>
    have deeper {other : Rank} {machine : Machine Expr} (amid : Amid .factor origin machine)
        (farther : origin.index < machine.cursor.index) : Poised other machine :=
      amid.poised (by simp only [Rank.depth]; omega)
    have inner (other : Rank) : Straight
        (fun machine => Amid .factor origin machine ∧ origin.index < machine.cursor.index)
        (operand n other) :=
      straight other fun ready => deeper ready.1 ready.2
    have later := straight_later origin
    have signed := @related_negated _ _ (operand n .factor) later (inner .factor)
    have enclosed := @related_grouped _ _ (operand n .sum) later (inner .sum)
    exact related_factor sequential (operand n .factor) (operand n .factor) (operand n .sum)
      (operand n .sum) (signed.opening (by decide)) (.number Amid.sound) (enclosed.opening (by decide))
  next =>
    rw [rankBody_tier tier]
    refine @related_tier _ n n sequential rank next (straight rank Amid.poised_again)
      (straight next fun amid => ?_)
    have before := amid.index_le
    have depth := tier.depth
    exact amid.poised (by omega)

theorem direct_operand {machine : Machine Expr} (poised : Poised rank machine)
    (direct : Direct machine.journal) : Direct (Ending.machine (operand n rank machine)).journal := by
  induction n generalizing machine rank with
  | zero => exact direct
  | succ n ih =>
    have straight := straight_body (fun rank _ poised direct => ih poised direct) rank machine.cursor
    have call : callOf rank.rule rank.args machine = rank.call machine.cursor := rfl
    rw [operand_eq]
    refine direct_invoke poised.known ?_ ?_ direct
    next =>
      rw [call]
      intro member
      rcases poised.calls with opens | own
      next =>
        obtain ⟨activation, running, same⟩ := List.mem_map.mp member
        exact absurd same (opens.ne running)
      next => exact own
    next =>
      rw [call]
      intro inactive journal entered noted
      have opens : Opens rank machine := by
        rcases poised.calls with opens | own
        next => exact opens
        next => exact absurd (List.mem_of_head? own) inactive
      -- The rounds all begin where the call does, amid its body.
      refine direct_grow
        (fun inner => Amid rank machine.cursor inner ∧ inner.cursor = machine.cursor) _ _ ?_ ?_ ?_ noted
      next => exact fun ready => (straight _ ready.1).direct
      next =>
        rintro inner next ⟨amid, origin⟩ again
        have ran := straight inner amid
        have calls : (Ending.machine (rankBody rank n inner)).calls.head? =
            some (rank.call machine.cursor) := ran.later.calls ▸ amid.own
        have inside := ran.later.inside.trans
          (inside_round (.identity Expr) (rank.call machine.cursor) (rankBody rank n inner))
        have advanced := advanced_round (.identity Expr) ran.advanced origin calls
        rw [again] at inside advanced
        exact ⟨amid.onward inside advanced, cursor_of_again again⟩
      next =>
        have sound : Machine.Sound { machine with journal } := { poised.sound with }
        refine ⟨⟨sound_opened sound _, poised.fits, .refl _ _, ?_, rfl, ?_⟩, rfl⟩
        next => exact entered
        next => exact opens_iff.mp opens

end Ranks

structure Idle (machine : Machine Expr) : Prop where
  sound : machine.Sound
  fits : machine.cursor.index ≤ machine.source.size
  known : openCalls machine.journal = machine.calls
  calls : machine.calls = []

theorem Idle.fresh (source : Source) (config : Config) : Idle { source, config } :=
  ⟨.fresh source config {}, Nat.zero_le _, rfl, rfl⟩

theorem Idle.onward {machine after : Machine Expr} (idle : Idle machine)
    (inside : machine.Inside after) (advanced : machine.Advanced after) : Idle after where
  sound := advanced.sound
  fits := advanced.source ▸ advanced.reaches.le_of_le (Nat.le_refl _) idle.fits
  known := known_onward idle.known inside
  calls := inside.calls.trans idle.calls

theorem Idle.poised {machine : Machine Expr} (idle : Idle machine) (rank : Rank) :
    Poised rank machine :=
  ⟨idle.sound, idle.fits, idle.known, .inl (opens_iff.mpr (by simp [idle.calls]))⟩

theorem straight_expression : Straight Idle expression :=
  related_expression (Straight.sequential Idle.sound Idle.onward) fun n =>
    fun machine idle =>
      ⟨⟨orderly_operand n .sum machine, advances_operand n .sum machine idle.sound⟩,
        direct_operand (idle.poised .sum)⟩

theorem direct_expression (source : Source) (config : Config) :
    Direct (Ending.machine (expression { source, config })).journal :=
  (straight_expression _ (.fresh source config)).direct rfl

-- Whole parses.

theorem expression_agrees (source : Source) (config : Config) :
    Agreed book.Looked { framed := True } 0 (expression { source, config })
      (expression { source, config := { config with memoize := false } }) := by
  have whole (config : Config) : ¬ Exhausted (expression { source, config }) := by
    have yields := expression_yields source config
    generalize (expression { source, config } : Ending Expr Expr) = ending at yields
    cases yields with
    | found => simp
    | missed _ recoverable _ =>
      rw [Ending.exhausted_error]
      rintro rfl
      cases recoverable
  have aligned : Aligned (ν := Expr) book.Looked { framed := True } [] { source, config }
      { source, config := { config with memoize := false } } :=
    ⟨rfl, rfl, fun _ => rfl, rfl, rfl, rfl, by simp⟩
  have honest : book.Honest { source, config } := by
    intro call verdict found
    simp [Grammar.find?_empty] at found
  rcases simulates_expression.agrees aligned honest with diverged | agreed
  next =>
    rcases diverged with exhausted | exhausted | ⟨around, _⟩ | ⟨around, _⟩ | ⟨call, withheld, _⟩
    next => exact absurd exhausted (whole config)
    next => exact absurd exhausted (whole _)
    next => exact absurd rfl around
    next => exact absurd rfl around
    next =>
      -- Direct recursion taints nothing, so nothing is withheld.
      have tidied := tidies_expression.tidied { source, config := { config with memoize := false } }
      obtain ⟨index, member⟩ := (tidied ⟨rfl, by simp⟩ (direct_expression source _)).2 call withheld
      cases member
  next => exact agreed

theorem farthestReport_congr {first second : Machine Expr} (source : first.source = second.source)
    (underline : first.config.underline = second.config.underline)
    (frame : first.farthest.innermost = second.farthest.innermost) :
    first.farthestReport = second.farthestReport := by
  simp only [Machine.farthestReport, source, underline, frame]

theorem parse_unmemoized (source : Source) (config : Config) :
    (expression.parse (Machine.start source config)).1 =
      (expression.parse (Machine.start source { config with memoize := false })).1 := by
  have agreed := expression_agrees source config
  have kept := (straight_expression _ (.fresh source config)).later
  have plainKept :=
    (straight_expression _ (.fresh source { config with memoize := false })).later
  simp only [ParserTo.parse, Machine.start]
  generalize (expression { source, config } : Ending Expr Expr) = ending,
    (expression { source, config := { config with memoize := false } } : Ending Expr Expr) = plain
    at agreed kept plainKept ⊢
  cases agreed with
  | ok value length aligned => rfl
  | error failure length aligned =>
    have styles := congrArg Config.underline kept.config
    have plainStyles := congrArg Config.underline plainKept.config
    have same := farthestReport_congr aligned.source (plainStyles.trans styles.symm)
      (aligned.frame trivial)
    simp only [same]
    split <;> rfl

/-- The answer to a command is the same whether or not the parse is memoized and however it is traced,
and no text makes the calculator call a rank again that is active and not the innermost one. -/
theorem settings_leave_answer (text : String) :
    (∀ (options : Options) (memoize : Bool) (trace : TraceMode),
      (Options.run { options with memoize, trace } text).answer = (options.run text).answer) ∧
      ∀ config : Config,
        Direct (Ending.machine (expression (.start (.ofString text) config))).journal := by
  refine ⟨fun options memoize trace => ?_, fun config => direct_expression (.ofString text) config⟩
  have plain (memoize : Bool) :=
    parse_unmemoized (.ofString text) { memoize }
  simp only [answer_run, parse_eq, Session.start, plain memoize,
    plain options.memoize]

end Calculator

end Packrat
