import Packrat.Calculator.Command
import Packrat.Proofs.Recognition

set_option autoImplicit false

namespace Packrat.Calculator

/-- No number in the expression is negative. A sign is a node of its own. -/
def Expr.Unsigned : Expr → Prop
  | .number value => 0 ≤ value.toInt
  | .neg operand => operand.Unsigned
  | .binary _ left right => left.Unsigned ∧ right.Unsigned

def Expr.decideUnsigned : (expr : Expr) → Decidable expr.Unsigned
  | .number value => inferInstanceAs (Decidable (0 ≤ value.toInt))
  | .neg operand => operand.decideUnsigned
  | .binary _ left right => @instDecidableAnd _ _ left.decideUnsigned right.decideUnsigned

instance (expr : Expr) : Decidable expr.Unsigned :=
  expr.decideUnsigned

-- Numbers.

theorem decimal_toDigits (n : Nat) : decimal (Nat.toDigits 10 n) = n := by
  have read : Nat.ofDigitChars 10 (Nat.toDigits 10 n) 0 = n :=
    Nat.ofDigitChars_toDigits (by decide) (by decide)
  exact read

theorem text_number {value : Int64} (unsigned : 0 ≤ value.toInt) :
    (Expr.number value).text.toList = Nat.toDigits 10 value.toInt.toNat := by
  have same : value.toInt = (value.toInt.toNat : Int) := (Int.toNat_of_nonneg unsigned).symm
  rw [Expr.text, same]
  exact Nat.toList_repr

theorem derives_number {value : Int64} (unsigned : 0 ≤ value.toInt) :
    Derives .factor (Expr.number value).text.toList (.number value) := by
  have read : numeral (Nat.toDigits 10 value.toInt.toNat) = value.toInt.toNat := by
    rw [← decimal_eq_numeral, decimal_toDigits]
  have derives : Derives .factor (Nat.toDigits 10 value.toInt.toNat)
      (.number (Int64.ofNat (numeral (Nat.toDigits 10 value.toInt.toNat)))) := by
    apply Derives.number
    next => exact List.length_pos_iff.mp Nat.length_toDigits_pos
    next => exact fun c member => Nat.isDigit_of_mem_toDigits (by decide) (by decide) member
    next =>
      have highest := value.toInt_lt
      rw [read]
      omega
  have back : Int64.ofNat value.toInt.toNat = value := by
    rw [← Int64.ofInt_eq_ofNat, Int.toNat_of_nonneg unsigned, Int64.ofInt_toInt]
  rw [text_number unsigned]
  rwa [read, back] at derives

-- Printed expressions.

theorem Next.of_joins {rank : Rank} {sign : Char} {op : Operator} (joins : Joins rank sign op) :
    ∃ next, Next rank next := by
  cases joins <;> exact ⟨_, by constructor⟩

theorem exists_joins (op : Operator) : ∃ rank, Joins rank op.symbol op := by
  cases op <;> exact ⟨_, by constructor⟩

theorem Derives.of_factor {text : List Char} {value : Expr} (derives : Derives .factor text value)
    (rank : Rank) : Derives rank text value := by
  have product : Derives .product text value := .single .product derives
  cases rank with
  | sum => exact .single .sum product
  | product => exact product
  | factor => exact derives

theorem Derives.sum_of_joins {rank : Rank} {sign : Char} {op : Operator} {text : List Char}
    {value : Expr} (joins : Joins rank sign op) (derives : Derives rank text value) :
    Derives .sum text value := by
  cases rank with
  | sum => exact derives
  | product => exact .single .sum derives
  | factor => exact absurd joins not_joins_factor

theorem blank_space : Blank [' '] := by
  intro c member
  obtain rfl := List.mem_singleton.mp member
  decide

theorem blank_nil : Blank [] := by
  simp [Blank]

theorem derives_text {expr : Expr} (unsigned : expr.Unsigned) :
    Derives .factor expr.text.toList expr := by
  induction expr with
  | number value => exact derives_number unsigned
  | neg operand ih =>
    have negated := Derives.negated blank_nil (ih unsigned)
    simpa [Expr.text] using negated
  | binary op left right ihLeft ihRight =>
    obtain ⟨rank, joins⟩ := exists_joins op
    obtain ⟨next, tier⟩ := Next.of_joins joins
    have leftmost := (ihLeft unsigned.1).of_factor rank
    have rightmost := (ihRight unsigned.2).of_factor next
    have joined := Derives.joined tier leftmost blank_space joins blank_space rightmost
    have grouped := Derives.group blank_nil (joined.sum_of_joins joins) blank_nil
    simpa [Expr.text] using grouped

theorem spells_text {expr : Expr} (unsigned : expr.Unsigned) : Spells expr.text.toList expr := by
  have whole := Spells.whole blank_nil ((derives_text unsigned).of_factor .sum) blank_nil
  simpa using whole

theorem Derives.unsigned {rank : Rank} {text : List Char} {value : Expr}
    (derives : Derives rank text value) : value.Unsigned := by
  induction derives with
  | joined _ _ _ _ _ _ ihLeft ihRight => exact ⟨ihLeft, ihRight⟩
  | single _ _ ih => exact ih
  | negated _ _ ih => exact ih
  | number _ _ range =>
    rw [Expr.Unsigned, Int64.toInt_ofNat_of_lt (by omega)]
    omega
  | group _ _ _ ih => exact ih

theorem Spells.unsigned {text : List Char} {value : Expr} (spells : Spells text value) :
    value.Unsigned := by
  cases spells with
  | whole _ derives _ => exact derives.unsigned

-- The command.

theorem machine_observe {ν : Type} (observers : List Trace.Observer) (session : Session ν) :
    (observers.foldl Session.observe session).machine = session.machine := by
  induction observers generalizing session with
  | nil => rfl
  | cons observer others ih => exact ih (session.observe observer)

theorem answer_run (options : Options) (text : String) :
    (options.run text).answer =
      match ((Session.start (.ofString text) { memoize := options.memoize }).parse expression).1 with
      | .ok expr => options.command.answer expr
      | .error cause => .error (.rejected cause) := by
  have same : ((options.observers.foldl Session.observe
      (Session.start (.ofString text) { memoize := options.memoize })).parse expression).1 =
        ((Session.start (.ofString text) { memoize := options.memoize }).parse expression).1 := by
    simp only [parse_eq, machine_observe]
  rw [← same, Options.run]
  split
  next rejected => simp only [rejected]
  next accepted => simp only [accepted]

theorem answer_run_of_spells {text : String} {expr : Expr} (spells : Spells text.toList expr)
    (options : Options) : (options.run text).answer = options.command.answer expr := by
  have accepted := (parse_eq_ok_iff text { memoize := options.memoize } expr).mpr spells
  simp only [answer_run, accepted]

theorem spells_of_answer {options : Options} {text output : String} (tree : options.command = .tree)
    (answer : (options.run text).answer = .ok output) :
    ∃ expr, Spells text.toList expr ∧ output = expr.text := by
  rw [answer_run] at answer
  cases result :
      ((Session.start (.ofString text) { memoize := options.memoize }).parse expression).1 with
  | error cause => simp [result] at answer
  | ok expr =>
    simp only [result, tree, Command.answer, Except.ok.injEq] at answer
    exact ⟨expr, (parse_eq_ok_iff text _ expr).mp result, answer.symm⟩

/-- An expression without negative numbers is parsed from its own text. Whatever a text is parsed as has
no negative numbers; so the tree that is printed for a text prints itself, and it evaluates to what the
text evaluates to, which is a value or an error. The runs may differ in their settings. -/
theorem printing_inverts_parsing :
    (∀ (expr : Expr) (config : Config), expr.Unsigned →
      ((Session.start (.ofString expr.text) config).parse expression).1 = .ok expr) ∧
    (∀ (text : String) (config : Config) (expr : Expr),
      ((Session.start (.ofString text) config).parse expression).1 = .ok expr → expr.Unsigned) ∧
    (∀ (text output : String) (print : Options), print.command = .tree →
      (print.run text).answer = .ok output →
        (∀ again : Options, again.command = .tree → (again.run output).answer = .ok output) ∧
        ∀ first second : Options, first.command = .eval → second.command = .eval →
          (first.run output).answer = (second.run text).answer) := by
  refine ⟨fun expr config unsigned => ?_, fun text config expr accepted => ?_,
    fun text output print tree answer => ?_⟩
  next => exact (parse_eq_ok_iff _ config expr).mpr (spells_text unsigned)
  next => exact ((parse_eq_ok_iff text config expr).mp accepted).unsigned
  next =>
    obtain ⟨expr, spells, rfl⟩ := spells_of_answer tree answer
    have back : Spells expr.text.toList expr := spells_text spells.unsigned
    refine ⟨fun again tree => ?_, fun first second evalFirst evalSecond => ?_⟩
    next => rw [answer_run_of_spells back, tree, Command.answer]
    next => rw [answer_run_of_spells back, answer_run_of_spells spells, evalFirst, evalSecond]

theorem printing_inverts_parsing_signs :
    let expr : Expr :=
      .neg (.binary .sub (.neg (.neg (.number 1))) (.binary .rem (.number 9223372036854775807)
        (.number 2)))
    let options : Options := { command := .tree, source := "" }
    expr.Unsigned ∧
    ((Session.start (.ofString expr.text) {}).parse expression).1 = .ok expr ∧
    (options.run " - (--1- 9223372036854775807%2 )").answer = .ok expr.text ∧
    (options.run expr.text).answer = .ok expr.text := by
  intro expr options
  have unsigned : expr.Unsigned := by decide
  have printed : (options.run " - (--1- 9223372036854775807%2 )").answer = .ok expr.text := by
    decide +kernel
  exact ⟨unsigned, printing_inverts_parsing.1 expr {} unsigned, printed,
    (printing_inverts_parsing.2.2 _ _ options rfl printed).1 options rfl⟩

end Packrat.Calculator
