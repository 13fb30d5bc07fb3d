import Mathlib.Data.List.TakeWhile
import Mathlib.Data.Nat.Digits.Defs
import Packrat.Calculator.Parse

set_option autoImplicit false

namespace Packrat.Calculator

/-- A character with the Unicode property White_Space: one of these 25. -/
def White (c : Char) : Prop :=
  c.toNat ∈ [0x9, 0xa, 0xb, 0xc, 0xd, 0x20, 0x85, 0xa0, 0x1680, 0x2000, 0x2001, 0x2002, 0x2003, 0x2004,
    0x2005, 0x2006, 0x2007, 0x2008, 0x2009, 0x200a, 0x2028, 0x2029, 0x202f, 0x205f, 0x3000]

instance (c : Char) : Decidable (White c) :=
  inferInstanceAs (Decidable (_ ∈ _))

def Blank (text : List Char) : Prop :=
  ∀ c ∈ text, White c

def numeral (digits : List Char) : Nat :=
  -- The lowest digit comes last in the text and first in the list.
  Nat.ofDigits 10 (digits.reverse.map fun digit => digit.toNat - '0'.toNat)

inductive Joins : Rank → Char → Operator → Prop
  | add : Joins .sum '+' .add
  | sub : Joins .sum '-' .sub
  | mul : Joins .product '*' .mul
  | div : Joins .product '/' .div
  | rem : Joins .product '%' .rem

inductive Next : Rank → Rank → Prop
  | sum : Next .sum .product
  | product : Next .product .factor

/-- Texts that derive an expression of a rank. White space is allowed between the parts and not
around them, and parentheses leave no node. -/
inductive Derives : Rank → List Char → Expr → Prop
  | joined {rank next : Rank} {first before after last : List Char} {sign : Char} {op : Operator}
      {left right : Expr} (tier : Next rank next) (leftmost : Derives rank first left)
      (blankBefore : Blank before) (joins : Joins rank sign op) (blankAfter : Blank after)
      (rightmost : Derives next last right) :
      Derives rank (first ++ (before ++ sign :: (after ++ last))) (.binary op left right)
  | single {rank next : Rank} {text : List Char} {value : Expr} (tier : Next rank next)
      (inner : Derives next text value) : Derives rank text value
  | negated {gap text : List Char} {value : Expr} (blank : Blank gap)
      (inner : Derives .factor text value) : Derives .factor ('-' :: (gap ++ text)) (.neg value)
  | number {digits : List Char} (some : digits ≠ []) (all : ∀ c ∈ digits, c.isDigit = true)
      (range : numeral digits ≤ 2 ^ 63 - 1) :
      Derives .factor digits (.number (Int64.ofNat (numeral digits)))
  | group {before text after : List Char} {value : Expr} (blankBefore : Blank before)
      (inner : Derives .sum text value) (blankAfter : Blank after) :
      Derives .factor ('(' :: (before ++ (text ++ (after ++ [')'])))) value

/-- Whole texts that derive an expression: a sum with white space around it. -/
inductive Spells : List Char → Expr → Prop
  | whole {before text after : List Char} {value : Expr} (blankBefore : Blank before)
      (inner : Derives .sum text value) (blankAfter : Blank after) :
      Spells (before ++ (text ++ after)) value

def skip (text : List Char) : List Char :=
  text.dropWhile CharSet.blank.contains

def numberAt (text : List Char) : Option (Expr × List Char) :=
  let digits := text.takeWhile Char.isDigit
  if digits ≠ [] ∧ InRange (decimal digits) then
    some (.number (Int64.ofNat (decimal digits)), text.dropWhile Char.isDigit)
  else none

def closed (read : Expr × List Char) : Option (Expr × List Char) :=
  match skip read.2 with
  | ')' :: rest => some (read.1, rest)
  | _ => none

def trailing (beyond : Nat) (result : Option (Expr × List Char)) : Nat :=
  match result with
  | some read => min beyond (Text.size (skip read.2))
  | none => beyond

inductive Task where
  | operand (rank : Rank)
  | more (rank : Rank) (left : Expr)

/-- The greedy reading of the start of a text, with the value it finds and the text it leaves, or
nothing if there is no match. The last index counts the bytes beyond the farthest place at which the
reading asked for something that is not there. -/
inductive Reads : Task → List Char → Option (Expr × List Char) → Nat → Prop
  -- A factor is told by its first character.
  | negated {text : List Char} {result : Option (Expr × List Char)} {beyond : Nat}
      (inner : Reads (.operand .factor) (skip text) result beyond) :
      Reads (.operand .factor) ('-' :: text) (result.map fun read => (.neg read.1, read.2)) beyond
  | number {text : List Char} (unsigned : text.head? ≠ some '-') (bare : text.head? ≠ some '(') :
      Reads (.operand .factor) text (numberAt text) (Text.size text)
  | group {text : List Char} {result : Option (Expr × List Char)} {beyond : Nat}
      (inner : Reads (.operand .sum) (skip text) result beyond) :
      Reads (.operand .factor) ('(' :: text) (result.bind closed) (trailing beyond result)
  | missed {rank next : Rank} {text : List Char} {beyond : Nat} (tier : Next rank next)
      (first : Reads (.operand next) text none beyond) : Reads (.operand rank) text none beyond
  | begun {rank next : Rank} {text rest : List Char} {left : Expr}
      {result : Option (Expr × List Char)} {near far : Nat} (tier : Next rank next)
      (first : Reads (.operand next) text (some (left, rest)) near)
      (others : Reads (.more rank left) rest result far) :
      Reads (.operand rank) text result (min near far)
  -- An operator that no operand follows is left where it is.
  | stop {rank : Rank} {left : Expr} {text : List Char}
      (unjoined : ∀ {sign op rest}, skip text = sign :: rest → ¬ Joins rank sign op) :
      Reads (.more rank left) text (some (left, text)) (Text.size (skip text))
  | dangling {rank next : Rank} {left : Expr} {text rest : List Char} {sign : Char} {op : Operator}
      {beyond : Nat} (tier : Next rank next) (found : skip text = sign :: rest)
      (joins : Joins rank sign op) (first : Reads (.operand next) (skip rest) none beyond) :
      Reads (.more rank left) text (some (left, text)) beyond
  | step {rank next : Rank} {left right : Expr} {text rest last : List Char} {sign : Char}
      {op : Operator} {result : Option (Expr × List Char)} {near far : Nat} (tier : Next rank next)
      (found : skip text = sign :: rest) (joins : Joins rank sign op)
      (first : Reads (.operand next) (skip rest) (some (right, last)) near)
      (others : Reads (.more rank (.binary op left right)) last result far) :
      Reads (.more rank left) text result (min near far)

-- White space.

theorem within_iff {ranges : List (Nat × Nat)} {code : Nat}
    (increasing : ranges.Pairwise fun lower higher => lower.1 ≤ higher.1) :
    CharSet.within ranges code = true ↔ ∃ range ∈ ranges, range.1 ≤ code ∧ code ≤ range.2 := by
  induction ranges with
  | nil => simp [CharSet.within]
  | cons range others ih =>
    obtain ⟨above, increasing⟩ := List.pairwise_cons.mp increasing
    simp only [CharSet.within, List.mem_cons, exists_eq_or_imp]
    split_ifs with below inside
    next =>
      simp only [false_iff, not_or, not_exists, not_and]
      refine ⟨by omega, ?_⟩
      intro other member reached
      have := above other member
      omega
    next =>
      simp only [true_iff]
      exact .inl ⟨by omega, inside⟩
    next =>
      rw [ih increasing]
      have outside : ¬ (range.1 ≤ code ∧ code ≤ range.2) := by omega
      simp [outside]

theorem blank_contains_iff {c : Char} : CharSet.blank.contains c = true ↔ White c := by
  have ranges : CharSet.blank.contains c = true ↔ _ := within_iff (by decide)
  rw [ranges]
  simp only [CharSet.blank, White, List.mem_cons, List.not_mem_nil, or_false, exists_eq_or_imp,
    exists_eq_left]
  -- One range or one character at a time.
  constructor <;> intro inside <;> casesm* _ ∨ _ <;> omega

theorem skip_append {gap : List Char} (blank : Blank gap) (text : List Char) :
    skip (gap ++ text) = skip text := by
  apply List.dropWhile_append_of_pos
  intro c member
  exact blank_contains_iff.mpr (blank c member)

theorem Blank.skip_eq {text : List Char} (blank : Blank text) : skip text = [] := by
  have nothing := skip_append blank []
  rwa [List.append_nil] at nothing

theorem skip_cons {c : Char} (visible : ¬ White c) (text : List Char) :
    skip (c :: text) = c :: text := by
  apply List.dropWhile_cons_of_neg
  rwa [blank_contains_iff]

theorem exists_blank (text : List Char) : ∃ gap, Blank gap ∧ text = gap ++ skip text := by
  refine ⟨text.takeWhile CharSet.blank.contains, ?_, List.takeWhile_append_dropWhile.symm⟩
  intro c member
  exact blank_contains_iff.mp (List.mem_takeWhile_imp member)

-- The signs and ranks.

theorem Joins.eq {rank : Rank} {sign : Char} {op other : Operator} (joins : Joins rank sign op)
    (joins' : Joins rank sign other) : op = other := by
  cases joins <;> cases joins' <;> rfl

theorem Joins.rank_eq {rank tighter : Rank} {sign : Char} {op other : Operator}
    (joins : Joins rank sign op) (joins' : Joins tighter sign other) : rank = tighter := by
  cases joins <;> cases joins' <;> rfl

theorem Joins.visible {rank : Rank} {sign : Char} {op : Operator} (joins : Joins rank sign op) :
    ¬ White sign := by
  cases joins <;> decide

theorem Joins.not_digit {rank : Rank} {sign : Char} {op : Operator} (joins : Joins rank sign op) :
    sign.isDigit = false := by
  cases joins <;> rfl

theorem not_joins_factor {sign : Char} {op : Operator} : ¬ Joins .factor sign op := by
  intro joins
  cases joins

theorem Next.eq {rank next other : Rank} (tier : Next rank next) (tier' : Next rank other) :
    next = other := by
  cases tier <;> cases tier' <;> rfl

theorem White.not_digit {c : Char} (white : White c) : c.isDigit = false := by
  have side : c.toNat < 48 ∨ 57 < c.toNat := by
    simp only [White, List.mem_cons, List.not_mem_nil, or_false] at white
    omega
  rw [Bool.eq_false_iff]
  intro digit
  simp only [Char.isDigit, Bool.and_eq_true, decide_eq_true_eq, ge_iff_le,
    UInt32.le_iff_toNat_le] at digit
  change 48 ≤ c.toNat ∧ c.toNat ≤ 57 at digit
  omega

-- There is one greedy reading.

theorem Reads.eq {task : Task} {text : List Char} {result other : Option (Expr × List Char)}
    {beyond past : Nat} (reads : Reads task text result beyond)
    (reads' : Reads task text other past) : result = other ∧ beyond = past := by
  -- By induction on the first reading: each rule is the only one that fits its text.
  induction reads generalizing other past with
  | negated _ ih =>
    cases reads' with
    | negated inner =>
      obtain ⟨rfl, rfl⟩ := ih inner
      exact ⟨rfl, rfl⟩
    | number unsigned _ => exact absurd rfl unsigned
    | missed tier => cases tier
    | begun tier => cases tier
  | number unsigned bare =>
    cases reads' with
    | negated => exact absurd rfl unsigned
    | number => exact ⟨rfl, rfl⟩
    | group => exact absurd rfl bare
    | missed tier => cases tier
    | begun tier => cases tier
  | group _ ih =>
    cases reads' with
    | number _ bare => exact absurd rfl bare
    | group inner =>
      obtain ⟨rfl, rfl⟩ := ih inner
      exact ⟨rfl, rfl⟩
    | missed tier => cases tier
    | begun tier => cases tier
  | missed tier _ ih =>
    cases reads' with
    | negated => cases tier
    | number => cases tier
    | group => cases tier
    | missed tier' first =>
      cases tier.eq tier'
      exact ih first
    | begun tier' first =>
      cases tier.eq tier'
      cases (ih first).1
  | begun tier _ _ ihFirst ihOthers =>
    cases reads' with
    | negated => cases tier
    | number => cases tier
    | group => cases tier
    | missed tier' first =>
      cases tier.eq tier'
      cases (ihFirst first).1
    | begun tier' first others =>
      cases tier.eq tier'
      obtain ⟨⟨⟩, rfl⟩ := ihFirst first
      obtain ⟨rfl, rfl⟩ := ihOthers others
      exact ⟨rfl, rfl⟩
  | stop unjoined =>
    cases reads' with
    | stop => exact ⟨rfl, rfl⟩
    | dangling _ found joins => exact absurd joins (unjoined found)
    | step _ found joins => exact absurd joins (unjoined found)
  | dangling tier found joins _ ih =>
    cases reads' with
    | stop unjoined => exact absurd joins (unjoined found)
    | dangling tier' found' _ first =>
      cases tier.eq tier'
      cases found.symm.trans found'
      exact ⟨rfl, (ih first).2⟩
    | step tier' found' joins' first =>
      cases tier.eq tier'
      cases found.symm.trans found'
      cases (ih first).1
  | step tier found joins _ _ ihFirst ihOthers =>
    cases reads' with
    | stop unjoined => exact absurd joins (unjoined found)
    | dangling tier' found' joins' first =>
      cases tier.eq tier'
      cases found.symm.trans found'
      cases (ihFirst first).1
    | step tier' found' joins' first others =>
      cases tier.eq tier'
      cases found.symm.trans found'
      cases joins.eq joins'
      obtain ⟨⟨⟩, rfl⟩ := ihFirst first
      obtain ⟨rfl, rfl⟩ := ihOthers others
      exact ⟨rfl, rfl⟩

theorem size_skip_le (text : List Char) : Text.size (skip text) ≤ Text.size text := by
  obtain ⟨gap, -, spaced⟩ := exists_blank text
  have total := congrArg Text.size spaced
  rw [Text.size_append] at total
  omega

theorem trailing_le (beyond : Nat) (result : Option (Expr × List Char)) :
    trailing beyond result ≤ beyond := by
  cases result with
  | none => exact le_refl beyond
  | some read => exact min_le_left _ _

theorem Reads.beyond_le {task : Task} {text : List Char} {result : Option (Expr × List Char)}
    {beyond : Nat} (reads : Reads task text result beyond) : beyond ≤ Text.size text := by
  have operator : ∀ {text rest : List Char} {sign : Char}, skip text = sign :: rest →
      Text.size (skip rest) ≤ Text.size text := by
    intro text rest sign found
    have before := size_skip_le text
    have after := size_skip_le rest
    rw [found, Text.size_cons] at before
    omega
  induction reads with
  | @negated text _ _ _ ih =>
    have inside := size_skip_le text
    rw [Text.size_cons]
    omega
  | number => exact le_refl _
  | @group text result beyond _ ih =>
    have inside := size_skip_le text
    have nearer := trailing_le beyond result
    rw [Text.size_cons]
    omega
  | missed _ _ ih => exact ih
  | begun _ _ _ ihFirst => exact (min_le_left _ _).trans ihFirst
  | stop => exact size_skip_le _
  | dangling _ found _ _ ih => exact ih.trans (operator found)
  | step _ found _ _ _ ihFirst =>
    exact ((min_le_left _ _).trans ihFirst).trans (operator found)

-- What the greedy reading finds can be derived.

theorem decimal_eq_numeral (digits : List Char) : decimal digits = numeral digits := by
  -- What has been read before counts for its place as well.
  suffices general : ∀ start, digits.foldl
      (fun value digit => 10 * value + (digit.toNat - '0'.toNat)) start =
        10 ^ digits.length * start + numeral digits by
    simpa [decimal] using general 0
  induction digits with
  | nil => simp [numeral]
  | cons digit others ih =>
    intro start
    rw [List.foldl_cons, ih]
    simp only [numeral, List.reverse_cons, List.map_append, List.map_cons, List.map_nil,
      Nat.ofDigits_append, Nat.ofDigits_singleton, List.length_map, List.length_reverse,
      List.length_cons]
    ring

theorem inRange_natCast {n : Nat} : InRange n ↔ n ≤ 2 ^ 63 - 1 := by
  have lowest : Int64.minValue.toInt = -9223372036854775808 := rfl
  have highest : Int64.maxValue.toInt = 9223372036854775807 := rfl
  rw [InRange, lowest, highest]
  omega

theorem span_digits {digits rest : List Char} (all : ∀ c ∈ digits, c.isDigit = true)
    (stopped : ∀ c ∈ rest.head?, c.isDigit = false) :
    (digits ++ rest).takeWhile Char.isDigit = digits ∧
      (digits ++ rest).dropWhile Char.isDigit = rest := by
  rw [List.takeWhile_append_of_pos all, List.dropWhile_append_of_pos all]
  cases rest with
  | nil => simp
  | cons c others => simp [stopped c rfl]

theorem numberAt_eq_some_iff {text rest : List Char} {value : Expr} :
    numberAt text = some (value, rest) ↔
      ∃ digits, text = digits ++ rest ∧ digits ≠ [] ∧ (∀ c ∈ digits, c.isDigit = true) ∧
        (∀ c ∈ rest.head?, c.isDigit = false) ∧ numeral digits ≤ 2 ^ 63 - 1 ∧
        value = .number (Int64.ofNat (numeral digits)) := by
  constructor
  next =>
    intro found
    simp only [numberAt, ne_eq, decimal_eq_numeral, inRange_natCast] at found
    split_ifs at found with inRange
    next =>
      cases found
      refine ⟨text.takeWhile Char.isDigit, List.takeWhile_append_dropWhile.symm, inRange.1,
        fun c => List.mem_takeWhile_imp, ?_, inRange.2, rfl⟩
      intro c head
      have stopped := List.head?_dropWhile_not Char.isDigit text
      rw [Option.mem_def.mp head] at stopped
      exact stopped
  next =>
    rintro ⟨digits, rfl, some, all, stopped, range, rfl⟩
    obtain ⟨taken, left⟩ := span_digits all stopped
    simp only [numberAt, taken, left, decimal_eq_numeral]
    rw [if_pos ⟨some, inRange_natCast.mpr range⟩]

def Task.Means : Task → List Char → Expr → Prop
  | .operand rank, text, value => Derives rank text value
  | .more rank left, text, value =>
    ∀ {first}, Derives rank first left → Derives rank (first ++ text) value

theorem exists_opening {rank next : Rank} {text rest : List Char} {sign : Char} {op : Operator}
    (tier : Next rank next) (found : skip text = sign :: rest) (joins : Joins rank sign op) :
    ∃ opening, text = opening ++ skip rest ∧ ∀ {left right last}, Derives next last right →
      (Task.more rank left).Means (opening ++ last) (.binary op left right) := by
  obtain ⟨before, blankBefore, spaced⟩ := exists_blank text
  obtain ⟨after, blankAfter, spacedAfter⟩ := exists_blank rest
  refine ⟨before ++ sign :: after, ?_, ?_⟩
  next =>
    rw [List.append_assoc, List.cons_append, ← spacedAfter, ← found]
    exact spaced
  next =>
    intro left right last derives first leftmost
    simpa using Derives.joined tier leftmost blankBefore joins blankAfter derives

theorem Reads.sound {task : Task} {text rest : List Char} {value : Expr} {beyond : Nat}
    (reads : Reads task text (some (value, rest)) beyond) :
    ∃ taken, text = taken ++ rest ∧ task.Means taken value := by
  generalize found : some (value, rest) = result at reads
  induction reads generalizing value rest with
  | @negated text result _ inner ih =>
    obtain ⟨⟨operand, left⟩, rfl, same⟩ := Option.map_eq_some_iff.mp found.symm
    cases same
    obtain ⟨taken, split, derives⟩ := ih rfl
    obtain ⟨gap, blank, spaced⟩ := exists_blank text
    exact ⟨'-' :: (gap ++ taken), by simp [← split, ← spaced], .negated blank derives⟩
  | number =>
    obtain ⟨digits, rfl, some, all, -, range, rfl⟩ := numberAt_eq_some_iff.mp found.symm
    exact ⟨digits, rfl, .number some all range⟩
  | @group text result _ inner ih =>
    obtain ⟨⟨operand, left⟩, rfl, same⟩ := Option.bind_eq_some_iff.mp found.symm
    simp only [closed] at same
    split at same
    next ending after =>
      cases same
      obtain ⟨taken, split, derives⟩ := ih rfl
      obtain ⟨before, blankBefore, spaced⟩ := exists_blank text
      obtain ⟨gap, blankAfter, spacedAfter⟩ := exists_blank left
      refine ⟨'(' :: (before ++ (taken ++ (gap ++ [')']))), ?_, .group blankBefore derives blankAfter⟩
      rw [spaced, split, spacedAfter, after]
      simp
    next => cases same
  | missed => cases found
  | begun tier _ _ ihFirst ihOthers =>
    obtain ⟨first, rfl, derives⟩ := ihFirst rfl
    obtain ⟨taken, rfl, means⟩ := ihOthers found
    exact ⟨first ++ taken, by simp, means (.single tier derives)⟩
  | stop =>
    cases found
    exact ⟨[], rfl, fun derives => by simpa using derives⟩
  | dangling =>
    cases found
    exact ⟨[], rfl, fun derives => by simpa using derives⟩
  | step tier after joins _ _ ihFirst ihOthers =>
    obtain ⟨second, split, derives⟩ := ihFirst rfl
    obtain ⟨taken, rfl, means⟩ := ihOthers found
    obtain ⟨opening, spaced, opens⟩ := exists_opening tier after joins
    refine ⟨opening ++ second ++ taken, by simp [spaced, split], ?_⟩
    intro first leftmost
    simpa using means (opens derives leftmost)

-- What can be derived is found by the greedy reading.

structure Parts (rank : Rank) (text : List Char) : Prop where
  digit : ∀ c ∈ text.head?, c.isDigit = false
  unjoined : ∀ {next sign rest op}, Next rank next → skip text = sign :: rest →
    ¬ Joins next sign op

theorem Parts.next {rank next : Rank} {text : List Char} (parts : Parts rank text)
    (tier : Next rank next) : Parts next text where
  digit := parts.digit
  unjoined tier' _ := by
    cases tier <;> cases tier'
    exact not_joins_factor

theorem parts_blank {text : List Char} (rank : Rank) (blank : Blank text) : Parts rank text where
  digit c head := (blank c (List.mem_of_mem_head? head)).not_digit
  unjoined _ found := by
    rw [blank.skip_eq] at found
    cases found

theorem parts_sign {rank : Rank} {gap rest : List Char} {c : Char} (blank : Blank gap)
    (visible : ¬ White c) (digit : c.isDigit = false)
    (loose : ∀ {next op}, Next rank next → ¬ Joins next c op) :
    Parts rank (gap ++ c :: rest) where
  digit := by
    cases gap with
    | nil =>
      rintro head ⟨⟩
      exact digit
    | cons white others =>
      rintro head ⟨⟩
      exact (blank _ (by simp)).not_digit
  unjoined tier found := by
    rw [skip_append blank, skip_cons visible] at found
    cases found
    exact loose tier

theorem Parts.stop {rank next : Rank} {text : List Char} (parts : Parts rank text)
    (tier : Next rank next) (value : Expr) :
    Reads (.more next value) text (some (value, text)) (Text.size (skip text)) :=
  .stop fun found => parts.unjoined tier found

theorem Derives.visible {rank : Rank} {text : List Char} {value : Expr}
    (derives : Derives rank text value) : ∃ c rest, text = c :: rest ∧ ¬ White c := by
  induction derives with
  | joined _ _ _ _ _ _ ihLeft =>
    obtain ⟨c, rest, rfl, visible⟩ := ihLeft
    exact ⟨c, _, rfl, visible⟩
  | single _ _ ih => exact ih
  | negated => exact ⟨'-', _, rfl, by decide⟩
  | @number digits some all =>
    obtain ⟨c, rest, rfl⟩ := List.exists_cons_of_ne_nil some
    refine ⟨c, rest, rfl, fun white => ?_⟩
    have digit := all c (by simp)
    rw [white.not_digit] at digit
    cases digit
  | group => exact ⟨'(', _, rfl, by decide⟩

theorem Derives.skip_eq {rank : Rank} {gap text : List Char} {value : Expr}
    (derives : Derives rank text value) (blank : Blank gap) (rest : List Char) :
    skip (gap ++ (text ++ rest)) = text ++ rest := by
  obtain ⟨c, others, rfl, visible⟩ := derives.visible
  rw [skip_append blank, List.cons_append, skip_cons visible]

theorem reads_more_factor {left : Expr} {text : List Char} {result : Option (Expr × List Char)}
    {beyond : Nat} (reads : Reads (.more .factor left) text result beyond) :
    result = some (left, text) :=
  (reads.eq (.stop fun _ => not_joins_factor)).1

theorem reads_number {digits rest : List Char} (some : digits ≠ [])
    (all : ∀ c ∈ digits, c.isDigit = true) :
    Reads (.operand .factor) (digits ++ rest) (numberAt (digits ++ rest))
      (Text.size (digits ++ rest)) := by
  obtain ⟨c, others, rfl⟩ := List.exists_cons_of_ne_nil some
  have digit := all c (by simp)
  apply Reads.number <;> rintro ⟨⟩ <;> cases digit

theorem Derives.reads {rank : Rank} {text rest : List Char} {value : Expr}
    {result : Option (Expr × List Char)} {far : Nat} (derives : Derives rank text value)
    (parts : Parts rank rest) (others : Reads (.more rank value) rest result far) :
    ∃ beyond, Reads (.operand rank) (text ++ rest) result beyond := by
  -- The reading of a left operand goes on with the operator after it, so that the induction is
  -- for all ways in which the reading goes on.
  induction derives generalizing rest result far with
  | @joined rank next first before after last sign op left right tier _ blankBefore joins blankAfter
      derives ihLeft ihRight =>
    -- The left operand is followed by the sign, which does not belong to the next rank.
    have loose : Parts rank (before ++ sign :: (after ++ (last ++ rest))) := by
      apply parts_sign blankBefore joins.visible joins.not_digit
      intro next op tier' joins'
      cases joins.rank_eq joins'
      cases tier'
    have found : skip (before ++ sign :: (after ++ (last ++ rest))) =
        sign :: (after ++ (last ++ rest)) := by
      rw [skip_append blankBefore, skip_cons joins.visible]
    obtain ⟨near, second⟩ := ihRight (parts.next tier) (parts.stop tier right)
    rw [← derives.skip_eq blankAfter] at second
    obtain ⟨beyond, reads⟩ := ihLeft loose (.step tier found joins second others)
    exact ⟨beyond, by simpa using reads⟩
  | single tier _ ih =>
    obtain ⟨near, first⟩ := ih (parts.next tier) (parts.stop tier _)
    exact ⟨_, .begun tier first others⟩
  | @negated gap text value blank derives ih =>
    obtain ⟨beyond, inner⟩ := ih parts (.stop fun _ => not_joins_factor)
    rw [← derives.skip_eq blank] at inner
    cases reads_more_factor others
    exact ⟨beyond, by simpa using Reads.negated inner⟩
  | @number digits some all range =>
    cases reads_more_factor others
    have found := numberAt_eq_some_iff.mpr ⟨digits, rfl, some, all, parts.digit, range, rfl⟩
    rw [← found]
    exact ⟨_, reads_number some all⟩
  | @group before text after value blankBefore derives blankAfter ih =>
    -- The group is followed by its closing parenthesis.
    have loose : Parts .sum (after ++ ')' :: rest) := by
      apply parts_sign blankAfter (by decide) rfl
      rintro _ op ⟨⟩ ⟨⟩
    have shut : skip (after ++ ')' :: rest) = ')' :: rest := by
      rw [skip_append blankAfter, skip_cons (by decide)]
    have unjoined : ∀ {sign op others}, skip (after ++ ')' :: rest) = sign :: others →
        ¬ Joins .sum sign op := by
      intro _ _ _ found joins
      rw [shut] at found
      cases found
      cases joins
    obtain ⟨beyond, inner⟩ := ih loose (.stop unjoined)
    rw [← derives.skip_eq blankBefore] at inner
    cases reads_more_factor others
    have reads := Reads.group inner
    exact ⟨_, by simpa [closed, shut] using reads⟩

theorem spells_iff {text : List Char} {value : Expr} :
    Spells text value ↔ ∃ rest beyond,
      Reads (.operand .sum) (skip text) (some (value, rest)) beyond ∧ skip rest = [] := by
  constructor
  next =>
    rintro @⟨before, inner, after, _, blankBefore, derives, blankAfter⟩
    have unjoined : ∀ {sign op rest}, skip after = sign :: rest → ¬ Joins .sum sign op := by
      intro _ _ _ found
      rw [blankAfter.skip_eq] at found
      cases found
    obtain ⟨beyond, reads⟩ := derives.reads (parts_blank _ blankAfter) (.stop unjoined)
    rw [← derives.skip_eq blankBefore] at reads
    exact ⟨after, beyond, reads, blankAfter.skip_eq⟩
  next =>
    rintro ⟨rest, beyond, reads, nothing⟩
    obtain ⟨taken, split, derives⟩ := reads.sound
    obtain ⟨before, blankBefore, spaced⟩ := exists_blank text
    obtain ⟨after, blankAfter, left⟩ := exists_blank rest
    rw [nothing, List.append_nil] at left
    subst left
    rw [spaced, split]
    exact .whole blankBefore derives blankAfter

inductive Rejects (text : List Char) : Nat → Prop
  | failed {result : Option (Expr × List Char)} {beyond : Nat}
      (reads : Reads (.operand .sum) (skip text) result beyond)
      (more : ∀ read ∈ result, skip read.2 ≠ []) : Rejects text (trailing beyond result)

theorem Rejects.not_spells {text : List Char} {value : Expr} {beyond : Nat}
    (rejects : Rejects text beyond) : ¬ Spells text value := by
  intro spells
  obtain ⟨rest, _, reads', nothing⟩ := spells_iff.mp spells
  cases rejects with
  | failed reads more =>
    obtain ⟨rfl, -⟩ := reads.eq reads'
    exact more _ rfl nothing

theorem Rejects.beyond_le {text : List Char} {beyond : Nat} (rejects : Rejects text beyond) :
    beyond ≤ Text.size text := by
  cases rejects with
  | @failed result near reads =>
    have nearer := trailing_le near result
    exact (nearer.trans reads.beyond_le).trans (size_skip_le text)

end Packrat.Calculator
