import Mathlib.Data.List.DropRight
import Mathlib.Data.List.Infix
import Mathlib.Order.Bounds.Basic
import Packrat.Proofs.Printing

set_option autoImplicit false

namespace Packrat.Calculator

-- Numbers that are in range wherever the reading meets them.

/-- No run of digits that cannot be made longer denotes a number that is out of range. -/
def Modest (text : List Char) : Prop :=
  ∀ before digits after : List Char, text = before ++ (digits ++ after) →
    (∀ c ∈ digits, c.isDigit = true) → (∀ c ∈ before.getLast?, c.isDigit = false) →
      (∀ c ∈ after.head?, c.isDigit = false) → numeral digits ≤ 2 ^ 63 - 1

theorem numeral_le_append (first second : List Char) :
    numeral second ≤ numeral (first ++ second) := by
  simp only [numeral, List.reverse_append, List.map_append, Nat.ofDigits_append]
  exact Nat.le_add_right _ _

theorem modest_iff {text : List Char} :
    Modest text ↔ ∀ rest ∈ text.tails, numeral (rest.takeWhile Char.isDigit) ≤ 2 ^ 63 - 1 := by
  constructor
  next =>
    intro modest rest member
    obtain ⟨before, rfl⟩ := (List.mem_tails _ _).mp member
    have whole : before ++ rest = before.rdropWhile Char.isDigit ++
        ((before.rtakeWhile Char.isDigit ++ rest.takeWhile Char.isDigit) ++
          rest.dropWhile Char.isDigit) := by
      rw [List.append_assoc, List.takeWhile_append_dropWhile, ← List.append_assoc,
        List.rdropWhile_append_rtakeWhile]
    refine (numeral_le_append _ _).trans (modest _ _ _ whole ?_ ?_ ?_)
    next =>
      intro c member
      rcases List.mem_append.mp member with inside | inside
      next => exact List.mem_rtakeWhile_imp inside
      next => exact List.mem_takeWhile_imp inside
    next =>
      intro c last
      have some : before.rdropWhile Char.isDigit ≠ [] := by
        rintro none
        simp [none] at last
      rw [List.getLast?_eq_some_getLast some] at last
      cases last
      exact Bool.eq_false_iff.mpr (List.rdropWhile_last_not Char.isDigit before some)
    next =>
      intro c head
      have stopped := List.head?_dropWhile_not Char.isDigit rest
      rw [Option.mem_def.mp head] at stopped
      exact stopped
  next =>
    intro bounded before digits after split all _ stopped
    have bound := bounded (digits ++ after) ((List.mem_tails _ _).mpr ⟨before, split.symm⟩)
    rwa [(span_digits all stopped).1] at bound

instance (text : List Char) : Decidable (Modest text) :=
  decidable_of_iff _ modest_iff.symm

theorem Modest.suffix {text rest : List Char} (modest : Modest text) (suffix : rest <:+ text) :
    Modest rest := by
  rw [modest_iff] at modest ⊢
  intro tail member
  exact modest tail ((List.mem_tails _ _).mpr (((List.mem_tails _ _).mp member).trans suffix))

theorem Modest.head_of_numberAt {text : List Char} (modest : Modest text)
    (none : numberAt text = none) : ∀ c ∈ text.head?, c.isDigit = false := by
  intro c head
  have bound := modest_iff.mp modest text ((List.mem_tails _ _).mpr List.suffix_rfl)
  obtain ⟨rest, rfl⟩ := List.head?_eq_some_iff.mp head
  rw [Bool.eq_false_iff]
  intro digit
  simp [numberAt, digit, decimal_eq_numeral, inRange_natCast] at none bound
  omega

-- What comes before the farthest place can be completed.

theorem derives_zero (rank : Rank) : Derives rank ['0'] (.number 0) := by
  have value : numeral ['0'] = 0 := by simp [numeral]
  have derives : Derives .factor ['0'] (.number (Int64.ofNat (numeral ['0']))) :=
    .number (by simp) (by simp) (by simp [value])
  rw [value] at derives
  exact derives.of_factor rank

theorem Next.exists_joins {rank next : Rank} (tier : Next rank next) :
    ∃ sign op, Joins rank sign op := by
  cases tier
  next => exact ⟨_, _, .add⟩
  next => exact ⟨_, _, .mul⟩

def Begins (text : List Char) (beyond : Nat) (property : List Char → Prop) : Prop :=
  ∃ before after more, text = before ++ after ∧ Text.size after = beyond ∧
    property (before ++ more)

theorem Begins.prepend {text rest : List Char} {beyond : Nat}
    {property property' : List Char → Prop} (begins : Begins rest beyond property)
    (taken : List Char) (split : text = taken ++ rest)
    (extended : ∀ {inner}, property inner → ∃ more, property' (taken ++ (inner ++ more))) :
    Begins text beyond property' := by
  obtain ⟨before, after, more, rfl, size, holds⟩ := begins
  obtain ⟨last, holds'⟩ := extended holds
  exact ⟨taken ++ before, after, more ++ last, by simp [split], size, by simpa using holds'⟩

def Padded (text : List Char) : Prop :=
  ∃ taken gap value, text = taken ++ gap ∧ Derives .sum taken value ∧ Blank gap

theorem Reads.begins_trailing {text : List Char} {result : Option (Expr × List Char)} {beyond : Nat}
    (reads : Reads (.operand .sum) text result beyond)
    (begins : Begins text beyond fun whole => ∃ value, Derives .sum whole value) :
    Begins text (trailing beyond result) Padded := by
  have bare : Begins text beyond Padded := by
    obtain ⟨before, after, more, split, size, value, derives⟩ := begins
    exact ⟨before, after, more, split, size, _, [], value, by simp, derives, blank_nil⟩
  cases result with
  | none => exact bare
  | some read =>
    obtain ⟨value, rest⟩ := read
    rcases min_choice beyond (Text.size (skip rest)) with same | same
    next => rwa [trailing, same]
    next =>
      rw [trailing, same]
      obtain ⟨taken, split, derives⟩ := reads.sound
      obtain ⟨gap, blank, spaced⟩ := exists_blank rest
      refine ⟨taken ++ gap, skip rest, [], ?_, rfl, taken, gap, value, by simp, derives, blank⟩
      rw [List.append_assoc, ← spaced]
      exact split

def Task.Tiered : Task → Prop
  | .operand _ => True
  | .more rank _ => ∃ next, Next rank next

theorem Reads.begins {task : Task} {text : List Char} {result : Option (Expr × List Char)}
    {beyond : Nat} (reads : Reads task text result beyond)
    (tiered : task.Tiered) :
    Begins text beyond fun whole => ∃ value, task.Means whole value := by
  induction reads with
  | @negated text _ _ _ ih =>
    obtain ⟨gap, blank, spaced⟩ := exists_blank text
    refine (ih trivial).prepend ('-' :: gap) (by simp [← spaced]) ?_
    rintro inner ⟨value, derives⟩
    exact ⟨[], .neg value, by simpa [Task.Means] using Derives.negated blank derives⟩
  | number => exact ⟨[], _, ['0'], rfl, rfl, _, derives_zero _⟩
  | @group text _ _ inner ih =>
    obtain ⟨before, blankBefore, spaced⟩ := exists_blank text
    refine (inner.begins_trailing (ih trivial)).prepend ('(' :: before) (by simp [← spaced]) ?_
    rintro _ ⟨taken, after, value, rfl, derives, blankAfter⟩
    exact ⟨[')'], value, by simpa [Task.Means] using Derives.group blankBefore derives blankAfter⟩
  | missed tier _ ih =>
    obtain ⟨before, after, more, split, size, value, derives⟩ := ih trivial
    exact ⟨before, after, more, split, size, value, .single tier derives⟩
  | @begun _ _ _ _ _ _ near far tier first _ ihFirst ihOthers =>
    rcases min_choice near far with same | same
    next =>
      rw [same]
      obtain ⟨before, after, more, split, size, value, derives⟩ := ihFirst trivial
      exact ⟨before, after, more, split, size, value, .single tier derives⟩
    next =>
      rw [same]
      obtain ⟨taken, split, derives⟩ := first.sound
      refine (ihOthers ⟨_, tier⟩).prepend taken split ?_
      rintro inner ⟨value, means⟩
      exact ⟨[], value, by simpa [Task.Means] using means (.single tier derives)⟩
  | @stop rank left text =>
    obtain ⟨next, tier⟩ := tiered
    obtain ⟨sign, op, joins⟩ := tier.exists_joins
    obtain ⟨gap, blank, spaced⟩ := exists_blank text
    refine ⟨gap, skip text, [sign, '0'], spaced, rfl, .binary op left (.number 0), ?_⟩
    intro first leftmost
    exact .joined tier leftmost blank joins blank_nil (derives_zero next)
  | @dangling _ _ left _ _ _ op _ tier found joins _ ih =>
    obtain ⟨opening, spaced, opens⟩ := exists_opening tier found joins
    refine (ih trivial).prepend opening spaced ?_
    rintro inner ⟨right, derives⟩
    refine ⟨[], .binary op left right, ?_⟩
    rw [List.append_nil]
    exact opens derives
  | @step _ _ left _ _ _ _ _ op _ near far tier found joins first _ ihFirst ihOthers =>
    obtain ⟨opening, spaced, opens⟩ := exists_opening tier found joins
    rcases min_choice near far with same | same
    next =>
      rw [same]
      refine (ihFirst trivial).prepend opening spaced ?_
      rintro inner ⟨other, derives⟩
      refine ⟨[], .binary op left other, ?_⟩
      rw [List.append_nil]
      exact opens derives
    next =>
      rw [same]
      obtain ⟨second, split, derives⟩ := first.sound
      refine (ihOthers ⟨_, tier⟩).prepend (opening ++ second) ?_ ?_
      next => rw [List.append_assoc, ← split, ← spaced]
      next =>
        rintro inner ⟨value, means⟩
        refine ⟨[], value, fun {first} leftmost => ?_⟩
        simpa using means (opens derives leftmost)

theorem Rejects.begins {text : List Char} {beyond : Nat} (rejects : Rejects text beyond) :
    Begins text beyond fun whole => ∃ value, Spells whole value := by
  obtain ⟨before, blankBefore, spaced⟩ := exists_blank text
  cases rejects with
  | failed reads =>
    refine (reads.begins_trailing (reads.begins trivial)).prepend before spaced ?_
    rintro _ ⟨taken, after, value, rfl, derives, blankAfter⟩
    exact ⟨[], value, by simpa using Spells.whole blankBefore derives blankAfter⟩

-- What follows the farthest place does not matter.

inductive Alike (c : Char) (rest rest' : List Char) : List Char → List Char → Prop
  | intro (before : List Char) : Alike c rest rest' (before ++ c :: rest) (before ++ c :: rest')

namespace Alike

variable {c : Char} {rest rest' text other inner inner' : List Char}

theorem eq (alike : Alike c rest rest' text inner) (alike' : Alike c rest rest' text inner') :
    inner = inner' := by
  obtain ⟨before⟩ := alike
  generalize same : before ++ c :: rest = text at alike'
  obtain ⟨before'⟩ := alike'
  rw [List.append_cancel_right same]

theorem head?_eq (alike : Alike c rest rest' text other) : text.head? = other.head? := by
  obtain ⟨before⟩ := alike
  cases before <;> rfl

theorem ne_nil (alike : Alike c rest rest' text other) : other ≠ [] := by
  obtain ⟨before⟩ := alike
  simp

theorem drop {taken : List Char} (alike : Alike c rest rest' text other)
    (split : text = taken ++ inner) (fits : Text.size (c :: rest) ≤ Text.size inner) :
    ∃ inner', other = taken ++ inner' ∧ Alike c rest rest' inner inner' := by
  obtain ⟨before⟩ := alike
  rcases List.append_eq_append_iff.mp split with ⟨gone, rfl, tail⟩ | ⟨kept, rfl, rfl⟩
  next =>
    -- The character would not fit into what is left if any of it were gone.
    have none : gone = [] := by
      cases gone with
      | nil => rfl
      | cons first others =>
        have positive := first.utf8Size_pos
        rw [tail, Text.size_append, Text.size_cons] at fits
        omega
    subst none
    rw [List.nil_append] at tail
    subst tail
    exact ⟨c :: rest', by simp, .intro []⟩
  next => exact ⟨kept ++ c :: rest', by simp, .intro kept⟩

theorem size_le (alike : Alike c rest rest' text other) :
    Text.size (c :: rest) ≤ Text.size text := by
  obtain ⟨before⟩ := alike
  rw [Text.size_append]
  exact Nat.le_add_left _ _

theorem join {taken : List Char} (alike : Alike c rest rest' text other)
    (split : text = taken ++ inner) (alike' : Alike c rest rest' inner inner') :
    other = taken ++ inner' := by
  obtain ⟨found, rfl, alike''⟩ := alike.drop split alike'.size_le
  rw [alike''.eq alike']

theorem tail {first : Char} (alike : Alike c rest rest' (first :: inner) other)
    (fits : Text.size (c :: rest) ≤ Text.size inner) :
    ∃ inner', other = first :: inner' ∧ Alike c rest rest' inner inner' :=
  alike.drop (List.singleton_append.symm : first :: inner = [first] ++ inner) fits

theorem skip (alike : Alike c rest rest' text other)
    (fits : Text.size (c :: rest) ≤ Text.size (Calculator.skip text)) :
    Alike c rest rest' (Calculator.skip text) (Calculator.skip other) := by
  obtain ⟨gap, blank, spaced⟩ := exists_blank text
  obtain ⟨inner, rfl, alike'⟩ := alike.drop spaced fits
  obtain ⟨first, others, found⟩ := List.exists_cons_of_ne_nil alike'.ne_nil
  have visible : ¬ White first := by
    have stopped := List.head?_dropWhile_not CharSet.blank.contains text
    have head := alike'.head?_eq
    rw [Calculator.skip, found] at head
    rw [head] at stopped
    rw [← blank_contains_iff]
    simpa using stopped
  rw [skip_append blank, found, skip_cons visible, ← found]
  exact alike'

theorem leftover {task : Task} {value : Expr} {beyond : Nat}
    (alike : Alike c rest rest' text other) (reads : Reads task text (some (value, inner)) beyond)
    (fits : Text.size (c :: rest) ≤ Text.size inner) :
    ∃ inner', Alike c rest rest' inner inner' := by
  obtain ⟨taken, split, -⟩ := reads.sound
  obtain ⟨inner', -, alike'⟩ := alike.drop split fits
  exact ⟨inner', alike'⟩

theorem operand {sign : Char} (alike : Alike c rest rest' text other)
    (found : Calculator.skip text = sign :: inner)
    (fits : Text.size (c :: rest) ≤ Text.size (Calculator.skip inner)) :
    ∃ inner', Calculator.skip other = sign :: inner' ∧
      Alike c rest rest' (Calculator.skip inner) (Calculator.skip inner') := by
  have behind := fits.trans (size_skip_le inner)
  have skipped := alike.skip (by rw [found, Text.size_cons sign]; omega)
  rw [found] at skipped
  obtain ⟨inner', found', alike'⟩ := skipped.tail behind
  exact ⟨inner', found', alike'.skip fits⟩

end Alike

inductive Agree (c : Char) (rest rest' : List Char) :
    Option (Expr × List Char) → Option (Expr × List Char) → Prop
  | missed : Agree c rest rest' none none
  | found {value : Expr} {inner inner' : List Char} (alike : Alike c rest rest' inner inner') :
      Agree c rest rest' (some (value, inner)) (some (value, inner'))

section Local

variable {c : Char} {rest rest' text other : List Char} {result result' : Option (Expr × List Char)}
  {beyond : Nat}

theorem numberAt_alike (alike : Alike c rest rest' text other) (modest : Modest text)
    (agree : Agree c rest rest' (numberAt text) result') : numberAt other = result' := by
  generalize found : numberAt text = result at agree
  cases agree with
  | missed =>
    -- The digits of a number out of range would be looked at farther than the number is missed.
    have letter := modest.head_of_numberAt found
    rw [alike.head?_eq] at letter
    cases other with
    | nil => rfl
    | cons first others => simp [numberAt, letter first rfl]
  | @found value inner inner' alike' =>
    obtain ⟨digits, split, some, all, stopped, range, rfl⟩ := numberAt_eq_some_iff.mp found
    rw [alike'.head?_eq] at stopped
    exact numberAt_eq_some_iff.mpr
      ⟨digits, alike.join split alike', some, all, stopped, range, rfl⟩

theorem closed_eq {value : Expr} {inner others : List Char} {first : Char}
    (found : skip inner = first :: others) :
    closed (value, inner) = if first = ')' then some (value, others) else none := by
  simp only [closed, found]
  split_ifs with shut
  next =>
    subst shut
    rfl
  next =>
    split
    next same =>
      cases same
      exact absurd rfl shut
    next => rfl

theorem closed_alike {value : Expr} (alike : Alike c rest rest' text other)
    (fits : Text.size (c :: rest) ≤ Text.size (skip text))
    (agree : Agree c rest rest' (closed (value, text)) result') :
    closed (value, other) = result' := by
  have skipped := alike.skip fits
  obtain ⟨first, others', found'⟩ := List.exists_cons_of_ne_nil skipped.ne_nil
  have head := skipped.head?_eq
  rw [found', List.head?_cons, List.head?_eq_some_iff] at head
  obtain ⟨others, found⟩ := head
  rw [closed_eq found] at agree
  rw [closed_eq found']
  split_ifs at agree ⊢ with shut
  next =>
    cases agree with
    | found alike' =>
      have same := skipped.join (by rw [found, List.singleton_append]) alike'
      rw [found', List.singleton_append] at same
      cases same
      rfl
  next =>
    cases agree
    rfl

theorem skip_suffix_self (text : List Char) : skip text <:+ text :=
  List.dropWhile_suffix _

theorem skip_suffix {first : Char} {inner : List Char} (suffix : first :: inner <:+ text) :
    skip inner <:+ text :=
  ((skip_suffix_self inner).trans (List.suffix_cons _ _)).trans suffix

theorem Reads.suffix {task : Task} {value : Expr} {inner : List Char}
    (reads : Reads task text (some (value, inner)) beyond) : inner <:+ text := by
  obtain ⟨taken, split, -⟩ := reads.sound
  exact ⟨taken, split.symm⟩

theorem Agree.map {f : Expr → Expr}
    (agree : Agree c rest rest' (result.map fun read => (f read.1, read.2)) result') :
    ∃ former, Agree c rest rest' result former ∧
      result' = former.map fun read => (f read.1, read.2) := by
  cases result with
  | none =>
    cases agree
    exact ⟨none, .missed, rfl⟩
  | some read =>
    obtain ⟨value, inner⟩ := read
    cases agree with
    | found alike => exact ⟨_, .found alike, rfl⟩

theorem Reads.alike {task : Task} (reads : Reads task text result beyond)
    (alike : Alike c rest rest' text other) (agree : Agree c rest rest' result result')
    (modest : Modest text) (fits : Text.size (c :: rest) ≤ beyond) :
    ∃ past, Reads task other result' past := by
  -- By induction on the reading: the rule that applies to one text applies to the other one, since
  -- what it asks for is there or before.
  induction reads generalizing other result' with
  | @negated text result beyond inner ih =>
    have skipped := fits.trans inner.beyond_le
    obtain ⟨inner', rfl, alike'⟩ := alike.tail (skipped.trans (size_skip_le text))
    obtain ⟨former, agree', rfl⟩ := agree.map
    have inside := modest.suffix (skip_suffix List.suffix_rfl)
    obtain ⟨past, reads⟩ := ih (alike'.skip skipped) agree' inside fits
    exact ⟨past, .negated reads⟩
  | number unsigned bare =>
    rw [← numberAt_alike alike modest agree]
    rw [alike.head?_eq] at unsigned bare
    exact ⟨_, .number unsigned bare⟩
  | @group text result beyond inner ih =>
    have asked := fits.trans (trailing_le _ _)
    have skipped := asked.trans inner.beyond_le
    obtain ⟨inner', rfl, alike'⟩ := alike.tail (skipped.trans (size_skip_le text))
    have inside := modest.suffix (skip_suffix List.suffix_rfl)
    cases result with
    | none =>
      cases agree
      obtain ⟨past, reads⟩ := ih (alike'.skip skipped) .missed inside asked
      exact ⟨_, .group reads⟩
    | some read =>
      obtain ⟨value, last⟩ := read
      have closing : Text.size (c :: rest) ≤ Text.size (skip last) :=
        fits.trans (min_le_right _ _)
      obtain ⟨last', alikeLast⟩ :=
        (alike'.skip skipped).leftover inner (closing.trans (size_skip_le last))
      obtain ⟨past, reads⟩ := ih (alike'.skip skipped) (.found alikeLast) inside asked
      rw [← closed_alike alikeLast closing agree]
      exact ⟨_, .group reads⟩
  | missed tier _ ih =>
    cases agree
    obtain ⟨past, reads⟩ := ih alike .missed modest fits
    exact ⟨past, .missed tier reads⟩
  | begun tier first others ihFirst ihOthers =>
    have near := fits.trans (min_le_left _ _)
    have far := fits.trans (min_le_right _ _)
    obtain ⟨last, alikeLast⟩ := alike.leftover first (far.trans others.beyond_le)
    obtain ⟨past, reads⟩ := ihFirst alike (.found alikeLast) modest near
    obtain ⟨past', reads'⟩ := ihOthers alikeLast agree (modest.suffix first.suffix) far
    exact ⟨_, .begun tier reads reads'⟩
  | @stop rank left text unjoined =>
    cases agree with
    | found alike' =>
      cases alike.eq alike'
      refine ⟨_, .stop ?_⟩
      intro sign op others found joins
      have head := (alike.skip fits).head?_eq
      rw [found, List.head?_cons, List.head?_eq_some_iff] at head
      obtain ⟨former, found'⟩ := head
      exact unjoined found' joins
  | dangling tier found joins first ih =>
    obtain ⟨last, found', alike'⟩ := alike.operand found (fits.trans first.beyond_le)
    have inside := modest.suffix (skip_suffix (found ▸ skip_suffix_self _))
    obtain ⟨past, reads⟩ := ih alike' .missed inside fits
    cases agree with
    | found alike'' =>
      cases alike.eq alike''
      exact ⟨past, .dangling tier found' joins reads⟩
  | step tier found joins first others ihFirst ihOthers =>
    have near := fits.trans (min_le_left _ _)
    have far := fits.trans (min_le_right _ _)
    obtain ⟨last, found', alike'⟩ := alike.operand found (near.trans first.beyond_le)
    obtain ⟨inner, alikeInner⟩ := alike'.leftover first (far.trans others.beyond_le)
    have inside := modest.suffix (skip_suffix (found ▸ skip_suffix_self _))
    obtain ⟨past, reads⟩ := ihFirst alike' (.found alikeInner) inside near
    obtain ⟨past', reads'⟩ := ihOthers alikeInner agree (inside.suffix first.suffix) far
    exact ⟨_, .step tier found' joins reads reads'⟩

theorem Rejects.alike (rejects : Rejects text beyond) (alike : Alike c rest rest' text other)
    (modest : Modest text) (fits : Text.size (c :: rest) ≤ beyond) :
    ∃ past, Rejects other past := by
  have skipped := modest.suffix (skip_suffix_self text)
  cases rejects with
  | @failed result near reads more =>
    have asked := fits.trans (trailing_le _ _)
    have alike' := alike.skip (asked.trans reads.beyond_le)
    cases result with
    | none =>
      obtain ⟨past, reads'⟩ := reads.alike alike' .missed skipped asked
      exact ⟨_, .failed reads' (by simp)⟩
    | some read =>
      obtain ⟨value, last⟩ := read
      have ending : Text.size (c :: rest) ≤ Text.size (skip last) := fits.trans (min_le_right _ _)
      obtain ⟨last', alikeLast⟩ := alike'.leftover reads (ending.trans (size_skip_le last))
      obtain ⟨past, reads'⟩ := reads.alike alike' (.found alikeLast) skipped asked
      refine ⟨_, .failed reads' ?_⟩
      rintro read ⟨⟩
      exact (alikeLast.skip ending).ne_nil

end Local

-- The longest prefix that can be completed.

def Viable (config : Config) (text : String) : Prop :=
  ∃ (more : String) (value : Expr),
    ((Session.start (.ofString (text ++ more)) config).parse expression).1 = .ok value

theorem viable_iff {config : Config} {text : String} :
    Viable config text ↔ ∃ more value, Spells (text.toList ++ more) value := by
  simp only [Viable, parse_eq_ok_iff, String.toList_append]
  constructor
  next =>
    rintro ⟨more, value, spells⟩
    exact ⟨more.toList, value, spells⟩
  next =>
    rintro ⟨more, value, spells⟩
    exact ⟨String.ofList more, value, by rwa [String.toList_ofList]⟩

theorem Rejects.size_le {text before after more : List Char} {beyond : Nat} {value : Expr}
    (rejects : Rejects text beyond) (modest : Modest text) (split : text = before ++ after)
    (spells : Spells (before ++ more) value) : beyond ≤ Text.size after := by
  obtain ⟨begun, left, -, whole, size, -⟩ := rejects.begins
  by_contra shorter
  rcases List.append_eq_append_iff.mp (split.symm.trans whole) with
    ⟨kept, same, behind⟩ | ⟨kept, same, behind⟩
  next =>
    rw [behind, Text.size_append] at shorter
    omega
  next =>
    cases kept with
    | nil =>
      rw [List.nil_append] at behind
      rw [← behind] at shorter
      omega
    | cons c others =>
      -- The prefix has the character at the farthest place, and so it is read as the text is.
      have alike : Alike c (others ++ after) (others ++ more) text (before ++ more) := by
        rw [whole, behind, same, List.append_assoc]
        exact .intro begun
      have fits : Text.size (c :: (others ++ after)) ≤ beyond := by
        rw [← size, behind, List.cons_append]
      obtain ⟨past, rejects'⟩ := rejects.alike alike modest fits
      exact rejects'.not_spells spells

theorem parse_rejects {text : String} {config : Config} {rejection : Rejection}
    (rejected : ((Session.start (.ofString text) config).parse expression).1 = .error rejection) :
    ∃ report beyond, rejection = .mismatch report ∧ Rejects text.toList beyond ∧
      report.position + beyond = Text.size text.toList := by
  have yields := expression_yields (.ofString text) config
  simp only [parse_eq, Session.start, Machine.start, ParserTo.parse] at rejected
  generalize (expression { source := .ofString text, config } : Ending Expr Expr) = ending
    at yields rejected
  cases yields with
  | found => cases rejected
  | @missed failure after beyond kept recoverable rejects =>
    simp only [recoverable, if_true] at rejected
    cases rejected
    have fits : beyond ≤ Text.size text.toList := rejects.beyond_le
    refine ⟨_, beyond, rfl, rejects, ?_⟩
    have reach := kept.marked.reach
    change _ = max 0 (Text.size text.toList + 1 - beyond) at reach
    have reached : after.farthest.innermost.reach = after.farthest.innermost.position + 1 :=
      Farthest.Frame.reach_of_pos (by omega)
    change after.farthest.innermost.position + beyond = Text.size text.toList
    omega

/-- A syntax error points at the end of the longest prefix that can be completed, which is the end
of the text where the whole text can be. -/
theorem syntax_error_ends_longest_viable_prefix {text : String} {config : Config}
    {rejection : Rejection} (modest : Modest text.toList)
    (rejected : ((Session.start (.ofString text) config).parse expression).1 = .error rejection) :
    ∃ report, rejection = .mismatch report ∧
      IsGreatest {size | ∃ before after : String, text = before ++ after ∧
        size = Text.size before.toList ∧ Viable config before} report.position ∧
      (Viable config text → report.position = Text.size text.toList) := by
  obtain ⟨report, beyond, rfl, rejects, total⟩ := parse_rejects rejected
  have bounded : ∀ before after : String, text = before ++ after → Viable config before →
      Text.size before.toList ≤ report.position := by
    rintro before after rfl viable
    obtain ⟨more, value, spells⟩ := viable_iff.mp viable
    rw [String.toList_append] at rejects modest total
    have behind := rejects.size_le modest rfl spells
    rw [Text.size_append] at total
    omega
  refine ⟨report, rfl, ⟨?_, ?_⟩, ?_⟩
  next =>
    obtain ⟨before, after, more, split, size, value, spells⟩ := rejects.begins
    refine ⟨String.ofList before, String.ofList after, ?_, ?_, viable_iff.mpr ⟨more, value, ?_⟩⟩
    next => rw [← String.toList_inj, String.toList_append, String.toList_ofList,
      String.toList_ofList, split]
    next =>
      rw [split, Text.size_append] at total
      rw [String.toList_ofList]
      omega
    next => rwa [String.toList_ofList]
  next =>
    rintro size ⟨before, after, split, rfl, viable⟩
    exact bounded before after split viable
  next =>
    intro viable
    have whole := bounded text "" String.append_empty.symm viable
    omega

theorem syntax_error_ends_longest_viable_prefix_sum :
    Modest "1 + x".toList ∧ ∃ report,
      ((Session.start (.ofString "1 + x")).parse expression).1 = .error (.mismatch report) ∧
        report.position = 4 ∧
        IsGreatest {size | ∃ before after : String, "1 + x" = before ++ after ∧
          size = Text.size before.toList ∧ Viable {} before} report.position := by
  have modest : Modest "1 + x".toList := by decide +kernel
  have rejected : ((Session.start (.ofString "1 + x")).parse expression).1 =
      .error (.mismatch
        { position := 4
          labels := ["white space", "-", "number", "("]
          place :=
            { offset := 4, lineNumber := 1, line := "1 + x", column := 4, found := some 'x' } }) := by
    decide +kernel
  obtain ⟨report, same, greatest, -⟩ := syntax_error_ends_longest_viable_prefix modest rejected
  cases same
  exact ⟨modest, _, rejected, rfl, greatest⟩

end Packrat.Calculator
