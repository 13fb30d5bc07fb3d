import Mathlib.Order.Monotone.Defs
import Packrat.Proofs.CharRuns
import Packrat.Text.LineTable

set_option autoImplicit false

namespace Packrat

namespace Text

-- The characters between two boundaries.

theorem boundary_iff {text : List Char} {offset : Nat} :
    Boundary text offset ↔ ∃ before after, text = before ++ after ∧ size before = offset := by
  rw [Boundary, Option.isSome_iff_exists]
  constructor
  next =>
    rintro ⟨after, found⟩
    obtain ⟨before, parts⟩ := suffix?_eq_some_iff.mp found
    exact ⟨before, after, parts⟩
  next =>
    rintro ⟨before, after, parts⟩
    exact ⟨after, suffix?_eq_some_iff.mpr ⟨before, parts⟩⟩

theorem slice?_size_append (before middle after : List Char) :
    slice? (before ++ (middle ++ after)) (size before) (size before + size middle) = some middle := by
  have forwards : ¬ size before + size middle < size before := by omega
  rw [slice?, if_neg forwards, suffix?_size_append, Option.bind_some, Nat.add_sub_cancel_left,
    take?_size_append]

theorem slice?_zero (first second : List Char) : slice? (first ++ second) 0 (size first) = some first := by
  have cut := slice?_size_append [] first second
  rwa [List.nil_append, size_nil, Nat.zero_add] at cut

-- The lines of a text.

/-- The lines of a text, without their line feeds. The last one is empty if the text ends with a line
feed. -/
def lines (text : List Char) : List (List Char) :=
  text.splitOn '\n'

/-- Where a line begins: the bytes of the earlier lines and of their line feeds. -/
def lineStart (text : List Char) (n : Nat) : Nat :=
  (((lines text).take n).map fun line => size line + 1).sum

@[simp] theorem size_feed (text : List Char) : size ('\n' :: text) = size text + 1 :=
  Nat.add_comm 1 (size text)

theorem intercalate_lines (text : List Char) : ['\n'].intercalate (lines text) = text :=
  List.intercalate_splitOn '\n'

section Lines

variable {text line : List Char} {n : Nat}

theorem lines_last (none : '\n' ∉ line) : lines line = [line] :=
  List.splitOn_eq_singleton none

theorem lines_feed (none : '\n' ∉ line) (rest : List Char) :
    lines (line ++ '\n' :: rest) = line :: lines rest :=
  List.splitOn_append_cons_self_of_not_mem none rest

@[simp] theorem lineStart_zero (text : List Char) : lineStart text 0 = 0 := by
  simp [lineStart]

theorem lineStart_feed (none : '\n' ∉ line) (rest : List Char) (n : Nat) :
    lineStart (line ++ '\n' :: rest) (n + 1) = size line + 1 + lineStart rest n := by
  simp [lineStart, lines_feed none]

theorem lineStart_succ (found : (lines text)[n]? = some line) :
    lineStart text (n + 1) = lineStart text n + (size line + 1) := by
  simp [lineStart, List.take_add_one, found]

@[elab_as_elim]
theorem lines_induction {motive : List Char → Prop} (last : ∀ line, '\n' ∉ line → motive line)
    (feed : ∀ line rest, '\n' ∉ line → motive rest → motive (line ++ '\n' :: rest))
    (text : List Char) : motive text := by
  -- What has been read of the present line is kept in front.
  have reading (rest : List Char) : ∀ line, '\n' ∉ line → motive (line ++ rest) := by
    induction rest with
    | nil => simpa using last
    | cons c rest ih =>
      intro line none
      by_cases ends : c = '\n'
      next =>
        subst ends
        exact feed line rest none (ih [] (by simp))
      next =>
        have longer := ih (line ++ [c]) (by simpa [none] using Ne.symm ends)
        simpa using longer
  exact reading text [] (by simp)

theorem length_lines (text : List Char) : (lines text).length = text.count '\n' + 1 := by
  induction text using lines_induction with
  | last line none => simp [lines_last none, List.count_eq_zero_of_not_mem none]
  | feed line rest none ih =>
    simp [lines_feed none, List.count_append, List.count_eq_zero_of_not_mem none, ih]

theorem not_mem_of_mem_lines (member : line ∈ lines text) : '\n' ∉ line := by
  induction text using lines_induction with
  | last other none => simp_all [lines_last none]
  | feed other rest none ih =>
    rw [lines_feed none, List.mem_cons] at member
    rcases member with rfl | member
    next => exact none
    next => exact ih member

theorem parts_of_line (found : (lines text)[n]? = some line) :
    ∃ before after, text = before ++ (line ++ after) ∧ size before = lineStart text n ∧
      ((lines text).length = n + 1 → after = []) := by
  induction text using lines_induction generalizing n with
  | last other none =>
    rw [lines_last none] at found
    obtain ⟨rfl, rfl⟩ : n = 0 ∧ other = line := by simpa [List.getElem?_singleton] using found
    exact ⟨[], [], by simp⟩
  | feed other rest none ih =>
    rw [lines_feed none] at found ⊢
    cases n with
    | zero =>
      obtain rfl : other = line := by simpa using found
      refine ⟨[], '\n' :: rest, rfl, rfl, fun single => ?_⟩
      simp [length_lines] at single
    | succ n =>
      obtain ⟨before, after, split, start, ending⟩ := ih (by simpa using found)
      refine ⟨other ++ '\n' :: before, after, by simpa using split, ?_, by simpa using ending⟩
      rw [lineStart_feed none, size_append, size_feed, start]
      omega

theorem parts_to_end (found : (lines text)[n]? = some line) :
    ∃ before after, text = before ++ after ∧ size before = lineStart text n + size line := by
  obtain ⟨before, after, split, start, -⟩ := parts_of_line found
  exact ⟨before ++ line, after, by rw [split, List.append_assoc], by rw [size_append, start]⟩

theorem slice?_line (found : (lines text)[n]? = some line) :
    slice? text (lineStart text n) (lineStart text n + size line) = some line := by
  obtain ⟨before, after, split, start, -⟩ := parts_of_line found
  rw [← start]
  nth_rewrite 1 [split]
  exact slice?_size_append before line after

theorem lineStart_add_last (found : (lines text)[n]? = some line) (last : (lines text).length = n + 1) :
    lineStart text n + size line = size text := by
  obtain ⟨before, after, split, start, ends⟩ := parts_of_line found
  have total := congrArg size split
  rw [ends last, List.append_nil, size_append, start] at total
  exact total.symm

end Lines

end Text

namespace LineTable

open Text (lines lineStart size)

-- Searching increasing numbers.

section Search

variable {numbers : List Nat} {n bound x : Nat}

theorem countP_le_eq_zero (above : ∀ y ∈ numbers, x < y) : numbers.countP (· ≤ x) = 0 := by
  rw [List.countP_eq_zero]
  intro y member
  have := above y member
  simpa using this

theorem le_iff_lt_countP (increasing : numbers.Pairwise (· < ·)) (found : numbers[n]? = some bound) :
    bound ≤ x ↔ n < numbers.countP (· ≤ x) := by
  induction numbers generalizing n with
  | nil => cases found
  | cons first others ih =>
    obtain ⟨above, rest⟩ := List.pairwise_cons.mp increasing
    cases n with
    | zero =>
      obtain rfl : first = bound := by simpa using found
      by_cases reached : first ≤ x
      next => simp [reached]
      next =>
        have none := @countP_le_eq_zero others x fun y member => by
          have := above y member
          omega
        simp [reached, none]
    | succ n =>
      have others : others[n]? = some bound := by simpa using found
      by_cases reached : first ≤ x
      next =>
        rw [List.countP_cons_of_pos (by simpa using reached), ih rest others]
        omega
      next =>
        have less := above bound (List.mem_of_getElem? others)
        rw [List.countP_cons_of_neg (by simpa using reached),
          countP_le_eq_zero fun y member => by have := above y member; omega]
        omega

inductive Places (numbers : List Nat) (x : Nat) : Except Nat Nat → Prop
  | found {n : Nat} (stands : numbers[n]? = some x) : Places numbers x (.ok n)
  | missing {smaller greater : List Nat} (split : numbers = smaller ++ greater)
      (below : ∀ y ∈ smaller, y < x) (above : ∀ y ∈ greater, x < y) :
      Places numbers x (.error smaller.length)

def Searches (search : List Nat → Nat → Except Nat Nat) : Prop :=
  ∀ numbers x, numbers.Pairwise (· < ·) → Places numbers x (search numbers x)

/-- The line an offset is on by a search of the starts: a line begins at the offset, or the offset
belongs to the line before the place where it could be inserted. -/
def findLine (search : List Nat → Nat → Except Nat Nat) (table : LineTable) (offset : Nat) : Nat :=
  match search table.starts offset with
  | .ok exact => exact + 1
  | .error insertion => insertion

theorem findLine_eq {search : List Nat → Nat → Except Nat Nat} (searches : Searches search)
    {table : LineTable} (increasing : table.starts.Pairwise (· < ·)) (offset : Nat) :
    table.findLine search offset = table.lineOf offset := by
  have places := searches table.starts offset increasing
  rw [findLine, lineOf]
  generalize search table.starts offset = answer at places
  generalize table.starts = starts at places increasing
  cases places with
  | @found n stands =>
    have reached := (le_iff_lt_countP (x := offset) increasing stands).mp (Nat.le_refl offset)
    -- The number stands there once: what follows it is greater.
    have past : ¬ n + 1 < starts.countP (· ≤ offset) := by
      intro beyond
      have inside : n + 1 < starts.length := Nat.lt_of_lt_of_le beyond List.countP_le_length
      have next := (le_iff_lt_countP increasing (List.getElem?_eq_getElem inside)).mpr beyond
      obtain ⟨present, rfl⟩ := List.getElem?_eq_some_iff.mp stands
      have less := List.pairwise_iff_getElem.mp increasing n (n + 1) present inside (by omega)
      omega
    simp only
    omega
  | @missing smaller greater split below above =>
    subst split
    have all : smaller.countP (· ≤ offset) = smaller.length := by
      rw [List.countP_eq_length]
      intro y member
      have := below y member
      simpa using Nat.le_of_lt this
    rw [List.countP_append, all, countP_le_eq_zero above, Nat.add_zero]

def passSmaller (numbers : List Nat) (x : Nat) : Except Nat Nat :=
  let n := (numbers.takeWhile (· < x)).length
  if numbers[n]? = some x then .ok n else .error n

theorem searches_passSmaller : Searches passSmaller := by
  intro numbers x increasing
  have split := (List.takeWhile_append_dropWhile (p := fun y => decide (y < x)) (l := numbers)).symm
  rw [passSmaller]
  split
  next stands => exact .found stands
  next other =>
    refine .missing split (fun y member => by simpa using List.mem_takeWhile_imp member) ?_
    cases rest : numbers.dropWhile fun y => decide (y < x) with
    | nil => simp
    | cons first others =>
      have reached : ¬ first < x := by
        have := List.head_dropWhile_not (fun y => decide (y < x)) (l := numbers) (by simp [rest])
        simpa [rest] using this
      have different : first ≠ x := by
        rintro rfl
        apply other
        rw [rest] at split
        nth_rewrite 1 [split]
        simp
      have sorted : (first :: others).Pairwise (· < ·) :=
        rest ▸ increasing.sublist (List.dropWhile_sublist _)
      intro y member
      rcases List.mem_cons.mp member with rfl | member
      next => omega
      next =>
        have := (List.pairwise_cons.mp sorted).1 y member
        omega

end Search

-- The table of a text.

theorem startsAfter_append {line : List Char} (none : '\n' ∉ line) (offset : Nat) (rest : List Char) :
    startsAfter offset (line ++ rest) = startsAfter (offset + size line) rest := by
  induction line generalizing offset with
  | nil => rfl
  | cons c line ih =>
    obtain ⟨other, none⟩ : '\n' ≠ c ∧ '\n' ∉ line := by simpa using none
    simp [startsAfter, other.symm, ih none, Nat.add_assoc]

theorem startsAfter_eq (offset : Nat) (text : List Char) :
    offset :: startsAfter offset text =
      (List.range (lines text).length).map (offset + lineStart text ·) := by
  induction text using Text.lines_induction generalizing offset with
  | last line none =>
    have only := startsAfter_append none offset []
    rw [List.append_nil] at only
    simp [Text.lines_last none, only, startsAfter]
  | feed line rest none ih =>
    have feed : '\n'.utf8Size = 1 := rfl
    rw [Text.lines_feed none, startsAfter_append none, startsAfter, if_pos rfl, ih, List.length_cons,
      List.range_succ_eq_map, List.map_cons, List.map_map]
    simp [Function.comp_def, feed, Text.lineStart_feed none, Nat.add_assoc]

theorem increasing_startsAfter (offset : Nat) (text : List Char) :
    (offset :: startsAfter offset text).Pairwise (· < ·) := by
  induction text generalizing offset with
  | nil => simp [startsAfter]
  | cons c rest ih =>
    have positive := c.utf8Size_pos
    have later := ih (offset + c.utf8Size)
    have above := (List.pairwise_cons.mp later).1
    rw [startsAfter]
    split
    next =>
      refine List.pairwise_cons.mpr ⟨fun start member => ?_, later⟩
      rcases List.mem_cons.mp member with rfl | member
      next => omega
      next =>
        have := above start member
        omega
    next =>
      refine List.pairwise_cons.mpr ⟨fun start member => ?_, (List.pairwise_cons.mp later).2⟩
      have := above start member
      omega

section Table

variable {source : Source} {n offset : Nat} {line : List Char}

theorem increasing_starts (source : Source) : (ofSource source).starts.Pairwise (· < ·) :=
  increasing_startsAfter 0 source.chars

theorem starts_eq (source : Source) :
    (ofSource source).starts =
      (List.range (lines source.chars).length).map (lineStart source.chars) := by
  have starts := startsAfter_eq 0 source.chars
  simp only [Nat.zero_add] at starts
  exact starts

theorem count_eq (source : Source) : (ofSource source).count = (lines source.chars).length := by
  simp [count, starts_eq]

theorem getElem?_starts (found : (lines source.chars)[n]? = some line) :
    (ofSource source).starts[n]? = some (lineStart source.chars n) := by
  obtain ⟨inside, -⟩ := List.getElem?_eq_some_iff.mp found
  simp [starts_eq, inside]

theorem range?_line (found : (lines source.chars)[n]? = some line) :
    (ofSource source).range? source (n + 1) =
      some (lineStart source.chars n, lineStart source.chars n + size line) := by
  have start : (ofSource source).start? (n + 1) = some (lineStart source.chars n) := by
    simpa [start?] using getElem?_starts found
  rw [range?, start, Option.map_some]
  congr 2
  cases next : (lines source.chars)[n + 1]? with
  | some following =>
    rw [getElem?_starts next, Text.lineStart_succ found]
    simp only
    omega
  | none =>
    obtain ⟨inside, -⟩ := List.getElem?_eq_some_iff.mp found
    have last : (lines source.chars).length = n + 1 := by
      have := List.getElem?_eq_none_iff.mp next
      omega
    have outside : (ofSource source).starts[n + 1]? = none := by simp [starts_eq, last]
    rw [outside, Text.lineStart_add_last found last]
    exact source.size_eq

theorem range?_isSome (source : Source) (line : Nat) :
    ((ofSource source).range? source line).isSome ↔ 1 ≤ line ∧ line ≤ (ofSource source).count := by
  rw [range?, Option.isSome_map, start?, count]
  split
  next none => simp [none]
  next =>
    rw [isSome_getElem?]
    omega

theorem line_of_range? {number start stop : Nat}
    (range : (ofSource source).range? source number = some (start, stop)) :
    ∃ n line, number = n + 1 ∧ (lines source.chars)[n]? = some line ∧ start = lineStart source.chars n ∧
      stop = lineStart source.chars n + size line := by
  obtain ⟨first, last⟩ := (range?_isSome source number).mp (by simp [range])
  rw [count_eq] at last
  obtain ⟨n, rfl⟩ : ∃ n, number = n + 1 := ⟨number - 1, by omega⟩
  have found := List.getElem?_eq_getElem (show n < (lines source.chars).length by omega)
  obtain ⟨rfl, rfl⟩ : lineStart source.chars n = start ∧ _ = stop := by
    simpa [range?_line found] using range
  exact ⟨n, _, rfl, found, rfl, rfl⟩

theorem lineOf_eq (found : (lines source.chars)[n]? = some line)
    (begun : lineStart source.chars n ≤ offset)
    (within : offset ≤ lineStart source.chars n + size line ∨ (lines source.chars).length = n + 1) :
    (ofSource source).lineOf offset = n + 1 := by
  have increasing := increasing_starts source
  have reached := (le_iff_lt_countP increasing (getElem?_starts found)).mp begun
  have most : (ofSource source).lineOf offset ≤ (lines source.chars).length := by
    rw [← count_eq]
    exact List.countP_le_length
  unfold lineOf at most ⊢
  cases next : (lines source.chars)[n + 1]? with
  | none =>
    have := List.getElem?_eq_none_iff.mp next
    omega
  | some following =>
    obtain ⟨inside, -⟩ := List.getElem?_eq_some_iff.mp next
    have unreached := not_congr (le_iff_lt_countP (x := offset) increasing (getElem?_starts next))
    rw [Text.lineStart_succ found] at unreached
    have := unreached.mp (by omega)
    omega

theorem exists_lineOf (source : Source) (offset : Nat) :
    ∃ n line, (lines source.chars)[n]? = some line ∧ (ofSource source).lineOf offset = n + 1 ∧
      lineStart source.chars n ≤ offset ∧
      (offset ≤ lineStart source.chars n + size line ∨ (lines source.chars).length = n + 1) := by
  have increasing := increasing_starts source
  have nonempty : 0 < (lines source.chars).length := by simp [Text.length_lines]
  have most : (ofSource source).lineOf offset ≤ (lines source.chars).length := by
    rw [← count_eq]
    exact List.countP_le_length
  have first := (le_iff_lt_countP (x := offset) increasing
    (getElem?_starts (List.getElem?_eq_getElem nonempty))).mp (by simp)
  obtain ⟨n, number⟩ : ∃ n, (ofSource source).lineOf offset = n + 1 :=
    ⟨(ofSource source).lineOf offset - 1, by unfold lineOf; omega⟩
  have inside : n < (lines source.chars).length := by omega
  have found := List.getElem?_eq_getElem inside
  refine ⟨n, _, found, number, ?_, ?_⟩
  next =>
    refine (le_iff_lt_countP increasing (getElem?_starts found)).mpr ?_
    rw [← lineOf, number]
    omega
  next =>
    cases next : (lines source.chars)[n + 1]? with
    | none =>
      have := List.getElem?_eq_none_iff.mp next
      omega
    | some following =>
      have unreached := not_congr (le_iff_lt_countP (x := offset) increasing (getElem?_starts next))
      rw [← lineOf, number, Text.lineStart_succ found] at unreached
      have := unreached.mpr (by omega)
      omega

theorem monotone_lineOf (table : LineTable) : Monotone table.lineOf := by
  intro offset later le
  refine List.countP_mono_left fun start _ reached => ?_
  simp only [decide_eq_true_eq] at reached ⊢
  omega

/-- The table tiles the text. Its starts increase from zero, and there is one more line than there are
line feeds; the ranges of the lines, and of no other numbers, cut the text into pieces without line
feeds that give it back when they are joined; and however the starts are searched, an offset in the text
is found on the line whose range holds it, its end included, and each offset beyond on the last line, which
is where the table looks them up. -/
theorem tiles_text {search : List Nat → Nat → Except Nat Nat} (searches : Searches search)
    (source : Source) :
    let table := ofSource source
    table.starts.head? = some 0 ∧ table.starts.Pairwise (· < ·) ∧
    table.count = source.chars.count '\n' + 1 ∧
    (∀ number, (table.range? source number).isSome ↔ 1 ≤ number ∧ number ≤ table.count) ∧
    (∃ pieces : List (List Char), pieces.length = table.count ∧
      (∀ n piece, pieces[n]? = some piece → '\n' ∉ piece ∧ ∃ start stop,
        table.range? source (n + 1) = some (start, stop) ∧
        Text.slice? source.chars start stop = some piece) ∧
      ['\n'].intercalate pieces = source.chars) ∧
    (∀ offset number, offset ≤ source.size →
      (table.findLine search offset = number ↔ ∃ start stop,
        table.range? source number = some (start, stop) ∧ start ≤ offset ∧ offset ≤ stop)) ∧
    (∀ offset, source.size < offset → table.findLine search offset = table.count) ∧
    Monotone (table.findLine search) ∧ table.findLine search = table.lineOf := by
  intro table
  have found : table.findLine search = table.lineOf :=
    funext (findLine_eq searches (increasing_starts source))
  rw [found]
  refine ⟨rfl, increasing_starts source, ?_, range?_isSome source, ?_, ?_, ?_,
    monotone_lineOf table, rfl⟩
  next => rw [count_eq, Text.length_lines]
  next =>
    refine ⟨lines source.chars, (count_eq source).symm, fun n piece member => ?_,
      Text.intercalate_lines source.chars⟩
    exact ⟨Text.not_mem_of_mem_lines (List.mem_of_getElem? member), _, _, range?_line member,
      Text.slice?_line member⟩
  next =>
    intro offset number within
    constructor
    next =>
      rintro rfl
      obtain ⟨n, line, present, equal, begun, ends⟩ := exists_lineOf source offset
      rw [equal]
      refine ⟨_, _, range?_line present, begun, ?_⟩
      rcases ends with ends | last
      next => exact ends
      next => rwa [Text.lineStart_add_last present last, ← source.size_eq]
    next =>
      rintro ⟨start, stop, range, begun, ends⟩
      obtain ⟨n, line, rfl, present, rfl, rfl⟩ := line_of_range? range
      exact lineOf_eq present begun (.inl ends)
  next =>
    intro offset beyond
    obtain ⟨n, line, present, equal, begun, ends⟩ := exists_lineOf source offset
    rw [equal, count_eq]
    rcases ends with ends | last
    next =>
      -- No line reaches beyond the text.
      have inside := (Text.boundary_iff.mpr (Text.parts_to_end present)).le_size
      rw [← source.size_eq] at inside
      omega
    next => exact last.symm

theorem tiles_text_gaps :
    let source := Source.ofString "é\n\nb\n"
    let table := ofSource source
    Searches passSmaller ∧
    (table.findLine passSmaller 3 = 2 ↔ ∃ start stop,
      table.range? source 2 = some (start, stop) ∧ start ≤ 3 ∧ 3 ≤ stop) ∧
    table.starts = [0, 3, 4, 6] ∧
    (List.range 9).map (table.findLine passSmaller) = [1, 1, 1, 2, 3, 3, 4, 4, 4] ∧
    (List.range 6).map (table.range? source) =
      [none, some (0, 2), some (3, 3), some (4, 5), some (6, 6), none] := by
  intro source table
  obtain ⟨-, -, -, -, -, place, -⟩ := tiles_text searches_passSmaller source
  exact ⟨searches_passSmaller, place 3 2 (by decide), by decide, by decide, by decide⟩

end Table

end LineTable

end Packrat
