import Mathlib.Order.Bounds.Basic
import Packrat.Proofs.Lines
import Packrat.Text.Position

set_option autoImplicit false

namespace Packrat

namespace Text

section Split

variable {text : List Char} {offset : Nat}

theorem split_le (text : List Char) (offset : Nat) : size (split text offset).1 ≤ offset := by
  induction text generalizing offset with
  | nil => simp [split]
  | cons c rest ih =>
    rw [split]
    split
    next => simp
    next =>
      have := ih (offset - c.utf8Size)
      simp only [size_cons]
      omega

theorem lt_split {c : Char} {others : List Char} (after : (split text offset).2 = c :: others) :
    offset < size (split text offset).1 + c.utf8Size := by
  induction text generalizing offset with
  | nil => cases after
  | cons d rest ih =>
    rw [split] at after ⊢
    split at after
    next inside =>
      obtain ⟨rfl, -⟩ := List.cons_eq_cons.mp after
      simp [inside]
    next outside =>
      have := ih after
      simp only [outside, if_false, size_cons]
      omega

theorem boundary_floor (text : List Char) (offset : Nat) : Boundary text (floor text offset) :=
  boundary_iff.mpr ⟨_, _, (split_append text offset).symm, rfl⟩

theorem isGreatest_floor (text : List Char) (offset : Nat) :
    IsGreatest { boundary | Boundary text boundary ∧ boundary ≤ min offset (size text) }
      (floor text offset) := by
  have boundary := boundary_floor text offset
  refine ⟨⟨boundary, le_min (split_le text offset) boundary.le_size⟩, ?_⟩
  rintro other ⟨stands, within⟩
  obtain ⟨before, after, parts, rfl⟩ := boundary_iff.mp stands
  have divided := (split_append text offset).trans parts
  rcases List.append_eq_append_iff.mp divided with ⟨more, longer, right⟩ | ⟨more, shorter, -⟩
  next =>
    cases more with
    | nil => simp [floor, longer]
    | cons c more =>
      have beyond := lt_split right
      have total := congrArg size longer
      rw [size_append, size_cons] at total
      omega
  next =>
    have total := congrArg size shorter
    rw [size_append] at total
    rw [floor]
    omega

end Split

def stepBack (text : List Char) : Nat → Nat
  | 0 => 0
  | n + 1 => if (suffix? text (n + 1)).isSome then n + 1 else stepBack text n

theorem isGreatest_stepBack (text : List Char) (n : Nat) :
    IsGreatest { boundary | Boundary text boundary ∧ boundary ≤ n } (stepBack text n) := by
  induction n with
  | zero => exact ⟨⟨.zero text, Nat.le_refl 0⟩, fun _ within => within.2⟩
  | succ n ih =>
    rw [stepBack]
    split
    next stands => exact ⟨⟨stands, Nat.le_refl _⟩, fun _ within => within.2⟩
    next inside =>
      refine ⟨⟨ih.1.1, Nat.le_succ_of_le ih.1.2⟩, ?_⟩
      rintro other ⟨stands, within⟩
      have different : other ≠ n + 1 := by
        rintro rfl
        exact inside stands
      exact ih.2 ⟨stands, by omega⟩

theorem stepBack_eq (text : List Char) (offset : Nat) :
    stepBack text (min offset (size text)) = floor text offset :=
  (isGreatest_stepBack text _).unique (isGreatest_floor text offset)

end Text

namespace Position

open Text (lines lineStart size)

-- The line around a place in the text.

section Around

variable {line : List Char}

theorem lastLine_last (none : '\n' ∉ line) : lastLine line = line := by
  have all : line.reverse.takeWhile (· ≠ '\n') = line.reverse := by
    rw [List.takeWhile_eq_self_iff]
    intro c member
    have other : c ≠ '\n' := fun same => none (same ▸ List.mem_reverse.mp member)
    simpa using other
  rw [lastLine, all, List.reverse_reverse]

theorem lastLine_feed (line rest : List Char) : lastLine (line ++ '\n' :: rest) = lastLine rest := by
  rw [lastLine, lastLine, List.reverse_append, List.reverse_cons, List.append_assoc,
    List.singleton_append, List.takeWhile_append, List.takeWhile_cons_of_neg (by simp), List.append_nil]
  split
  next whole =>
    rw [(List.takeWhile_prefix (p := fun c => decide (c ≠ '\n')) (l := rest.reverse)).eq_of_length whole]
  next => rfl

theorem firstLine_append (none : '\n' ∉ line) (rest : List Char) :
    firstLine (line ++ rest) = line ++ firstLine rest := by
  refine List.takeWhile_append_of_pos fun c member => ?_
  have other : c ≠ '\n' := fun same => none (same ▸ member)
  simpa using other

theorem not_mem_lastLine (left : List Char) : '\n' ∉ lastLine left := by
  intro member
  have passed := List.mem_takeWhile_imp (List.mem_reverse.mp member)
  simp at passed

theorem lastLine_suffix (left : List Char) : ∃ before, left = before ++ lastLine left := by
  obtain ⟨before, split⟩ := List.takeWhile_prefix (p := fun c => decide (c ≠ '\n')) (l := left.reverse)
  refine ⟨before.reverse, ?_⟩
  rw [lastLine, ← List.reverse_append, split, List.reverse_reverse]

theorem lines_firstLine (none : '\n' ∉ line) (right : List Char) :
    (lines (line ++ right))[0]? = some (line ++ firstLine right) := by
  induction right using Text.lines_induction with
  | last last ends =>
    have whole : '\n' ∉ line ++ last := by simp [none, ends]
    have all := firstLine_append ends []
    rw [Text.lines_last whole]
    simpa [firstLine] using all.symm
  | feed first rest ends _ =>
    have whole : '\n' ∉ line ++ first := by simp [none, ends]
    rw [← List.append_assoc, Text.lines_feed whole, firstLine_append ends]
    simp [firstLine]

theorem line_around (left right : List Char) :
    (lines (left ++ right))[left.count '\n']? = some (lastLine left ++ firstLine right) ∧
      lineStart (left ++ right) (left.count '\n') + size (lastLine left) = size left := by
  induction left using Text.lines_induction with
  | last line none =>
    rw [List.count_eq_zero_of_not_mem none, lastLine_last none]
    exact ⟨lines_firstLine none right, by simp⟩
  | feed line rest none ih =>
    obtain ⟨found, place⟩ := ih
    have number : (line ++ '\n' :: rest).count '\n' = rest.count '\n' + 1 := by
      simp [List.count_append, List.count_eq_zero_of_not_mem none]
    rw [number, lastLine_feed, List.append_assoc, List.cons_append, Text.lines_feed none,
      Text.lineStart_feed none, Text.size_append, Text.size_feed]
    exact ⟨by simpa using found, by omega⟩

end Around

section Read

variable {left right : List Char} {source : Source} {offset : Nat}

theorem before_lastLine (left right : List Char) :
    ∃ earlier, left = earlier ++ lastLine left ∧
      size earlier = lineStart (left ++ right) (left.count '\n') ∧
      earlier.count '\n' = left.count '\n' := by
  obtain ⟨earlier, split⟩ := lastLine_suffix left
  have place := (line_around left right).2
  have total := congrArg size split
  have feeds := congrArg (List.count '\n') split
  rw [Text.size_append] at total
  rw [List.count_append, List.count_eq_zero_of_not_mem (not_mem_lastLine left), Nat.add_zero] at feeds
  exact ⟨earlier, split, by omega, feeds.symm⟩

theorem slice?_lastLine (left right : List Char) :
    Text.slice? (left ++ right) (lineStart (left ++ right) (left.count '\n')) (size left) =
      some (lastLine left) := by
  obtain ⟨earlier, split, start, -⟩ := before_lastLine left right
  have cut := Text.slice?_size_append earlier (lastLine left) right
  rwa [← Text.size_append, ← List.append_assoc, ← split, start] at cut

def between (left right : List Char) : Position where
  offset := size left
  lineNumber := 1 + left.count '\n'
  line := String.ofList (lastLine left ++ firstLine right)
  column := (lastLine left).length
  found := right.head?

theorem scan_eq (source : Source) (offset : Nat) :
    ∃ left right, source.chars = left ++ right ∧ Text.floor source.chars offset = size left ∧
      scan source offset = between left right :=
  ⟨_, _, (Text.split_append source.chars offset).symm, rfl, rfl⟩

theorem lineOf_between (split : source.chars = left ++ right) :
    (LineTable.ofSource source).lineOf (size left) = left.count '\n' + 1 := by
  obtain ⟨found, place⟩ := line_around left right
  rw [← split] at found place
  have within : size left ≤ lineStart source.chars (left.count '\n') +
      size (lastLine left ++ firstLine right) := by
    rw [Text.size_append]
    omega
  exact LineTable.lineOf_eq found (by omega) (.inl within)

theorem lookup_eq (split : source.chars = left ++ right)
    (floor : Text.floor source.chars offset = size left) :
    lookup (.ofSource source) source offset = between left right := by
  have found := (line_around left right).1
  have cut := slice?_lastLine left right
  rw [← split] at found cut
  have rest : source.rest (size left) = right := by
    rw [Source.rest_eq, split, Text.suffix?_size_append, Option.getD_some]
  simp only [lookup, floor, lineOf_between split, LineTable.range?_line found, Option.getD_some,
    Source.slice_eq, Text.slice?_line found, cut, rest, between, Nat.add_comm]

end Read

def read? (text : List Char) (offset lineNumber start stop : Nat) : Option Position := do
  let rest ← Text.suffix? text offset
  let line ← Text.slice? text start stop
  let before ← Text.slice? text start offset
  return { offset, lineNumber, line := String.ofList line, column := before.length, found := rest.head? }

def lastFeed? : List Char → Option Nat
  | [] => none
  | c :: rest =>
    match lastFeed? rest with
    | some offset => some (c.utf8Size + offset)
    | none => if c = '\n' then some 0 else none

def firstFeed? : List Char → Option Nat
  | [] => none
  | c :: rest => if c = '\n' then some 0 else (firstFeed? rest).map (c.utf8Size + ·)

/-- Finds a position by reading the text from its start, slice by slice. -/
def scan? (source : Source) (offset : Nat) : Option Position := do
  let text := source.chars
  let offset := Text.stepBack text (min offset source.size)
  let before ← Text.slice? text 0 offset
  let start := (lastFeed? before).elim 0 (· + 1)
  let after ← Text.suffix? text start
  let stop := (firstFeed? after).elim source.size (start + ·)
  let earlier ← Text.slice? text 0 start
  read? text offset (1 + earlier.count '\n') start stop

/-- Finds a position with the help of a table of line starts that is searched, slice by slice. -/
def lookup? (search : List Nat → Nat → Except Nat Nat) (table : LineTable) (source : Source)
    (offset : Nat) : Option Position :=
  let offset := Text.stepBack source.chars (min offset source.size)
  let lineNumber := table.findLine search offset
  let range := (table.range? source lineNumber).getD (offset, offset)
  read? source.chars offset lineNumber range.1 range.2

section Slices

variable {line : List Char}

theorem lastFeed?_eq_none (none : '\n' ∉ line) : lastFeed? line = .none := by
  induction line with
  | nil => rfl
  | cons c line ih =>
    obtain ⟨other, none⟩ : '\n' ≠ c ∧ '\n' ∉ line := by simpa using none
    simp [lastFeed?, ih none, other.symm]

theorem lastFeed?_feed (line rest : List Char) :
    lastFeed? (line ++ '\n' :: rest) =
      some (size line + (lastFeed? rest).elim 0 (· + 1)) := by
  induction line with
  | nil =>
    have feed : '\n'.utf8Size = 1 := rfl
    cases last : lastFeed? rest <;> simp [lastFeed?, last, feed, Nat.add_comm]
  | cons c line ih => simp [lastFeed?, ih, Nat.add_assoc]

theorem lastFeed?_add (left : List Char) :
    (lastFeed? left).elim 0 (· + 1) + size (lastLine left) = size left := by
  induction left using Text.lines_induction with
  | last line none => simp [lastFeed?_eq_none none, lastLine_last none]
  | feed line rest none ih =>
    rw [lastFeed?_feed, lastLine_feed, Text.size_append, Text.size_feed, Option.elim_some]
    omega

theorem firstFeed?_eq {text : List Char} {start stop : Nat} (ends : stop = start + size text) :
    (firstFeed? text).elim stop (start + ·) = start + size (firstLine text) := by
  subst ends
  induction text generalizing start with
  | nil => rfl
  | cons c rest ih =>
    by_cases feed : c = '\n'
    next => simp [firstFeed?, firstLine, feed]
    next =>
      have longer : firstLine (c :: rest) = c :: firstLine rest := by simp [firstLine, feed]
      have later := @ih (start + c.utf8Size)
      rw [longer, Text.size_cons, Text.size_cons, ← Nat.add_assoc, ← Nat.add_assoc, ← later, firstFeed?,
        if_neg feed]
      cases firstFeed? rest <;> simp [Nat.add_assoc]

theorem read?_eq (left right : List Char) :
    read? (left ++ right) (size left) (1 + left.count '\n') (lineStart (left ++ right) (left.count '\n'))
      (lineStart (left ++ right) (left.count '\n') + size (lastLine left ++ firstLine right)) =
        some (between left right) := by
  simp only [read?, Text.suffix?_size_append, Text.slice?_line (line_around left right).1,
    slice?_lastLine, Option.bind_eq_bind, Option.bind_some, Option.pure_def, between]

variable {left right : List Char} {source : Source} {offset : Nat}

theorem stepBack_source (floor : Text.floor source.chars offset = size left) :
    Text.stepBack source.chars (min offset source.size) = size left := by
  rw [source.size_eq, Text.stepBack_eq, floor]

theorem scan?_eq (split : source.chars = left ++ right)
    (floor : Text.floor source.chars offset = size left) :
    scan? source offset = some (between left right) := by
  obtain ⟨earlier, parts, start, number⟩ := before_lastLine left right
  have whole : source.chars = earlier ++ (lastLine left ++ right) := by
    rw [← List.append_assoc, ← parts, split]
  have begins : (lastFeed? left).elim 0 (· + 1) = size earlier := by
    have last := lastFeed?_add left
    have total := congrArg size parts
    rw [Text.size_append] at total
    omega
  have ends : source.size = size earlier + size (lastLine left ++ right) := by
    rw [source.size_eq, whole, Text.size_append]
  have before : Text.slice? source.chars 0 (size left) = some left := by
    rw [split, Text.slice?_zero]
  have after : Text.suffix? source.chars (size earlier) = some (lastLine left ++ right) := by
    rw [whole, Text.suffix?_size_append]
  have front : Text.slice? source.chars 0 (size earlier) = some earlier := by
    rw [whole, Text.slice?_zero]
  simp only [scan?, stepBack_source floor, before, begins, after, front, number, firstFeed?_eq ends,
    firstLine_append (not_mem_lastLine left), Option.bind_eq_bind, Option.bind_some]
  rw [split, start]
  exact read?_eq left right

theorem lookup?_eq {search : List Nat → Nat → Except Nat Nat} (searches : LineTable.Searches search)
    (split : source.chars = left ++ right) (floor : Text.floor source.chars offset = size left) :
    lookup? search (.ofSource source) source offset = some (between left right) := by
  have found := (line_around left right).1
  rw [← split] at found
  have number := lineOf_between split
  have searched := LineTable.findLine_eq searches (LineTable.increasing_starts source) (size left)
  simp only [lookup?, stepBack_source floor, searched, number, LineTable.range?_line found,
    Option.getD_some]
  rw [split, Nat.add_comm]
  exact read?_eq left right

end Slices

/-- The table of line starts and a scan of the text give the same position for every offset, also inside
a character, at a line feed and beyond the end; and however the table is searched, neither of them takes
a slice that begins or ends inside a character. -/
theorem lookup_agrees_with_scan {search : List Nat → Nat → Except Nat Nat}
    (searches : LineTable.Searches search) (source : Source) (offset : Nat) :
    lookup (.ofSource source) source offset = scan source offset ∧
    scan? source offset = some (scan source offset) ∧
    lookup? search (.ofSource source) source offset = some (scan source offset) := by
  obtain ⟨left, right, split, floor, position⟩ := scan_eq source offset
  rw [position]
  exact ⟨lookup_eq split floor, scan?_eq split floor, lookup?_eq searches split floor⟩

theorem lookup_agrees_with_scan_inside :
    let source := Source.ofString "a\né\n"
    let position : Position := { offset := 2, lineNumber := 2, line := "é", column := 0, found := some 'é' }
    LineTable.Searches LineTable.passSmaller ∧
    lookup (.ofSource source) source 3 = scan source 3 ∧
    scan? source 3 = some (scan source 3) ∧
    lookup? LineTable.passSmaller (.ofSource source) source 3 = some (scan source 3) ∧
    scan source 3 = position := by
  intro source position
  obtain ⟨same, scanned, found⟩ := lookup_agrees_with_scan LineTable.searches_passSmaller source 3
  exact ⟨LineTable.searches_passSmaller, same, scanned, found, by decide⟩

section Faithful

variable {source : Source} {left right : List Char}

theorem take_line (left right : List Char) :
    (lastLine left ++ firstLine right).take (lastLine left).length = lastLine left := by
  simp

theorem head?_eq (left right : List Char) :
    right.head? = ((lastLine left ++ firstLine right)[(lastLine left).length]?).or
      (if right = [] then none else some '\n') := by
  cases right with
  | nil => simp [firstLine]
  | cons c rest =>
    by_cases feed : c = '\n'
    next => simp [firstLine, feed]
    next => simp [firstLine, feed]

theorem size_eq_iff (split : source.chars = left ++ right) : size left = source.size ↔ right = [] := by
  rw [source.size_eq, split, Text.size_append]
  cases right with
  | nil => simp
  | cons c rest =>
    have positive := c.utf8Size_pos
    simp only [Text.size_cons, reduceCtorEq, iff_false]
    omega

theorem offset_eq (source : Source) (offset : Nat) :
    let position := scan source offset
    position.offset = lineStart source.chars (position.lineNumber - 1) +
      size (((lines source.chars)[position.lineNumber - 1]?.getD []).take position.column) := by
  intro position
  obtain ⟨left, right, split, -, same⟩ := scan_eq source offset
  obtain ⟨found, place⟩ := line_around left right
  rw [← split] at found place
  simp only [position, same, between, Nat.add_sub_cancel_left, found, Option.getD_some, take_line, place]

theorem offset_of_boundary {offset : Nat} (boundary : Text.Boundary source.chars offset) :
    (scan source offset).offset = offset := by
  have floor := Text.isGreatest_floor source.chars offset
  have least : offset ≤ min offset (size source.chars) := le_min (Nat.le_refl offset) boundary.le_size
  exact Nat.le_antisymm (Nat.le_trans floor.1.2 (Nat.min_le_left _ _)) (floor.2 ⟨boundary, least⟩)

theorem eq_of_place {offset other : Nat} (boundary : Text.Boundary source.chars offset)
    (elsewhere : Text.Boundary source.chars other)
    (line : (scan source other).lineNumber = (scan source offset).lineNumber)
    (column : (scan source other).column = (scan source offset).column) : other = offset := by
  have place := offset_eq source other
  simp only [line, column] at place
  calc
    other = (scan source other).offset := (offset_of_boundary elsewhere).symm
    _ = (scan source offset).offset := place.trans (offset_eq source offset).symm
    _ = offset := offset_of_boundary boundary

theorem length_underline (position : Position) (style : Underline) :
    (position.underline style).toList.length = max position.line.toList.length (position.column + 1) := by
  simp [underline]

theorem getElem?_underline {position : Position} {n : Nat} (style : Underline)
    (inside : n < (position.underline style).toList.length) :
    (position.underline style).toList[n]? =
      some (if n = position.column then style.marker else style.spacer) := by
  rw [length_underline] at inside
  simp [underline, inside]

/-- A position is faithful to the text. Its offset is the greatest boundary that is not above the given
one; its line is the one of its number, and the earlier lines with their line feeds and the characters
before its column take up just the offset, so that no other boundary has the same line and column; it
shows the character of the line in that column, and after the end of the line the line feed, or nothing
at the end of the text; and it is underlined by one marker in that column. -/
theorem scan_is_faithful (source : Source) (offset : Nat) :
    let position := scan source offset
    IsGreatest { boundary | Text.Boundary source.chars boundary ∧ boundary ≤ min offset source.size }
      position.offset ∧
    (∃ chars, (lines source.chars)[position.lineNumber - 1]? = some chars ∧ 1 ≤ position.lineNumber ∧
      position.line = String.ofList chars ∧ position.column ≤ chars.length ∧
      lineStart source.chars (position.lineNumber - 1) + size (chars.take position.column) =
        position.offset ∧
      position.found = chars[position.column]?.or
        (if position.offset = source.size then none else some '\n')) ∧
    (position.found = none ↔ position.offset = source.size) ∧
    (∀ other, Text.Boundary source.chars offset → Text.Boundary source.chars other → other ≠ offset →
      ((scan source other).lineNumber, (scan source other).column) ≠
        (position.lineNumber, position.column)) ∧
    ∀ style, let drawn := (position.underline style).toList
      drawn.length = max position.line.toList.length (position.column + 1) ∧
      ∀ n, n < drawn.length →
        drawn[n]? = some (if n = position.column then style.marker else style.spacer) := by
  intro position
  refine ⟨?_, ?_, ?_, ?_, fun style => ⟨length_underline position style, fun n inside =>
    getElem?_underline style inside⟩⟩
  next =>
    rw [source.size_eq]
    exact Text.isGreatest_floor source.chars offset
  next =>
    obtain ⟨left, right, split, -, same⟩ := scan_eq source offset
    obtain ⟨found, place⟩ := line_around left right
    rw [← split] at found place
    simp only [position, same, between, Nat.add_sub_cancel_left]
    refine ⟨_, found, Nat.le_add_right 1 _, rfl, by simp, by rw [take_line, place], ?_⟩
    rw [head?_eq left right]
    simp only [size_eq_iff split]
  next =>
    obtain ⟨left, right, split, -, same⟩ := scan_eq source offset
    simp only [position, same, between, size_eq_iff split, List.head?_eq_none_iff]
  next =>
    intro other boundary elsewhere different same
    obtain ⟨line, column⟩ := Prod.mk.inj same
    exact different (eq_of_place boundary elsewhere line column)

theorem scan_is_faithful_accents :
    let source := Source.ofString "né\n字b"
    let position := scan source 7
    Text.Boundary source.chars 7 ∧ Text.Boundary source.chars 4 ∧
    ((scan source 4).lineNumber, (scan source 4).column) ≠ (position.lineNumber, position.column) ∧
    position = { offset := 7, lineNumber := 2, line := "字b", column := 1, found := some 'b' } ∧
    position.underline {} = " ^" := by
  intro source position
  have boundary : Text.Boundary source.chars 7 := by decide
  have other : Text.Boundary source.chars 4 := by decide
  obtain ⟨-, -, -, distinct, -⟩ := scan_is_faithful source 7
  exact ⟨boundary, other, distinct 4 boundary other (by decide), by decide, by decide⟩

end Faithful

end Position

end Packrat
