import Packrat.Proofs.Blocks

set_option autoImplicit false

namespace Packrat

namespace Text

theorem suffix?_zero (text : List Char) : suffix? text 0 = some text := by
  cases text <;> rfl

theorem suffix?_size_append (first second : List Char) :
    suffix? (first ++ second) (size first) = some second := by
  induction first with
  | nil => exact suffix?_zero second
  | cons c rest ih =>
    obtain ⟨n, length⟩ : ∃ n, c.utf8Size + size rest = n + 1 := by
      have positive := c.utf8Size_pos
      exact ⟨c.utf8Size + size rest - 1, by omega⟩
    have left : n + 1 - c.utf8Size = size rest := by omega
    have inside : ¬ n + 1 < c.utf8Size := by omega
    simp [size_cons, length, suffix?, inside, left, ih]

theorem suffix?_eq_some_iff {text rest : List Char} {offset : Nat} :
    suffix? text offset = some rest ↔ ∃ before, text = before ++ rest ∧ size before = offset := by
  constructor
  next =>
    intro found
    induction text generalizing offset with
    | nil =>
      cases offset with
      | zero => exact ⟨[], by simpa [suffix?] using found⟩
      | succ n => simp [suffix?] at found
    | cons c others ih =>
      cases offset with
      | zero => exact ⟨[], by simpa [suffix?] using found⟩
      | succ n =>
        by_cases inside : n + 1 < c.utf8Size
        next => simp [suffix?, inside] at found
        next =>
          simp only [suffix?, inside, if_false] at found
          obtain ⟨before, split, length⟩ := ih found
          refine ⟨c :: before, by simp [split], ?_⟩
          simp only [size_cons]
          omega
  next =>
    rintro ⟨before, rfl, rfl⟩
    exact suffix?_size_append before rest

theorem Boundary.zero (text : List Char) : Boundary text 0 := by
  simp [Boundary, suffix?_zero]

theorem Boundary.le_size {text : List Char} {offset : Nat} (boundary : Boundary text offset) :
    offset ≤ size text := by
  obtain ⟨rest, found⟩ := Option.isSome_iff_exists.mp boundary
  obtain ⟨before, rfl, rfl⟩ := suffix?_eq_some_iff.mp found
  simp

end Text

namespace Source

theorem boundary_add {source : Source} {offset : Nat} {taken after : List Char}
    (rest : source.rest offset = taken ++ after) (some : taken ≠ []) :
    Text.Boundary source.chars (offset + Text.size taken) := by
  rw [rest_eq] at rest
  cases found : Text.suffix? source.chars offset with
  | none => simp_all
  | some suffix =>
    simp only [found, Option.getD_some] at rest
    obtain ⟨before, split, length⟩ := Text.suffix?_eq_some_iff.mp found
    rw [Text.Boundary, Option.isSome_iff_exists]
    refine ⟨after, Text.suffix?_eq_some_iff.mpr ⟨before ++ taken, ?_, ?_⟩⟩
    next => rw [split, rest, List.append_assoc]
    next => rw [Text.size_append, length]

structure Reaches (source : Source) (start stop : Cursor) : Prop where
  level : stop.level = start.level
  index : stop.index = start.index ∨
    stop.index ≤ source.size ∧ (start.index < stop.index ∨ source.size < start.index)
  boundary : Text.Boundary source.chars start.index → Text.Boundary source.chars stop.index

namespace Reaches

variable {source : Source} {start middle stop : Cursor}

theorem refl (source : Source) (start : Cursor) : source.Reaches start start :=
  ⟨rfl, .inl rfl, id⟩

theorem trans (first : source.Reaches start middle) (second : source.Reaches middle stop) :
    source.Reaches start stop where
  level := second.level.trans first.level
  index := by
    have := first.index
    have := second.index
    omega
  boundary := second.boundary ∘ first.boundary

theorem le_of_le {limit : Nat} (reaches : source.Reaches start stop)
    (size : source.size ≤ limit) (within : start.index ≤ limit) : stop.index ≤ limit := by
  have := reaches.index
  omega

theorem index_le (reaches : source.Reaches start stop) (within : start.index ≤ source.size) :
    start.index ≤ stop.index := by
  have := reaches.index
  omega

theorem setLevel {level : Int32}
    (reaches : source.Reaches { start with level } stop) :
    source.Reaches start { stop with level := start.level } :=
  ⟨rfl, reaches.index, reaches.boundary⟩

end Reaches

theorem reaches_skip {source : Source} {cursor : Cursor} {taken after : List Char}
    (rest : source.rest cursor.index = taken ++ after) :
    source.Reaches cursor (Parser.skip (Text.size taken) source cursor) where
  level := rfl
  index := by
    simp only [Parser.skip]
    omega
  boundary boundary := by
    have within := boundary.le_size
    simp only [Parser.skip]
    by_cases none : taken = []
    next =>
      subst none
      rw [← source.size_eq] at within
      simpa [Nat.min_eq_left within] using boundary
    next =>
      have moved := boundary_add rest none
      have fits := moved.le_size
      rw [← source.size_eq] at fits
      rwa [Nat.min_eq_left fits]

end Source

namespace Parser

def Forward {α : Type} (act : Source → Cursor → Move α) : Prop :=
  ∀ (source : Source) (cursor : Cursor), source.Reaches cursor (act source cursor).cursor

theorem forward_literal (text : String) : Forward (literalMove text) := by
  intro source cursor
  unfold literalMove
  split
  next found =>
    obtain ⟨after, rest⟩ := List.isPrefixOf_iff_prefix.mp found
    exact Source.reaches_skip rest.symm
  next => exact .refl source cursor

theorem forward_char (test : Char → Bool) (label : String) : Forward (charMove test label) := by
  intro source cursor
  unfold charMove
  split
  next c after rest =>
    split
    next =>
      have split : source.rest cursor.index = [c] ++ after := rest
      simpa using Source.reaches_skip split
    next => exact .refl source cursor
  next => exact .refl source cursor

theorem forward_peek : Forward peekMove := by
  intro source cursor
  unfold peekMove
  split <;> exact .refl source cursor

theorem forward_consume : Forward consumeMove := by
  intro source cursor
  unfold consumeMove
  split
  next c after rest =>
    have split : source.rest cursor.index = [c] ++ after := rest
    have moved := Source.boundary_add split (by simp)
    have fits := moved.le_size
    rw [← source.size_eq] at fits
    have positive := c.utf8Size_pos
    simp only [Text.size_cons, Text.size_nil, Nat.add_zero] at moved fits
    exact ⟨rfl, .inr ⟨fits, .inl (by simp only; omega)⟩, fun _ => moved⟩
  next => exact .refl source cursor

theorem forward_end : Forward endMove := by
  intro source cursor
  unfold endMove
  split <;> exact .refl source cursor

theorem forward_run (test : Char → Bool) (label : String) : Forward (runMove test label) :=
  fun _ _ => Source.reaches_skip List.takeWhile_append_dropWhile.symm

theorem forward_run1 (test : Char → Bool) (label : String) : Forward (run1Move test label) :=
  forward_run test label

end Parser

end Packrat
