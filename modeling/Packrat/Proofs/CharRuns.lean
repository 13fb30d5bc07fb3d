import Packrat.Proofs.Repetition
import Packrat.Proofs.Scanning

set_option autoImplicit false

namespace Packrat

instance (text : List Char) (offset : Nat) : Decidable (Text.Boundary text offset) :=
  inferInstanceAs (Decidable (_ = true))

theorem Text.take?_size_append (first second : List Char) :
    Text.take? (first ++ second) (Text.size first) = some first := by
  induction first with
  | nil => cases second <;> rfl
  | cons c rest ih =>
    obtain ⟨n, length⟩ : ∃ n, c.utf8Size + size rest = n + 1 := by
      have positive := c.utf8Size_pos
      exact ⟨c.utf8Size + size rest - 1, by omega⟩
    have left : n + 1 - c.utf8Size = size rest := by omega
    have inside : ¬ n + 1 < c.utf8Size := by omega
    simp [length, take?, inside, left, ih]

theorem Source.Ahead.slice {source : Source} {cursor : Cursor} {taken rest : List Char}
    (ahead : source.Ahead cursor (taken ++ rest)) :
    source.slice cursor.index (cursor.index + Text.size taken) = String.ofList taken := by
  have forwards : ¬ cursor.index + Text.size taken < cursor.index := by omega
  rw [Source.slice, if_neg forwards, ahead.rest_eq, Nat.add_sub_cancel_left,
    Text.take?_size_append, Option.getD_some]

theorem Source.Ahead.skip_eq {source : Source} {cursor : Cursor} {taken rest : List Char}
    (ahead : source.Ahead cursor (taken ++ rest)) :
    Parser.skip (Text.size taken) source cursor =
      { cursor with index := cursor.index + Text.size taken } := by
  have total := ahead.index_add
  rw [Text.size_append] at total
  rw [Parser.skip, Nat.min_eq_left (by omega)]

namespace Parser

variable {ν : Type} {test : Char → Bool} {label : String} {machine : Machine ν} {c : Char}
  {text others : List Char}

def pastRun (test : Char → Bool) (label : String) (machine : Machine ν) : Machine ν :=
  let stop := skip (Text.size (machine.rest.takeWhile test)) machine.source machine.cursor
  (machine.moveTo stop).register stop.index label

theorem run_apply (test : Char → Bool) (label : String) (machine : Machine ν) :
    run test label machine =
      .ok (String.ofList (machine.rest.takeWhile test)) (pastRun test label machine) := rfl

theorem attempt_charWhere_found (rest : machine.rest = c :: others) (passes : test c = true) :
    attempt (charWhere test label) machine = .ok c (machine.advance c.utf8Size) := by
  simp only [attempt, charWhere, rest, passes, if_true]

theorem attempt_charWhere_missed (none : machine.rest.takeWhile test = []) :
    attempt (charWhere test label) machine =
      .error .noMatch (machine.register machine.cursor.index label) := by
  cases rest : machine.rest with
  | nil =>
    simp only [attempt, charWhere, rest, failAt]
    rfl
  | cons c others =>
    have fails : test c = false := by
      by_contra passes
      simp_all
    simp only [attempt, charWhere, rest, fails, failAt]
    rfl

theorem pastRun_eq (ahead : machine.source.Ahead machine.cursor text) :
    pastRun test label machine =
      let stop := machine.cursor.index + Text.size (text.takeWhile test)
      (machine.moveTo { machine.cursor with index := stop }).register stop label := by
  have split : machine.source.Ahead machine.cursor
      (text.takeWhile test ++ text.dropWhile test) := by
    rwa [List.takeWhile_append_dropWhile]
  simp only [pastRun, Machine.rest, ahead.rest_eq, split.skip_eq]

theorem pastRun_of_none (ahead : machine.source.Ahead machine.cursor text)
    (none : text.takeWhile test = []) :
    pastRun test label machine = machine.register machine.cursor.index label := by
  rw [pastRun_eq ahead, none]
  rfl

theorem pastRun_advance (ahead : machine.source.Ahead machine.cursor (c :: others))
    (passes : test c = true) :
    pastRun test label (machine.advance c.utf8Size) = pastRun test label machine := by
  have whole : machine.source.Ahead machine.cursor ([c] ++ others) := ahead
  have advanced : machine.advance c.utf8Size =
      machine.moveTo { machine.cursor with index := machine.cursor.index + c.utf8Size } :=
    congrArg machine.moveTo whole.skip_eq
  have onward : machine.source.Ahead
      { machine.cursor with index := machine.cursor.index + c.utf8Size } others := by
    have skipped := whole.skip
    rwa [whole.skip_eq] at skipped
  rw [advanced, pastRun_eq onward, pastRun_eq ahead]
  simp only [List.takeWhile_cons, passes, if_true, Text.size_cons, Machine.moveTo, Nat.add_assoc]

theorem many_charWhere_none (ahead : machine.source.Ahead machine.cursor text)
    (none : text.takeWhile test = []) (n : Nat) :
    many (charWhere test label) (n + 1) machine =
      .ok [] (machine.register machine.cursor.index label) := by
  have missed := @attempt_charWhere_missed ν test label machine (by rwa [Machine.rest, ahead.rest_eq])
  simp only [many, missed]
  rfl

theorem many_charWhere (ahead : machine.source.Ahead machine.cursor text) {n : Nat}
    (enough : text.length < n) :
    many (charWhere test label) n machine =
      .ok (text.takeWhile test) (pastRun test label machine) := by
  induction text generalizing machine n with
  | nil =>
    obtain ⟨n, rfl⟩ : ∃ less, n = less + 1 := ⟨n - 1, by omega⟩
    rw [many_charWhere_none ahead rfl, pastRun_of_none ahead rfl]
    rfl
  | cons c others ih =>
    obtain ⟨n, rfl⟩ : ∃ less, n = less + 1 := ⟨n - 1, by omega⟩
    cases passes : test c with
    | false =>
      have none : (c :: others).takeWhile test = [] := by simp [passes]
      rw [many_charWhere_none ahead none, pastRun_of_none ahead none, none]
    | true =>
      have whole : machine.source.Ahead machine.cursor ([c] ++ others) := ahead
      have moved : machine.cursor.index < (machine.advance c.utf8Size).cursor.index :=
        whole.index_lt whole.skip (by simp)
      have onward : (machine.advance c.utf8Size).source.Ahead (machine.advance c.utf8Size).cursor
          others := whole.skip
      have rest := ih onward (by simpa using enough : others.length < n)
      simp only [many, attempt_charWhere_found ahead.rest_eq passes, moved.ne', if_false]
      rw [rest]
      simp only [pastRun_advance ahead passes, List.takeWhile_cons, passes, if_true]

theorem many1_charWhere (ahead : machine.source.Ahead machine.cursor text) {n : Nat}
    (enough : text.length < n) :
    many1 (charWhere test label) n machine =
      if text.takeWhile test = [] then .error .noMatch (pastRun test label machine)
      else .ok (text.takeWhile test) (pastRun test label machine) := by
  by_cases none : text.takeWhile test = []
  next =>
    have missed := @attempt_charWhere_missed ν test label machine (by rwa [Machine.rest, ahead.rest_eq])
    rw [if_pos none, many1_of_error missed, pastRun_of_none ahead none]
  next =>
    obtain ⟨c, others, rfl⟩ : ∃ c others, text = c :: others :=
      List.exists_cons_of_ne_nil fun empty => none (by rw [empty]; rfl)
    have passes : test c = true := by
      by_contra fails
      exact none (by simp [fails])
    have whole : machine.source.Ahead machine.cursor ([c] ++ others) := ahead
    have moved : machine.cursor.index < (machine.advance c.utf8Size).cursor.index :=
      whole.index_lt whole.skip (by simp)
    have found : attempt (charWhere test label) machine = .ok c (machine.advance c.utf8Size) :=
      attempt_charWhere_found ahead.rest_eq passes
    rw [if_neg none, ← many_of_moved found moved.ne']
    exact many_charWhere ahead (Nat.lt_succ_of_lt enough)

/-- However long a run of characters is, reading it in one go and matching one character after another,
as often as possible, end on the same machine, and with the same characters; and the run that must not be
empty fails exactly if not one character can be matched. The characters are those of the text between the
former and the present index. -/
theorem run_matches_many (test : Char → Bool) (label : String) {machine : Machine ν}
    (boundary : Text.Boundary machine.source.chars machine.cursor.index) :
    ∃ chars after,
      run test label machine = .ok (String.ofList chars) after ∧
      (run1 test label machine =
        if chars = [] then .error .noMatch after else .ok (String.ofList chars) after) ∧
      (∀ n > machine.rest.length,
        many (charWhere test label) n machine = .ok chars after ∧
        many1 (charWhere test label) n machine =
          if chars = [] then .error .noMatch after else .ok chars after) ∧
      machine.source.slice machine.cursor.index after.cursor.index = String.ofList chars := by
  obtain ⟨text, ahead⟩ : ∃ text, machine.source.Ahead machine.cursor text :=
    Option.isSome_iff_exists.mp boundary
  have split : machine.source.Ahead machine.cursor
      (text.takeWhile test ++ text.dropWhile test) := by
    rwa [List.takeWhile_append_dropWhile]
  have rest : machine.rest = text := ahead.rest_eq
  refine ⟨text.takeWhile test, pastRun test label machine, ?_, ?_, fun n enough => ?_, ?_⟩
  next => rw [run_apply, rest]
  next =>
    rw [run1, run_apply, rest]
    simp only [String.ofList_eq_empty_iff]
  next =>
    rw [rest] at enough
    exact ⟨many_charWhere ahead enough, many1_charWhere ahead enough⟩
  next =>
    rw [pastRun_eq ahead]
    exact split.slice

theorem run_matches_many_accents :
    let vowel : Char → Bool := ['ä', 'ö', 'ü'].contains
    let machine : Machine Nat :=
      { source := .ofString "xäöü1"
        cursor := { index := 1, level := 3 }
        farthest := { innermost := { position := 7, labels := ["digit"] } } }
    Text.Boundary machine.source.chars machine.cursor.index ∧
    ∃ chars after,
      run vowel "vowel" machine = .ok (String.ofList chars) after ∧
      (run1 vowel "vowel" machine =
        if chars = [] then .error .noMatch after else .ok (String.ofList chars) after) ∧
      (∀ n > machine.rest.length,
        many (charWhere vowel "vowel") n machine = .ok chars after ∧
        many1 (charWhere vowel "vowel") n machine =
          if chars = [] then .error .noMatch after else .ok chars after) ∧
      machine.source.slice machine.cursor.index after.cursor.index = String.ofList chars := by
  intro vowel machine
  have boundary : Text.Boundary machine.source.chars machine.cursor.index := by decide
  exact ⟨boundary, run_matches_many vowel "vowel" boundary⟩

end Parser

end Packrat
