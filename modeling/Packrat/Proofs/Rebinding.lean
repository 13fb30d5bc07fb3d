import Packrat.Proofs.Attendance
import Packrat.Proofs.Bookkeeping

set_option autoImplicit false

namespace Packrat

variable {ν : Type}

structure Nested (added : List (Signal ν)) : Prop where
  balanced : Balanced added
  inside : ∀ {newer older}, added = newer ++ older →
    ∀ before, openCalls before <:+ openCalls (older ++ before)

namespace Nested

theorem nil : Nested (ν := ν) [] where
  balanced := .nil
  inside split before := by
    obtain ⟨_, rfl⟩ := List.append_eq_nil_iff.mp split.symm
    exact List.suffix_refl _

theorem append {later added : List (Signal ν)} (first : Nested later) (second : Nested added) :
    Nested (later ++ added) where
  balanced := first.balanced.append second.balanced
  inside split before := by
    rcases List.append_eq_append_iff.mp split with ⟨rest, rfl, same⟩ | ⟨rest, same, rfl⟩
    next => exact second.inside same before
    next =>
      rw [List.append_assoc, ← second.balanced before]
      exact first.inside same (added ++ before)

theorem quiet {signal : Signal ν}
    (silent : ∀ earlier, openCalls (signal :: earlier) = openCalls earlier) : Nested [signal] where
  balanced := .quiet .nil silent
  inside split before := by
    rcases List.singleton_eq_append_iff.mp split with ⟨rfl, rfl⟩ | ⟨rfl, rfl⟩
    next => exact (silent before).symm ▸ List.suffix_refl _
    next => exact List.suffix_refl _

theorem enclose {call : Call} {start : Nat} {last : Signal ν} {added : List (Signal ν)}
    (nested : Nested added)
    (left : ∀ earlier, openCalls (last :: earlier) = (openCalls earlier).tail) :
    Nested (last :: (added ++ [.step call start .entering])) where
  balanced := nested.balanced.enclose left
  inside {newer older} split before := by
    cases newer with
    | nil =>
      have whole : openCalls (last :: (added ++ [.step call start .entering]) ++ before) =
          openCalls before := nested.balanced.enclose left before
      rw [List.nil_append] at split
      exact (split ▸ whole).symm ▸ List.suffix_refl _
    | cons _ newer =>
      obtain ⟨_, split⟩ := List.cons_eq_cons.mp split
      rcases List.append_eq_append_iff.mp split with ⟨rest, rfl, same⟩ | ⟨rest, same, rfl⟩
      next =>
        rcases List.singleton_eq_append_iff.mp same with ⟨rfl, rfl⟩ | ⟨rfl, rfl⟩
        next => exact List.suffix_cons _ _
        next => exact List.suffix_refl _
      next =>
        rw [List.append_assoc]
        exact (List.suffix_cons call _).trans
          (nested.inside same (.step call start .entering :: before))

end Nested

def Entered (journal : List (Signal ν)) (call : Call) : Prop :=
  ∃ inner start outside, journal = inner ++ .step call start .entering :: outside ∧ Nested inner

theorem Entered.append {journal added : List (Signal ν)} {call : Call}
    (entered : Entered journal call) (nested : Nested added) : Entered (added ++ journal) call := by
  obtain ⟨inner, start, outside, rfl, within⟩ := entered
  exact ⟨added ++ inner, start, outside, by rw [List.append_assoc], nested.append within⟩

def Remembered (journal : List (Signal ν)) (call : Call) : Prop :=
  ∃ later stop inner start outside,
    journal = later ++ .step call stop .stored :: (inner ++ .step call start .entering :: outside) ∧
    (∀ source, .bound source ∉ later) ∧ Balanced inner ∧
    ∀ newer source older, inner = newer ++ .bound source :: older →
      call ∈ openCalls (older ++ .step call start .entering :: outside)

def Recorded (journal : List (Signal ν)) (memo : MemoTable ν) : Prop :=
  ∀ call verdict, memo.find? call = some verdict → Remembered journal call

theorem Remembered.cons {journal : List (Signal ν)} {call : Call} {signal : Signal ν}
    (remembered : Remembered journal call) (unbound : ∀ source, signal ≠ .bound source) :
    Remembered (signal :: journal) call := by
  obtain ⟨later, stop, inner, start, outside, rfl, absent, rest⟩ := remembered
  refine ⟨signal :: later, stop, inner, start, outside, rfl, fun source member => ?_, rest⟩
  rcases List.mem_cons.mp member with same | member
  next => exact unbound source same.symm
  next => exact absent source member

theorem Entered.remembered {journal : List (Signal ν)} {call : Call} (entered : Entered journal call)
    (past : List (Signal ν)) (stop : Nat) :
    Remembered (.step call stop .stored :: (journal ++ past)) call := by
  obtain ⟨inner, start, outside, rfl, nested⟩ := entered
  refine ⟨[], stop, inner, start, outside ++ past, by simp, by simp, nested.balanced, ?_⟩
  intro newer source older split
  -- The call was open from when it was entered until its outcome was stored.
  have parts : inner = (newer ++ [.bound source]) ++ older := by simp [split]
  have around := nested.inside parts (.step call start .entering :: (outside ++ past))
  exact around.subset List.mem_cons_self

/-- The call has been entered since a text was bound last. -/
def EnteredSince (journal : List (Signal ν)) (call : Call) : Prop :=
  ∃ since start earlier, journal = since ++ .step call start .entering :: earlier ∧
    ∀ source, .bound source ∉ since

/-- No call was open when a text was bound. -/
def BoundOutside (journal : List (Signal ν)) : Prop :=
  ∀ newer source older, journal = newer ++ .bound source :: older → openCalls older = []

theorem Remembered.enteredSince {journal : List (Signal ν)} {call : Call}
    (remembered : Remembered journal call) (outside : BoundOutside journal) :
    EnteredSince journal call := by
  obtain ⟨later, stop, inner, start, earlier, rfl, absent, _, opened⟩ := remembered
  refine ⟨later ++ .step call stop .stored :: inner, start, earlier, by simp, ?_⟩
  intro source member
  simp only [List.mem_append, List.mem_cons, reduceCtorEq, false_or] at member
  rcases member with member | member
  next => exact absent source member
  next =>
    obtain ⟨newer, older, split⟩ := List.append_of_mem member
    have around := opened newer source older split
    rw [outside (later ++ .step call stop .stored :: newer) source
      (older ++ .step call start .entering :: earlier) (by simp [split])] at around
    cases around

theorem Recorded.empty (journal : List (Signal ν)) : Recorded journal {} := by
  intro call verdict found
  simp [MemoTable.find?_eq, MemoTable.entries] at found

theorem Recorded.cons {journal : List (Signal ν)} {memo : MemoTable ν} {signal : Signal ν}
    (recorded : Recorded journal memo) (unbound : ∀ source, signal ≠ .bound source) :
    Recorded (signal :: journal) memo :=
  fun call verdict found => (recorded call verdict found).cons unbound

structure Machine.Chronicled (before after : Machine ν) : Prop where
  journal : ∃ added, after.journal = added ++ before.journal ∧ Nested added
  recorded : ∀ past, Recorded (before.journal ++ past) before.memo →
    Recorded (after.journal ++ past) after.memo

namespace Machine.Chronicled

variable {before middle after : Machine ν}

theorem refl (machine : Machine ν) : machine.Chronicled machine :=
  ⟨⟨[], rfl, .nil⟩, fun _ => id⟩

theorem trans (first : before.Chronicled middle) (second : middle.Chronicled after) :
    before.Chronicled after where
  journal := by
    obtain ⟨added, same, nested⟩ := first.journal
    obtain ⟨more, equal, even⟩ := second.journal
    exact ⟨more ++ added, by rw [equal, same, List.append_assoc], even.append nested⟩
  recorded past := second.recorded past ∘ first.recorded past

theorem write (chronicled : before.Chronicled after) {signal : Signal ν}
    (silent : ∀ earlier, openCalls (signal :: earlier) = openCalls earlier)
    (unbound : ∀ source, signal ≠ .bound source) : before.Chronicled (after.write signal) :=
  chronicled.trans
    ⟨⟨[signal], rfl, .quiet silent⟩, fun _ recorded => recorded.cons unbound⟩

theorem report (chronicled : before.Chronicled after) (call : Call) (step : Step ν)
    (silent : step.Silent) : before.Chronicled (after.report call step) :=
  chronicled.write (openCalls_step silent call _) (by simp)

theorem register (chronicled : before.Chronicled after) (index : Nat) (label : String) :
    before.Chronicled (after.register index label) :=
  { chronicled.write (fun _ => rfl : ∀ earlier, openCalls (.expected index label :: earlier) = _)
      (by simp) with }

theorem bind (machine : Machine ν) (source : Source) : machine.Chronicled (machine.bind source) :=
  ⟨⟨[.bound source], rfl, .quiet fun _ => rfl⟩, fun _ _ => .empty _⟩

end Machine.Chronicled

namespace Parser

variable {α : Type}

def Chronicles (parser : Parser ν α) : Prop :=
  ∀ machine : Machine ν, machine.Chronicled (Ending.machine (parser machine))

section Invoke

variable {codec : Codec ν α} {call : Call} {machine : Machine ν}

theorem chronicled_settle (memoized : Bool) (outcome : Except Failure ν)
    (entered : Entered machine.journal call) :
    machine.Chronicled (settle call memoized outcome machine) := by
  have closed : machine.Chronicled (popped machine) := { Machine.Chronicled.refl machine with }
  have result := settled call memoized outcome machine
  generalize settle call memoized outcome machine = last at result ⊢
  cases result with
  | withheld => exact closed.report call .withheld trivial
  | dropped => exact closed
  | stored =>
    refine ⟨⟨[_], rfl, .quiet fun _ => rfl⟩, fun past recorded other verdict found => ?_⟩
    -- What is stored is the outcome of the call that is being closed, which was entered before.
    rcases MemoTable.of_find?_insert found with ⟨rfl, _⟩ | earlier
    next => exact entered.remembered past _
    next => exact (recorded other verdict earlier).cons (by simp)

theorem chronicled_reported {ending : Ending ν α}
    (answered : (machine.report call .entering).Chronicled ending.machine) :
    machine.Chronicled (reported codec call ending).machine := by
  obtain ⟨added, same, nested⟩ := answered.journal
  have journal (last : Signal ν) : last :: ending.machine.journal =
      last :: (added ++ [.step call machine.cursor.index .entering]) ++ machine.journal := by
    simp [same, Machine.report, Machine.write]
  have recorded (past : List (Signal ν)) (before : Recorded (machine.journal ++ past) machine.memo) :=
    answered.recorded past (before.cons (by simp))
  cases ending with
  | ok value after =>
    exact ⟨⟨_, journal _, nested.enclose fun _ => rfl⟩,
      fun past before => (recorded past before).cons (by simp)⟩
  | error failure after =>
    exact ⟨⟨_, journal _, nested.enclose fun _ => rfl⟩,
      fun past before => (recorded past before).cons (by simp)⟩

theorem indifferent_chronicled : Machine.Indifferent (ν := ν) Machine.Chronicled where
  aside machine _ _ _ := { Machine.Chronicled.refl machine with }
  trans := .trans
  register machine index label := (Machine.Chronicled.refl machine).register index label
  allow machine _ := (Machine.Chronicled.refl machine).write (fun _ => rfl) (by simp)
  dropFrame chronicled := { chronicled with }

theorem calling_chronicled : Machine.Calling (ν := ν) Machine.Chronicled where
  __ := indifferent_chronicled
  checked machine call hit := (Machine.Chronicled.refl machine).report call _ trivial
  merge machine _ := { Machine.Chronicled.refl machine with }
  reenter {machine call _} _ seeded :=
    { (Machine.Chronicled.refl machine).report call (.reentered seeded) trivial with }
  plant machine call _ := { (Machine.Chronicled.refl machine).report call .grew trivial with }
  settle {first machine after call memoized outcome} asked _ _ ran _ := by
    -- What was entered by the first machine is entered until it is closed.
    have entered : Entered (first.report call .entering).journal call := ⟨[], _, _, rfl, .nil⟩
    obtain ⟨checks, began, quiet⟩ := asked.journal
    obtain ⟨added, same, nested⟩ := ran.journal
    have since : machine.Chronicled after := { ran with }
    refine since.trans (chronicled_settle memoized outcome ?_)
    rw [same]
    exact Entered.append (began ▸ entered.append quiet) nested
  reported _ _ answered := chronicled_reported answered

end Invoke

end Parser

namespace Grammar

open Packrat.Parser

theorem Term.chronicles (grammar : Grammar) (n : Nat) (args : List Arg) (term : Term) :
    Chronicles (term.parser grammar n args) :=
  Term.runs_always calling_chronicled .bind n args term

def noted (grammar : Grammar) (session : Session Stored) : Request → List (Signal Stored)
  | .run term => (Ending.machine (grammar.parser term session.machine)).journal
  | .parse term => ((grammar.parser term).parse session.machine).2.journal
  | _ => session.machine.journal

def chronicle (grammar : Grammar) : Session Stored → List Request → List (Signal Stored)
  | _, [] => []
  | session, request :: rest =>
    chronicle grammar (enter grammar session request).2 rest ++ noted grammar session request

theorem chronicled_parse (grammar : Grammar) (term : Term) (machine : Machine Stored) :
    machine.Chronicled ((grammar.parser term).parse machine).2 := by
  have ran := Term.chronicles grammar requestBudget [] term machine
  unfold ParserTo.parse Grammar.parser
  cases ending : term.parser grammar requestBudget [] machine with
  | ok value after =>
    rw [ending] at ran
    exact ran
  | error failure after =>
    rw [ending] at ran
    simp only
    split
    next => exact ran.write (fun _ => rfl) (by simp)
    next => exact ran.write (fun _ => rfl) (by simp)

theorem recorded_enter (grammar : Grammar) (session : Session Stored) (request : Request)
    {past : List (Signal Stored)} (handed : session.machine.journal = [])
    (recorded : Recorded past session.machine.memo) :
    (enter grammar session request).2.machine.journal = [] ∧
      Recorded (noted grammar session request ++ past)
        (enter grammar session request).2.machine.memo := by
  have started : Recorded (session.machine.journal ++ past) session.machine.memo := by
    rwa [handed]
  cases request with
  | run term =>
    have ran := (Term.chronicles grammar requestBudget [] term session.machine).recorded past started
    simp only [enter, answer, run_eq]
    exact ⟨rfl, ran⟩
  | parse term =>
    have ran := (chronicled_parse grammar term session.machine).recorded past started
    simp only [enter, answer, parse_eq]
    exact ⟨rfl, ran⟩
  | _ => exact ⟨handed, started⟩

theorem recorded_enterAll (grammar : Grammar) {session : Session Stored} (requests : List Request)
    {past : List (Signal Stored)} (handed : session.machine.journal = [])
    (recorded : Recorded past session.machine.memo) :
    Recorded (chronicle grammar session requests ++ past)
      (enterAll grammar session requests).2.machine.memo := by
  induction requests generalizing session past with
  | nil => exact recorded
  | cons request rest ih =>
    obtain ⟨again, after⟩ := recorded_enter grammar session request handed recorded
    rw [chronicle, List.append_assoc]
    exact ih again after

/-- In every session, whatever its terms do, the verdicts in the memo table were stored since a text was
bound last. Each is of an activation that was entered since then or was open at that time, hence
entered since then if texts are bound between parses only. -/
theorem memo_table_is_recorded (grammar : Grammar) (source : Source) (config : Config)
    (requests : List Request) :
    let session := Session.start source config
    let memo := (enterAll grammar session requests).2.machine.memo
    Recorded (chronicle grammar session requests) memo ∧
    (BoundOutside (chronicle grammar session requests) →
      ∀ call verdict, memo.find? call = some verdict →
        EnteredSince (chronicle grammar session requests) call) := by
  intro session memo
  have recorded : Recorded (chronicle grammar session requests) memo := by
    simpa using @recorded_enterAll grammar session requests [] rfl (.empty [])
  exact ⟨recorded, fun outside call verdict found =>
    (recorded call verdict found).enteredSince outside⟩

def swept : Grammar where
  definitions :=
    [("A",
      { rule := { name := { grammar := "swept", rule := "A" } }
        body := .sequence [.literal "x", .bind "y"] })]

def unentered : List (Signal ν) → Bool
  | [] => true
  | .bound _ :: _ => true
  | .step _ _ .entering :: _ => false
  | _ :: earlier => unentered earlier

theorem verdict_outlives_its_text :
    let term : Term := .call .plain "A" []
    let call : Call := { cursor := {}, rule := { grammar := "swept", rule := "A" } }
    let session : Session Stored := .start (.ofString "x")
    let first := (enterAll swept session [.run term]).2
    unentered (chronicle swept session [.run term]) = true ∧
    first.machine.source.text = "y" ∧
    (first.machine.memo.find? call).isSome = true ∧
    (first.run (swept.parser term)).1.map Value.json = .ok "[\"x\",null]" ∧
    (Session.run (.start (.ofString "y")) (swept.parser term)).1.map Value.json =
      .error .noMatch := by
  decide +kernel

end Grammar

end Packrat
