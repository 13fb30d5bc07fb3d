import Packrat.Proofs.Transparency
import Packrat.Proofs.WriteOnce

set_option autoImplicit false

namespace Packrat

variable {ν : Type}

/-- How many activations have been entered and not been left since a text was bound. -/
def nesting (history : List (Signal ν)) : Nat :=
  (openCalls (since history)).length

def Signal.nests : Signal ν → Nat → Nat
  | .bound _, _ => 0
  | .step _ _ .entering, n => n + 1
  | .step _ _ (.leaving _), n | .step _ _ (.failed _), n => n - 1
  | _, n => n

/-- How many of the open activations are around what is told of a signal. An activation is not around
its own entering, leaving or retrying. -/
def Signal.encloses : Signal ν → Nat → Nat
  | .step _ _ (.leaving _), n | .step _ _ (.failed _), n | .step _ _ .grew, n => n - 1
  | _, n => n

def Signal.opens : Signal ν → Bool
  | .step _ _ .entering => true
  | _ => false

section Nesting

variable {signal : Signal ν} {history : List (Signal ν)}

theorem nesting_cons (signal : Signal ν) (history : List (Signal ν)) :
    nesting (signal :: history) = signal.nests (nesting history) := by
  cases signal with
  | step call index step => cases step <;> simp [nesting, since, Signal.binds, openCalls, Signal.nests]
  | bound | expected | allowed | rejected | broken => rfl

theorem openCalls_since (history : List (Signal ν)) : openCalls (since history) <+: openCalls history := by
  induction history with
  | nil => exact List.prefix_refl _
  | cons signal earlier ih =>
    cases signal with
    | bound source => exact List.nil_prefix
    | step call index step =>
      rw [since_cons rfl]
      cases step with
      | entering => exact List.prefix_cons_inj call |>.mpr ih
      | leaving | failed =>
        simp only [openCalls, ← List.drop_one]
        exact ih.drop 1
      | checked | reentered | grew | stored | withheld => exact ih
    | expected | allowed | rejected | broken => exact ih

theorem nesting_append {past : List (Signal ν)} (closed : nesting past = 0)
    (history : List (Signal ν)) : nesting (history ++ past) = nesting history := by
  induction history with
  | nil => exact closed
  | cons signal earlier ih => rw [List.cons_append, nesting_cons, nesting_cons, ih]

theorem Signal.encloses_le {most n : Nat} (signal : Signal ν) (le : n ≤ most) :
    signal.encloses n ≤ signal.encloses most := by
  cases signal with
  | step call index step => cases step <;> simp only [Signal.encloses] <;> omega
  | bound | expected | allowed | rejected | broken => exact le

theorem Signal.encloses_le_add {n less missed : Nat} (signal : Signal ν) (le : n ≤ less + missed) :
    signal.encloses n ≤ signal.encloses less + missed := by
  cases signal with
  | step call index step => cases step <;> simp only [Signal.encloses] <;> omega
  | bound | expected | allowed | rejected | broken => exact le

theorem Nested.nesting_eq (nested : Nested history) : nesting history = 0 := by
  have closed : openCalls history = [] := by simpa [openCalls] using nested.balanced []
  have fewer := openCalls_since history
  rw [closed, List.prefix_nil] at fewer
  simp [nesting, fewer]

end Nesting

section Lines

variable [Describe ν]

/-- The line that tells of a step of an activation, if there is one, without its indentation. -/
def Step.line? (call : Call) (index : Nat) : Step ν → Option String
  | .entering => some (call.rule.text ++ " Entering, index: " ++ toString index)
  | .leaving value =>
    some (call.rule.text ++ " Leaving, index: " ++ toString index ++
      (" -> " ++ Describe.describe value))
  | .failed _ => some (call.rule.text ++ " Failed, index: " ++ toString index)
  | .grew => some (call.rule.text ++ " Retrying, was at index: " ++ toString index)
  | .reentered _ => some (call.rule.text ++ " recursive, index: " ++ toString index)
  | .checked true => some (call.rule.text ++ " cache hit, index: " ++ toString index)
  | .checked false | .stored | .withheld => none

def Signal.line? : Signal ν → Option (Nat × String)
  | .step call index taken => (taken.line? call index).map fun line => (index, line)
  | .expected index label =>
    some (index, "index " ++ toString index ++ " unmet expectation: " ++ label)
  | .bound _ | .allowed _ | .rejected _ _ | .broken _ => none

end Lines

namespace Trace

/-- The characters of lines with two spaces before each for every activation around them. -/
def indented (depth : Nat) (lines : List String) : List Char :=
  lines.flatMap fun line => List.replicate (2 * depth) ' ' ++ line.toList ++ ['\n']

theorem indented_append (depth : Nat) (lines more : List String) :
    indented depth (lines ++ more) = indented depth lines ++ indented depth more :=
  List.flatMap_append

/-- Of the lines, so indented, the output has taken the front that it accepts, and all of them if it says
so. -/
def Writes (depth : Nat) (lines : List String) (output : Output) (result : Output × Bool) : Prop :=
  ∃ taken, taken <+: indented depth lines ∧ (result.2 = true ↔ taken = indented depth lines) ∧
    result.1.written = output.written ++ String.ofList taken

theorem Output.accept_append (lines : Nat) (text : List Char) :
    (accept lines text).1 ++ (accept lines text).2.1 = text := by
  induction text generalizing lines with
  | nil => cases lines <;> rfl
  | cons c rest ih =>
    cases lines with
    | zero => rfl
    | succ lines =>
      simp only [accept]
      split <;> simp [ih]

theorem Output.written_write (output : Output) (text : String) :
    ∃ taken refused, taken ++ refused = text.toList ∧
      (output.write text).1.written = output.written ++ String.ofList taken ∧
      ((output.write text).2 = true ↔ refused = []) := by
  cases allowance : output.allowance with
  | none => exact ⟨text.toList, [], by simp [write, allowance]⟩
  | some lines =>
    refine ⟨_, _, accept_append lines text.toList, ?_, ?_⟩ <;> simp [write, allowance]

section Writes

variable {depth : Nat} {lines more : List String} {before middle after : Output}
  {result : Output × Bool}

theorem Writes.nothing (depth : Nat) (output : Output) : Writes depth [] output (output, true) :=
  ⟨[], List.prefix_refl [], by simp [indented], by simp⟩

theorem Writes.of_write {text : String} (whole : text.toList = indented depth lines) (output : Output) :
    Writes depth lines output (output.write text) := by
  obtain ⟨taken, refused, parts, written, all⟩ := output.written_write text
  rw [whole] at parts
  refine ⟨taken, ⟨refused, parts⟩, all.trans ?_, written⟩
  rw [← parts, List.self_eq_append_right]

theorem Writes.trans (first : Writes depth lines before (middle, true))
    (second : Writes depth more middle result) : Writes depth (lines ++ more) before result := by
  obtain ⟨taken, -, all, written⟩ := first
  obtain ⟨others, front, rest, later⟩ := second
  obtain rfl := all.mp rfl
  refine ⟨indented depth lines ++ others, ?_, ?_, ?_⟩
  next =>
    rw [indented_append]
    exact List.prefix_append_right_inj _ |>.mpr front
  next => rw [indented_append, List.append_cancel_left_eq, rest]
  next => rw [later, written, String.ofList_append, String.append_assoc]

theorem Writes.refused (first : Writes depth lines before (after, false)) (more : List String) :
    Writes depth (lines ++ more) before (after, false) := by
  obtain ⟨taken, front, all, written⟩ := first
  have short : taken.length < (indented depth lines).length := by
    refine Nat.lt_of_le_of_ne front.length_le fun same => ?_
    exact absurd (all.mpr (front.eq_of_length same)) Bool.false_ne_true
  rw [Writes, indented_append]
  refine ⟨taken, front.trans (List.prefix_append _ _), ?_, written⟩
  simp only [Bool.false_eq_true, false_iff]
  rintro rfl
  simp only [List.length_append] at short
  omega

end Writes

namespace Writer

variable {writer : Writer}

def shown (writer : Writer) (index : Nat) : List String :=
  let position := Position.lookup writer.lines writer.source index
  ["index " ++ toString index ++ " line " ++ toString position.lineNumber, position.line,
    position.underline {}]

def due (writer : Writer) (index : Nat) : List String :=
  if writer.excerptAt = some index then [] else writer.shown index

theorem excerpt_toList (writer : Writer) (depth index : Nat) :
    (writer.excerpt depth index).toList = indented depth (writer.shown index) := by
  simp [excerpt, indent, shown, indented]

theorem depth_writeExcerpt (writer : Writer) (depth index : Nat) (output : Output) :
    (writer.writeExcerpt depth index output).1.depth = writer.depth := by
  unfold writeExcerpt
  split
  next => rfl
  next => split <;> rfl

theorem writes_writeExcerpt (writer : Writer) (depth index : Nat) (output : Output) :
    Writes depth (writer.due index) output (writer.writeExcerpt depth index output).2 := by
  unfold writeExcerpt due
  split
  next => exact .nothing depth output
  next =>
    have written := Writes.of_write (excerpt_toList writer depth index) output
    split
    next after equal => rwa [equal] at written
    next after equal => rwa [equal] at written

theorem depth_writeLine (writer : Writer) (depth index : Nat) (text : String) (output : Output) :
    (writer.writeLine depth index text output).1.depth = writer.depth := by
  have excerpt := depth_writeExcerpt writer depth index output
  unfold writeLine
  split
  next equal => rwa [equal] at excerpt
  next equal => rwa [equal] at excerpt

theorem writes_writeLine (writer : Writer) (depth index : Nat) (text : String) (output : Output) :
    Writes depth (writer.due index ++ [text]) output (writer.writeLine depth index text output).2 := by
  have written := writes_writeExcerpt writer depth index output
  have line : (indent depth ++ text ++ "\n").toList = indented depth [text] := by
    simp [indent, indented]
  unfold writeLine
  split
  next equal =>
    rw [equal] at written
    exact written.refused [text]
  next middle after equal =>
    rw [equal] at written
    exact written.trans (.of_write line after)

variable [Describe ν]

def hear (writer : Writer) (signal : Signal ν) (output : Output) : Writer × Output × Bool :=
  match signal with
  | .bound source => (.bound source, output, true)
  | .step call index step =>
    match eventOf? call index step with
    | some event => writer.event event output
    | none => (writer, output, true)
  | .expected index label => writer.expectation index label output
  | .allowed _ | .rejected _ _ | .broken _ => (writer, output, true)

/-- The lines with which a writer tells of a signal. -/
def told (writer : Writer) (signal : Signal ν) : List String :=
  match signal.line? with
  | some (index, line) => writer.due index ++ [line]
  | none => []

theorem hear_entering (writer : Writer) (call : Call) (index : Nat) (output : Output) :
    writer.hear (.step (ν := ν) call index .entering) output =
      let line := writer.writeLine writer.depth index
        (call.rule.text ++ " Entering, index: " ++ toString index) output
      (if line.2.2 then { line.1 with depth := line.1.depth + 1 } else line.1, line.2) := by
  let told : Event := { kind := .entering, rule := call.rule, args := call.args, index }
  have opened : writer.hear (.step (ν := ν) call index .entering) output = writer.event told output := rfl
  rw [opened]
  simp only [event, eventText, told]
  split
  next equal => simp only [equal, if_true]
  next equal => simp only [equal, Bool.false_eq_true, if_false]

theorem depth_hear (writer : Writer) (signal : Signal ν) (output : Output) :
    (writer.hear signal output).1.depth =
      if signal.opens && !(writer.hear signal output).2.2 then writer.depth
      else signal.nests writer.depth := by
  cases signal with
  | step call index step =>
    cases step with
    | entering =>
      rw [hear_entering]
      simp only [Signal.opens, Signal.nests]
      split
      next accepted =>
        simp only [accepted, depth_writeLine, Bool.not_true, Bool.and_false, Bool.false_eq_true, if_false]
      next refused =>
        simp only [refused, depth_writeLine, Bool.not_false, Bool.and_true, if_true]
    | leaving value | failed failure => exact depth_writeLine _ _ _ _ _
    | grew | reentered seeded => exact depth_writeLine _ _ _ _ _
    | checked hit => cases hit <;> first | rfl | exact depth_writeLine _ _ _ _ _
    | stored | withheld => rfl
  | expected index label => exact depth_writeLine _ _ _ _ _
  | bound | allowed | rejected | broken => rfl

theorem writes_hear (writer : Writer) (signal : Signal ν) (output : Output) :
    Writes (signal.encloses writer.depth) (writer.told signal) output (writer.hear signal output).2 := by
  cases signal with
  | step call index step =>
    cases step with
    | entering =>
      rw [hear_entering]
      exact writes_writeLine _ _ _ _ _
    | leaving value =>
      -- The activation that is left is not counted any more when its line is written.
      exact writes_writeLine { writer with depth := writer.depth - 1 } _ _ _ _
    | failed failure => exact writes_writeLine { writer with depth := writer.depth - 1 } _ _ _ _
    | grew | reentered seeded => exact writes_writeLine _ _ _ _ _
    | checked hit =>
      cases hit with
      | true => exact writes_writeLine _ _ _ _ _
      | false => exact .nothing _ output
    | stored | withheld => exact .nothing _ output
  | expected index label => exact writes_writeLine _ _ _ _ _
  | bound | allowed | rejected | broken => exact .nothing _ output

/-- What becomes of a writer that is told a history, by the output that it finds when it is told of the
last signal of each part of it. The outputs may refuse in any pattern. -/
def follow (writer : Writer) (outputs : List (Signal ν) → Output) : List (Signal ν) → Writer
  | [] => writer
  | signal :: earlier => ((writer.follow outputs earlier).hear signal (outputs (signal :: earlier))).1

/-- How many activations a writer has lost since a text was bound, because it could not write that they
were entered. -/
def lost (writer : Writer) (outputs : List (Signal ν) → Output) : List (Signal ν) → Nat
  | [] => 0
  | signal :: earlier =>
    let heard := (writer.follow outputs earlier).hear signal (outputs (signal :: earlier))
    if signal.binds then 0
    else if signal.opens && !heard.2.2 then writer.lost outputs earlier + 1
    else writer.lost outputs earlier

theorem follow_counts (rests : writer.depth = 0) (outputs : List (Signal ν) → Output)
    (history : List (Signal ν)) :
    (writer.follow outputs history).depth ≤ nesting history ∧
      nesting history ≤ (writer.follow outputs history).depth + writer.lost outputs history := by
  induction history with
  | nil => simp [follow, lost, rests, nesting, since, openCalls]
  | cons signal earlier ih =>
    obtain ⟨most, least⟩ := ih
    rw [follow, lost, depth_hear, nesting_cons]
    generalize (!((writer.follow outputs earlier).hear signal (outputs (signal :: earlier))).2.2) = refusal
    cases signal with
    | step call index step =>
      cases step with
      | entering =>
        cases refusal with
        | true =>
          simp only [Signal.opens, Signal.nests, Signal.binds, Bool.and_self, Bool.false_eq_true, if_true,
            if_false]
          omega
        | false =>
          simp only [Signal.opens, Signal.nests, Signal.binds, Bool.and_false, Bool.false_eq_true, if_false]
          omega
      | leaving | failed =>
        -- A writer that has lost activations is back at nothing before they have all been left.
        simp only [Signal.opens, Signal.nests, Signal.binds, Bool.false_and, Bool.false_eq_true, if_false]
        omega
      | checked | reentered | grew | stored | withheld => exact ⟨most, least⟩
    | bound source => exact ⟨Nat.le_refl 0, Nat.le_refl 0⟩
    | expected | allowed | rejected | broken => exact ⟨most, least⟩

end Writer

def Observer.writer? : Observer → Option Writer
  | .writer state => some state
  | _ => none

def Hears (see : Observer → Shared → Reaction) (write : Writer → Output → Writer × Output × Bool) : Prop :=
  ∀ observer shared,
    (see observer shared).observer.writer? =
      observer.writer?.map (fun writer => (write writer shared.output).1) ∧
    ∀ writer, observer.writer? = some writer →
      (see observer shared).shared.output = (write writer shared.output).2.1

theorem hears_seeInput (source : Source) :
    Hears (Observer.seeInput source) fun _ output => (.bound source, output, true) := by
  intro observer shared
  cases observer <;> simp [Observer.seeInput, Observer.writer?, Shared.record]

theorem hears_seeEvent (event : Event) :
    Hears (Observer.seeEvent event) fun writer output => writer.event event output := by
  intro observer shared
  cases observer <;> simp [Observer.seeEvent, Observer.writer?, Shared.record, Shared.letWrite]

theorem hears_seeExpectation (index : Nat) (label : String) :
    Hears (Observer.seeExpectation index label) fun writer output =>
      writer.expectation index label output := by
  intro observer shared
  cases observer <;> simp [Observer.seeExpectation, Observer.writer?, Shared.record, Shared.letWrite]

namespace Audience

def writerAt? (audience : Audience) (place : Nat) : Option Writer :=
  audience.observers[place]?.bind Observer.writer?

def before (audience : Audience) (place : Nat) : Audience :=
  { audience with observers := audience.observers.take place }

theorem tellAll_hears {see : Observer → Shared → Reaction}
    {write : Writer → Output → Writer × Output × Bool} (hears : Hears see write)
    (blame : Complaint → Record) (observers : List Observer) (shared : Shared) (place : Nat) :
    let output := (tellAll see blame (observers.take place) shared).2.output
    (tellAll see blame observers shared).1[place]?.bind Observer.writer? =
        (observers[place]?.bind Observer.writer?).map (fun writer => (write writer output).1) ∧
      ∀ writer, observers[place]?.bind Observer.writer? = some writer →
        (tellAll see blame (observers.take (place + 1)) shared).2.output = (write writer output).2.1 := by
  induction observers generalizing shared place with
  | nil => simp [tellAll]
  | cons observer others ih =>
    cases place with
    | zero =>
      obtain ⟨kind, wrote⟩ := hears observer shared
      simp only [List.take_zero, List.take_succ_cons, tellAll]
      cases (see observer shared).complaint with
      | none => exact ⟨kind, wrote⟩
      | some complaint => exact ⟨kind, wrote⟩
    | succ place => exact ih _ place

section Receive

variable [Describe ν] {audience : Audience} {place : Nat} {writer : Writer}

def outputAt (audience : Audience) (place : Nat) (signal : Signal ν) : Output :=
  ((audience.before place).receive signal).shared.output

theorem writerAt?_record? (audience : Audience) (entry : Option Record) :
    (audience.record? entry).writerAt? place = audience.writerAt? place := by
  cases entry <;> rfl

theorem output_record? (audience : Audience) (entry : Option Record) :
    (audience.record? entry).shared.output = audience.shared.output := by
  cases entry <;> rfl

theorem before_record? (audience : Audience) (entry : Option Record) :
    (audience.before place).record? entry = (audience.record? entry).before place := by
  cases entry <;> rfl

theorem receive_writerAt? (audience : Audience) (place : Nat) (signal : Signal ν) :
    (audience.receive signal).writerAt? place =
        (audience.writerAt? place).map (fun writer =>
          (writer.hear signal (audience.outputAt place signal)).1) ∧
      ∀ writer, audience.writerAt? place = some writer →
        audience.outputAt (place + 1) signal =
          (writer.hear signal (audience.outputAt place signal)).2.1 := by
  cases signal with
  | bound source =>
    let entry : Record := .binding source.size
    exact tellAll_hears (hears_seeInput source) .deafOnInput audience.observers
      (audience.shared.record entry) place
  | step call index step =>
    simp only [receive, outputAt, writerAt?_record?, output_record?, before_record?, tellStep_eq]
    rw [← writerAt?_record? audience (recordBefore? call index step)]
    generalize audience.record? (recordBefore? call index step) = asked
    cases told : eventOf? call index step with
    | none => simp [Writer.hear, told, before]
    | some event =>
      simp only [Writer.hear, told]
      exact tellAll_hears (hears_seeEvent event) _ asked.observers asked.shared place
  | expected index label =>
    exact tellAll_hears (hears_seeExpectation index label) _ audience.observers audience.shared place
  | allowed | rejected | broken => simp [receive, outputAt, Writer.hear, before, writerAt?, record]

def found (audience : Audience) (place : Nat) : List (Signal ν) → Output
  | [] => audience.shared.output
  | signal :: earlier => (audience.read earlier).outputAt place signal

theorem read_writerAt? (audience : Audience) (place : Nat) (history : List (Signal ν)) :
    (audience.read history).writerAt? place =
      (audience.writerAt? place).map (fun writer => writer.follow (audience.found place) history) := by
  induction history with
  | nil => exact Option.map_id'.symm
  | cons signal earlier ih =>
    obtain ⟨told, -⟩ := (audience.read earlier).receive_writerAt? place signal
    rw [ih, Option.map_map] at told
    exact told

def Rests (audience : Audience) : Prop :=
  ∀ place writer, audience.writerAt? place = some writer → writer.depth = 0

theorem Rests.register (rests : audience.Rests) (observer : Observer) (source : Source) :
    (audience.register observer source).Rests := by
  intro place writer present
  have joins := (hears_seeInput source observer audience.shared).1
  simp only [Audience.register, writerAt?, tellAll] at present
  by_cases earlier : place < audience.observers.length
  next =>
    rw [List.getElem?_append_left earlier] at present
    exact rests place writer present
  next =>
    rw [List.getElem?_append_right (by omega)] at present
    cases last : place - audience.observers.length with
    | zero =>
      simp only [last, List.getElem?_cons_zero, Option.bind_some, joins, Option.map_eq_some_iff] at present
      obtain ⟨_, _, rfl⟩ := present
      rfl
    | succ n => simp [last] at present

end Receive

end Audience

end Trace

namespace Grammar

open Trace (Writer Writes)

theorem nested_noted (grammar : Grammar) {session : Session Stored} (request : Request)
    (handed : session.machine.journal = []) : Nested (noted grammar session request) := by
  have silent : Nested session.machine.journal := handed.symm ▸ Nested.nil
  cases request with
  | run term =>
    obtain ⟨added, same, nested⟩ :=
      (Term.chronicles grammar requestBudget [] term session.machine).journal
    rw [noted, Grammar.parser, same, handed, List.append_nil]
    exact nested
  | parse term =>
    obtain ⟨added, same, nested⟩ := (chronicled_parse grammar term session.machine).journal
    rw [noted, same, handed, List.append_nil]
    exact nested
  | _ => exact silent

theorem nested_chronicle (grammar : Grammar) {session : Session Stored} (requests : List Request)
    (handed : session.machine.journal = []) : Nested (chronicle grammar session requests) := by
  induction requests generalizing session with
  | nil => exact .nil
  | cons request rest ih =>
    exact (ih (journal_enter grammar request handed)).append (nested_noted grammar request handed)

theorem audience_answer (grammar : Grammar) (session : Session Stored) {request : Request} {term : Term}
    (runs : request = .run term ∨ request = .parse term) :
    (answer grammar session request).2.audience =
      session.audience.read (noted grammar session request) := by
  rcases runs with rfl | rfl
  next => simp only [answer, run_eq, Session.publish, noted]
  next => simp only [answer, parse_eq, Session.publish, noted]

theorem rests_enter (grammar : Grammar) {session : Session Stored} (request : Request)
    (handed : session.machine.journal = []) (rests : session.audience.Rests) :
    (enter grammar session request).2.audience.Rests := by
  have told : (session.audience.read (noted grammar session request)).Rests := by
    intro place writer present
    rw [session.audience.read_writerAt?] at present
    obtain ⟨first, former, rfl⟩ := Option.map_eq_some_iff.mp present
    have counts := first.follow_counts (rests place first former) (session.audience.found place)
      (noted grammar session request)
    rw [(nested_noted grammar request handed).nesting_eq] at counts
    exact Nat.le_zero.mp counts.1
  cases request with
  | run term =>
    simp only [enter, answer, run_eq]
    exact told
  | parse term =>
    simp only [enter, answer, parse_eq]
    exact told
  | observe observer => exact rests.register observer session.machine.source
  | _ => exact rests

theorem rests_enterAll (grammar : Grammar) {session : Session Stored} (requests : List Request)
    (handed : session.machine.journal = []) (rests : session.audience.Rests) :
    (enterAll grammar session requests).2.audience.Rests := by
  induction requests generalizing session with
  | nil => exact rests
  | cons request rest ih =>
    exact ih (journal_enter grammar request handed) (rests_enter grammar request handed rests)

/-- A writer that is registered outside any rule counts the activations that have been entered and not
been left since the text was bound, and misses none but those whose entering it could not write. Between
requests it counts none, and a request that runs a term tells the audience what is noted of the run. After
a writer has been told of any signal of it, whatever its output refuses, it counts no more activations than
there are, and is short of them by no more than it has lost in this request since the text was bound. What
it has written of the signal is the front of the lines that tell of it, each after two spaces for every
activation around it that it counted, and all of these lines if nothing was refused. So do the writers of
an audience, each of which finds the output as those before it have left it. -/
theorem writer_follows_nesting (grammar : Grammar) (source : Source) (config : Config)
    (requests : List Request) (request : Request) :
    let session := (enterAll grammar (.start source config) requests).2
    let audience := session.audience
    let past := chronicle grammar (.start source config) requests
    ∀ place writer, audience.writerAt? place = some writer →
      writer.depth = 0 ∧
      (∀ term, request = .run term ∨ request = .parse term →
        (answer grammar session request).2.audience = audience.read (noted grammar session request)) ∧
      (∀ journal : List (Signal Stored),
        (audience.read journal).writerAt? place = some (writer.follow (audience.found place) journal)) ∧
      (∀ (signal : Signal Stored) older,
        let output := audience.found place (signal :: older)
        let heard := (writer.follow (audience.found place) older).hear signal output
        audience.found (place + 1) (signal :: older) = heard.2.1) ∧
      ∀ outputs newer signal older, noted grammar session request = newer ++ signal :: older →
        let output := outputs (signal :: older)
        let former := writer.follow outputs older
        let heard := former.hear signal output
        let around := signal.encloses former.depth
        heard.1.depth ≤ nesting (signal :: older ++ past) ∧
        nesting (signal :: older ++ past) ≤ heard.1.depth + writer.lost outputs (signal :: older) ∧
        Writes around (former.told signal) output heard.2 ∧
        around ≤ signal.encloses (nesting (older ++ past)) ∧
        signal.encloses (nesting (older ++ past)) ≤ around + writer.lost outputs older := by
  intro session audience past place writer present
  have rests : audience.Rests := rests_enterAll grammar requests rfl fun _ _ present => nomatch present
  have closed : nesting past = 0 := (nested_chronicle grammar requests rfl).nesting_eq
  have idle : writer.depth = 0 := rests place writer present
  have follows (journal : List (Signal Stored)) :
      (audience.read journal).writerAt? place = some (writer.follow (audience.found place) journal) := by
    rw [audience.read_writerAt?, present, Option.map_some]
  refine ⟨idle, fun term => audience_answer grammar session, follows, ?_, ?_⟩
  next =>
    intro signal older
    exact ((audience.read older).receive_writerAt? place signal).2 _ (follows older)
  next =>
    intro outputs newer signal older _ output former heard around
    obtain ⟨most, least⟩ := writer.follow_counts idle outputs (signal :: older)
    obtain ⟨mostBefore, leastBefore⟩ := writer.follow_counts idle outputs older
    rw [nesting_append closed, nesting_append closed]
    exact ⟨most, least, former.writes_hear signal output, signal.encloses_le mostBefore,
      signal.encloses_le_add leastBefore⟩

theorem writer_follows_nesting_sums :
    let requests : List Request := [.observe (.writer {})]
    let request : Request := .parse (.call .plain "sum" [])
    let session := (enterAll sums (.start (.ofString "1")) requests).2
    let outputs := session.audience.found 0
    let journal := noted sums session request
    ∃ writer older, session.audience.writerAt? 0 = some writer ∧
      journal.drop 13 = .expected 1 "digit" :: older ∧
      (writer.follow outputs (.expected (ν := Stored) 1 "digit" :: older)).depth = 2 ∧
      Writes 2 ["index 1 line 1", "1", " ^", "index 1 unmet expectation: digit"]
        (outputs (.expected 1 "digit" :: older))
        ((writer.follow outputs older).hear (.expected (ν := Stored) 1 "digit")
          (outputs (.expected 1 "digit" :: older))).2 := by
  intro requests request session outputs journal
  let past := chronicle sums (.start (.ofString "1")) requests
  have losing : (session.audience.writerAt? 0).map (fun writer =>
      (writer.lost outputs (journal.drop 13), writer.lost outputs (journal.drop 14),
        (writer.follow outputs (journal.drop 14)).told (.expected (ν := Stored) 1 "digit"))) =
      some (0, 0, ["index 1 line 1", "1", " ^", "index 1 unmet expectation: digit"]) := by
    decide +kernel
  have expecting : (journal.drop 13).head?.bind Signal.expectation? = some (1, "digit") := by
    decide +kernel
  have entered : nesting (journal.drop 13 ++ past) = 2 ∧ nesting (journal.drop 14 ++ past) = 2 := by
    decide +kernel
  obtain ⟨writer, present, kept⟩ := Option.map_eq_some_iff.mp losing
  obtain ⟨signal, told, expects⟩ := Option.bind_eq_some_iff.mp expecting
  obtain rfl : signal = .expected 1 "digit" := by
    cases signal <;> simp_all [Signal.expectation?]
  obtain ⟨older, rest⟩ := List.head?_eq_some_iff.mp told
  have tail : journal.drop 14 = older := by rw [← List.tail_drop, rest, List.tail_cons]
  have split : journal = journal.take 13 ++ .expected 1 "digit" :: older := by
    rw [← rest, List.take_append_drop]
  obtain ⟨-, -, -, -, counts⟩ :=
    writer_follows_nesting sums (.ofString "1") {} requests request 0 writer present
  obtain ⟨most, least, writes, within, short⟩ := counts outputs _ (.expected 1 "digit") older split
  rw [rest, tail] at kept entered
  obtain ⟨lostNone, lostBefore, lines⟩ := by simpa only [Prod.mk.injEq] using kept
  rw [entered.1, lostNone] at least
  rw [entered.1] at most
  rw [lostBefore] at short
  have around : (writer.follow outputs older).depth = 2 :=
    Nat.le_antisymm (within.trans_eq entered.2) (entered.2.symm.trans_le short)
  simp only [Signal.encloses, around, lines] at writes
  exact ⟨writer, older, present, rest, Nat.le_antisymm most least, writes⟩

def muffled : Grammar where
  definitions :=
    [("R",
      { rule := { name := { grammar := "muffled", rule := "R" } }
        body := .sequence [.allow none, .register "z"] })]

theorem refused_entering_is_lost :
    let session := (enterAll muffled (.start (.ofString "x")) [.observe (.writer {})]).2
    let request : Request := .run (.sequence [.allow (some 0), .call .plain "R" []])
    let journal := noted muffled session request
    let older := journal.drop 5
    (journal.all fun signal => !signal.binds) = true ∧ nesting older = 1 ∧
    ((session.audience.read older).writerAt? 0).map Writer.depth = some 0 ∧
    (enter muffled session request).2.audience.shared.output.written =
      "index 0 line 1\nx\n^\nindex 0 unmet expectation: z\n" ++
        "muffled::R Leaving, index: 0 -> [null,null]\n" := by
  intro session request journal older
  decide +kernel

end Grammar

end Packrat
