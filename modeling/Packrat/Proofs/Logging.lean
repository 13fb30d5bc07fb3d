import Mathlib.Logic.Function.Iterate
import Packrat.Proofs.Rebinding

set_option autoImplicit false

namespace Packrat

variable {ν : Type}

section Events

variable [Describe ν]

def Signal.event? : Signal ν → Option Trace.Event
  | .step call index taken => Trace.eventOf? call index taken
  | _ => none

def events (history : List (Signal ν)) : List Trace.Event :=
  (history.filterMap Signal.event?).reverse

theorem events_append (added history : List (Signal ν)) :
    events (added ++ history) = events history ++ events added := by
  simp [events]

theorem events_cons (signal : Signal ν) (history : List (Signal ν)) :
    events (signal :: history) = events history ++ signal.event?.toList := by
  cases event : signal.event? <;> simp [events, event]

end Events

def Signal.expectation? : Signal ν → Option (Nat × String)
  | .expected index label => some (index, label)
  | _ => none

def expectations (history : List (Signal ν)) : List (Nat × String) :=
  (history.filterMap Signal.expectation?).reverse

theorem expectations_append (added history : List (Signal ν)) :
    expectations (added ++ history) = expectations history ++ expectations added := by
  simp [expectations]

namespace Trace

def Observer.logs (observer : Observer) (handle : Nat := 0) : Bool :=
  match observer with
  | .log own => own = handle
  | _ => false

def Log.note [Describe ν] (log : Log) : Signal ν → Log
  | .bound _ => log.addInput
  | .step call index step => ((eventOf? call index step).map log.addEvent).getD log
  | .expected index label => log.addExpectation index label
  | .allowed _ | .rejected _ _ | .broken _ => log

/-- An observer that is told something writes this into the log of its handle if it logs, and leaves all
other logs alone. -/
def Notes (see : Observer → Shared → Reaction) (write : Log → Log) : Prop :=
  ∀ handle observer shared, (see observer shared).observer.logs handle = observer.logs handle ∧
    (see observer shared).shared.log handle =
      if observer.logs handle then write (shared.log handle) else shared.log handle

theorem notes_seeInput (source : Source) : Notes (Observer.seeInput source) Log.addInput := by
  intro handle observer shared
  cases observer
  case log own => simp [Observer.seeInput, Observer.logs, Shared.log_letLog]
  all_goals exact ⟨rfl, rfl⟩

theorem notes_seeEvent (event : Event) :
    Notes (Observer.seeEvent event) fun log => log.addEvent event := by
  intro handle observer shared
  cases observer
  case log own => simp [Observer.seeEvent, Observer.logs, Shared.log_letLog]
  all_goals exact ⟨rfl, rfl⟩

theorem notes_seeExpectation (index : Nat) (label : String) :
    Notes (Observer.seeExpectation index label) fun log => log.addExpectation index label := by
  intro handle observer shared
  cases observer
  case log own => simp [Observer.seeExpectation, Observer.logs, Shared.log_letLog]
  all_goals exact ⟨rfl, rfl⟩

namespace Audience

def loggers (observers : List Observer) (handle : Nat := 0) : Nat :=
  (observers.map fun observer => observer.logs handle).count true

def logbook (audience : Audience) (handle : Nat := 0) : Log × Nat :=
  (audience.shared.log handle, loggers audience.observers handle)

def writeEach (write : Log → Log) (book : Log × Nat) : Log × Nat :=
  (write^[book.2] book.1, book.2)

theorem log_tellAll_notes {see : Observer → Shared → Reaction} {write : Log → Log}
    (notes : Notes see write) (blame : Complaint → Record) (observers : List Observer)
    (shared : Shared) (handle : Nat) :
    loggers (tellAll see blame observers shared).1 handle = loggers observers handle ∧
    (tellAll see blame observers shared).2.log handle =
      write^[loggers observers handle] (shared.log handle) := by
  induction observers generalizing shared with
  | nil => exact ⟨rfl, rfl⟩
  | cons observer others ih =>
    obtain ⟨kind, log⟩ := notes handle observer shared
    -- A complaint is recorded, and the log stays as the observer left it.
    have rest (left : Shared) (same : left.log handle = (see observer shared).shared.log handle) :
        loggers ((see observer shared).observer :: (tellAll see blame others left).1) handle =
            loggers (observer :: others) handle ∧
          (tellAll see blame others left).2.log handle =
            write^[loggers (observer :: others) handle] (shared.log handle) := by
      obtain ⟨count, later⟩ := ih left
      simp only [loggers] at count later
      cases logs : observer.logs handle <;> simp [loggers, count, later, kind, same, log, logs]
    simp only [tellAll]
    cases (see observer shared).complaint with
    | none => exact rest _ rfl
    | some complaint => exact rest _ rfl

theorem logbook_tell {see : Observer → Shared → Reaction} {write : Log → Log} (notes : Notes see write)
    (blame : Complaint → Record) (audience : Audience) (handle : Nat) :
    (audience.tell see blame).logbook handle = writeEach write (audience.logbook handle) := by
  obtain ⟨count, log⟩ := log_tellAll_notes notes blame audience.observers audience.shared handle
  simp only [logbook, tell, writeEach, count, log]

theorem logbook_record? (audience : Audience) (entry : Option Record) (handle : Nat) :
    (audience.record? entry).logbook handle = audience.logbook handle := by
  cases entry <;> rfl

variable [Describe ν]

theorem tellStep_eq (call : Call) (index : Nat) (step : Step ν) (audience : Audience) :
    audience.tellStep call index step =
      match eventOf? call index step with
      | some event => audience.tell (Observer.seeEvent event) (.deafOnEvent event.rule event.kind)
      | none => audience := by
  obtain ⟨observers, shared⟩ := audience
  unfold tellStep
  cases observers with
  | nil => cases eventOf? call index step <;> rfl
  | cons => rfl

theorem writeEach_id (book : Log × Nat) : writeEach id book = book := by
  simp [writeEach]

theorem logbook_receive (audience : Audience) (signal : Signal ν) (handle : Nat) :
    (audience.receive signal).logbook handle =
      writeEach (fun log => log.note signal) (audience.logbook handle) := by
  cases signal with
  | bound source => exact logbook_tell (notes_seeInput source) _ (audience.record _) handle
  | step call index step =>
    simp only [receive, logbook_record?]
    have before := audience.logbook_record? (recordBefore? call index step) handle
    rw [← before]
    generalize audience.record? (recordBefore? call index step) = asked
    rw [tellStep_eq]
    cases event : eventOf? call index step with
    | none =>
      simp only [Log.note, event]
      exact (writeEach_id _).symm
    | some event' =>
      simp only [Log.note, event, Option.map_some, Option.getD_some]
      exact logbook_tell (notes_seeEvent event') _ asked handle
  | expected index label => exact logbook_tell (notes_seeExpectation index label) _ audience handle
  | allowed | rejected | broken => exact (writeEach_id _).symm

theorem logbook_read (audience : Audience) (journal : List (Signal ν)) (handle : Nat) :
    (audience.read journal).logbook handle =
      journal.foldr (fun signal => writeEach fun log => log.note signal) (audience.logbook handle) := by
  induction journal with
  | nil => rfl
  | cons signal earlier ih =>
    rw [List.foldr_cons, ← ih]
    exact logbook_receive _ signal handle

theorem logbook_register (audience : Audience) (observer : Observer) (source : Source) (handle : Nat) :
    (audience.register observer source).logbook handle =
      if observer.logs handle then
        ((audience.shared.log handle).addInput, loggers audience.observers handle + 1)
      else audience.logbook handle := by
  obtain ⟨count, log⟩ :=
    log_tellAll_notes (notes_seeInput source) .deafOnRegistration [observer] audience.shared handle
  simp only [loggers] at count
  cases logs : observer.logs handle <;>
    simp [logbook, register, loggers, log, count, logs]

/-- Exactly one of the observers logs, and the log holds the events. -/
structure Holds (audience : Audience) (events : List Event) : Prop where
  alone : loggers audience.observers = 1
  log : audience.shared.log.events.toList = events

theorem events_note (log : Log) (signal : Signal ν) :
    (log.note signal).events.toList = log.events.toList ++ signal.event?.toList := by
  cases signal with
  | step call index step =>
    cases event : eventOf? call index step <;> simp [Log.note, Signal.event?, event, Log.addEvent]
  | bound | expected | allowed | rejected | broken =>
    simp [Log.note, Signal.event?, Log.addInput, Log.addExpectation]

theorem expectations_note (log : Log) (signal : Signal ν) :
    (log.note signal).expectations.toList =
      log.expectations.toList ++ signal.expectation?.toList := by
  cases signal with
  | step call index step =>
    cases event : eventOf? call index step <;>
      simp [Log.note, Signal.expectation?, event, Log.addEvent]
  | bound | expected | allowed | rejected | broken =>
    simp [Log.note, Signal.expectation?, Log.addInput, Log.addExpectation]

theorem notes_of_note {β : Type} {view : Log → List β} {told : Signal ν → Option β}
    (note : ∀ log signal, view (log.note signal) = view log ++ (told signal).toList) (log : Log)
    (journal : List (Signal ν)) :
    view (journal.foldr (fun signal log => log.note signal) log) =
      view log ++ (journal.filterMap told).reverse := by
  induction journal with
  | nil => simp
  | cons signal earlier ih =>
    rw [List.foldr_cons, note, ih]
    cases entry : told signal <;> simp [entry]

theorem events_notes (log : Log) (journal : List (Signal ν)) :
    (journal.foldr (fun signal log => log.note signal) log).events.toList =
      log.events.toList ++ Packrat.events journal :=
  @notes_of_note _ _ _ (fun log => log.events.toList) _ events_note log journal

theorem expectations_notes (log : Log) (journal : List (Signal ν)) :
    (journal.foldr (fun signal log => log.note signal) log).expectations.toList =
      log.expectations.toList ++ Packrat.expectations journal :=
  @notes_of_note _ _ _ (fun log => log.expectations.toList) _ expectations_note log journal

theorem logbook_read_alone {audience : Audience} {handle : Nat}
    (alone : loggers audience.observers handle = 1) (journal : List (Signal ν)) :
    (audience.read journal).logbook handle =
      (journal.foldr (fun signal log => log.note signal) (audience.shared.log handle), 1) := by
  rw [logbook_read]
  induction journal with
  | nil => rw [List.foldr_nil, logbook, alone, List.foldr_nil]
  | cons signal earlier ih => rw [List.foldr_cons, ih, writeEach, Function.iterate_one, List.foldr_cons]

namespace Holds

variable {audience : Audience} {events : List Event}

theorem read (holds : audience.Holds events) (journal : List (Signal ν)) :
    (audience.read journal).Holds (events ++ Packrat.events journal) := by
  have book := logbook_read_alone holds.alone journal
  have log : (audience.read journal).shared.log =
      journal.foldr (fun signal log => log.note signal) audience.shared.log := congrArg Prod.fst book
  exact ⟨congrArg Prod.snd book, by rw [log, events_notes, holds.log]⟩

theorem register (holds : audience.Holds events) {observer : Observer} (other : observer.logs = false)
    (source : Source) : (audience.register observer source).Holds events := by
  have book := logbook_register audience observer source 0
  simp only [other, Bool.false_eq_true, if_false] at book
  have log : (audience.register observer source).shared.log = audience.shared.log :=
    congrArg Prod.fst book
  exact ⟨(congrArg Prod.snd book).trans holds.alone, by rw [log, holds.log]⟩

end Holds

end Audience

end Trace

namespace Grammar

open Trace (Event)

/-- The request neither clears the first log nor has everything logged there twice. -/
def Request.keepsLog : Request → Bool
  | .observe observer => !observer.logs
  | .clearLog handle => handle ≠ 0
  | _ => true

theorem holds_enter (grammar : Grammar) {session : Session Stored} {request : Request}
    (keeps : request.keepsLog = true) {earlier : List Event} (holds : session.audience.Holds earlier)
    (handed : session.machine.journal = []) :
    (enter grammar session request).2.audience.Holds
      (earlier ++ events (noted grammar session request)) := by
  have nothing (quiet : session.audience.Holds earlier) :
      session.audience.Holds (earlier ++ events session.machine.journal) := by
    simpa [handed, events] using quiet
  cases request with
  | run term =>
    have told := holds.read (Ending.machine (grammar.parser term session.machine)).journal
    simp only [enter, answer, run_eq]
    exact ⟨told.alone, told.log⟩
  | parse term =>
    have told := holds.read ((grammar.parser term).parse session.machine).2.journal
    simp only [enter, answer, parse_eq]
    exact ⟨told.alone, told.log⟩
  | observe observer =>
    have other : observer.logs = false := by simpa [Request.keepsLog] using keeps
    have told := nothing holds
    have after := told.register other session.machine.source
    exact ⟨after.alone, after.log⟩
  | clearLog handle =>
    have other : handle ≠ 0 := by simpa [Request.keepsLog] using keeps
    have told := nothing holds
    have same : (session.clearLog handle).log = session.log :=
      (Trace.Shared.log_letLog handle 0 Trace.Log.clear session.audience.shared).trans (if_neg other)
    exact ⟨told.alone, (congrArg (fun log => log.events.toList) same).trans told.log⟩
  | _ => exact ⟨(nothing holds).alone, (nothing holds).log⟩

theorem journal_enter (grammar : Grammar) {session : Session Stored} (request : Request)
    (handed : session.machine.journal = []) : (enter grammar session request).2.machine.journal = [] := by
  cases request with
  | run term =>
    simp only [enter, answer, run_eq]
    rfl
  | parse term =>
    simp only [enter, answer, parse_eq]
    rfl
  | _ => exact handed

theorem holds_enterAll (grammar : Grammar) {session : Session Stored} {requests : List Request}
    (keeps : ∀ request ∈ requests, request.keepsLog = true) {earlier : List Event}
    (holds : session.audience.Holds earlier) (handed : session.machine.journal = []) :
    (enterAll grammar session requests).2.audience.Holds
      (earlier ++ events (chronicle grammar session requests)) := by
  induction requests generalizing session earlier with
  | nil => simpa [enterAll, chronicle, events] using holds
  | cons request rest ih =>
    have after := holds_enter grammar (keeps request List.mem_cons_self) holds handed
    rw [chronicle, events_append, ← List.append_assoc]
    exact ih (fun other member => keeps other (List.mem_cons_of_mem _ member)) after
      (journal_enter grammar request handed)

theorem journal_enterAll (grammar : Grammar) {session : Session Stored} (requests : List Request)
    (handed : session.machine.journal = []) :
    (enterAll grammar session requests).2.machine.journal = [] := by
  induction requests generalizing session with
  | nil => exact handed
  | cons request rest ih => exact ih (journal_enter grammar request handed)

theorem log_eq_events (grammar : Grammar) (source : Source) (config : Config) {requests : List Request}
    (keeps : ∀ request ∈ requests, request.keepsLog = true) :
    let session := (Session.start source config).observe .log
    (enterAll grammar session requests).2.log.events.toList =
      events (chronicle grammar session requests) := by
  intro session
  have listening : session.audience.Holds [] := ⟨rfl, rfl⟩
  simpa [Session.log] using (holds_enterAll grammar keeps listening rfl).log

end Grammar

end Packrat
