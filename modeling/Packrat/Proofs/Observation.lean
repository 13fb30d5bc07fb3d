import Packrat.Proofs.Logging
import Packrat.Proofs.Transparency

set_option autoImplicit false

namespace Packrat

namespace Grammar

open Packrat.Parser
open Trace.Audience (logbook logbook_read logbook_register writeEach)

/-- The request is answered from the machine, and not from what observers have written. -/
def Request.computes : Request → Bool
  | .run _ | .parse _ | .readCounters | .readConfig => true
  | _ => false

/-- The request has to do with what is in the log of a handle: it runs a term, registers an observer that
writes into the log, or clears it. -/
def Request.logs (handle : Nat) : Request → Bool
  | .run _ | .parse _ => true
  | .observe observer => observer.logs handle
  | .clearLog own => own = handle
  | _ => false

/-- The replies to the requests of a kind, each with a view of the session after it. -/
def transcript {β : Type} (grammar : Grammar) (view : Session Stored → β) (kind : Request → Bool) :
    Session Stored → List Request → List (Reply × β)
  | _, [] => []
  | session, request :: rest =>
    let entered := enter grammar session request
    let others := transcript grammar view kind entered.2 rest
    if kind request then (entered.1.reply, view entered.2) :: others else others

section Views

variable {β : Type} {grammar : Grammar} {view : Session Stored → β} {kind : Request → Bool}

structure Decides (grammar : Grammar) (view : Session Stored → β) (kind : Request → Bool) : Prop where
  same : ∀ {first second request}, view first = view second → kind request = true →
    (enter grammar first request).1.reply = (enter grammar second request).1.reply ∧
      view (enter grammar first request).2 = view (enter grammar second request).2
  skip : ∀ {session request}, kind request = false →
    view (enter grammar session request).2 = view session

namespace Decides

variable (decides : Decides grammar view kind)

include decides

theorem of_filter {first second : Session Stored} (alike : view first = view second)
    (requests : List Request) :
    transcript grammar view kind first requests =
        transcript grammar view kind second (requests.filter kind) ∧
      view (enterAll grammar first requests).2 =
        view (enterAll grammar second (requests.filter kind)).2 := by
  induction requests generalizing first second with
  | nil => exact ⟨rfl, alike⟩
  | cons request rest ih =>
    cases heard : kind request with
    | false =>
      have others := ih ((decides.skip heard).trans alike)
      simpa [transcript, enterAll, heard] using others
    | true =>
      obtain ⟨reply, after⟩ := decides.same alike heard
      obtain ⟨replies, last⟩ := ih after
      rw [List.filter_cons_of_pos heard]
      refine ⟨?_, last⟩
      simp only [transcript, heard, if_true, reply, after, replies]

theorem agree {first second : Session Stored} (alike : view first = view second)
    {requests others : List Request} (same : requests.filter kind = others.filter kind) :
    transcript grammar view kind first requests = transcript grammar view kind second others ∧
      view (enterAll grammar first requests).2 = view (enterAll grammar second others).2 := by
  obtain ⟨left, leftLast⟩ := decides.of_filter alike requests
  obtain ⟨right, rightLast⟩ := decides.of_filter (rfl : view second = view second) others
  rw [left, leftLast, same]
  exact ⟨right.symm, rightLast.symm⟩

end Decides

end Views

theorem decides_machine (grammar : Grammar) :
    Decides grammar Session.machine Request.computes where
  same {first second request} alike computes := by
    obtain ⟨machine, audience⟩ := first
    obtain ⟨_, other⟩ := second
    obtain rfl : machine = _ := alike
    cases request <;> simp only [Request.computes, Bool.false_eq_true] at computes
    case run term =>
      simp only [enter, answer, run_eq, true_and]
      rfl
    case parse term =>
      simp only [enter, answer, parse_eq, true_and]
      rfl
    all_goals exact ⟨rfl, rfl⟩
  skip {session request} other := by
    cases request <;> simp only [Request.computes, Bool.true_eq_false] at other <;> rfl

def logged (handle : Nat) (session : Session Stored) : Machine Stored × Trace.Log × Nat :=
  (session.machine, session.audience.logbook handle)

theorem decides_logged (grammar : Grammar) (handle : Nat) :
    Decides grammar (logged handle) (Request.logs handle) where
  same {first second request} alike concerns := by
    obtain ⟨machine, audience⟩ := first
    obtain ⟨_, other⟩ := second
    obtain ⟨rfl, book⟩ := Prod.mk.inj alike
    have read (journal : List (Signal Stored)) :
        (audience.read journal).logbook handle = (other.read journal).logbook handle := by
      rw [logbook_read, logbook_read, book]
    cases request <;> simp only [Request.logs, Bool.false_eq_true] at concerns
    case run term =>
      simp only [enter, answer, run_eq, true_and]
      exact congrArg (Prod.mk _) (read (Ending.machine (grammar.parser term machine)).journal)
    case parse term =>
      simp only [enter, answer, parse_eq, true_and]
      exact congrArg (Prod.mk _) (read ((grammar.parser term).parse machine).2.journal)
    case observe observer =>
      have joined : (audience.register observer machine.source).logbook handle =
          (other.register observer machine.source).logbook handle := by
        simp only [logbook_register, concerns, if_true]
        exact congrArg (fun book => (book.1.addInput, book.2 + 1)) book
      exact ⟨rfl, congrArg (Prod.mk _) joined⟩
    case clearLog own =>
      obtain rfl : own = handle := by simpa using concerns
      have cleared (audience : Trace.Audience) :
          (Session.clearLog ⟨machine, audience⟩ own).audience.logbook own =
            ((audience.logbook own).1.clear, (audience.logbook own).2) :=
        congrArg (fun log => (log, _))
          ((Trace.Shared.log_letLog own own Trace.Log.clear audience.shared).trans (if_pos rfl))
      refine ⟨rfl, congrArg (Prod.mk machine) ?_⟩
      exact (cleared audience).trans (book ▸ (cleared other).symm)
  skip {session request} other := by
    cases request <;> simp only [Request.logs, Bool.true_eq_false] at other
    case observe observer =>
      have joined := logbook_register session.audience observer session.machine.source handle
      simp only [other, Bool.false_eq_true, if_false] at joined
      exact congrArg (Prod.mk _) joined
    case clearLog own =>
      have different : own ≠ handle := by simpa using other
      have same := Trace.Shared.log_letLog own handle Trace.Log.clear session.audience.shared
      rw [if_neg different] at same
      exact congrArg (fun log => (_, log, _)) same
    all_goals rfl

/-- Observers do not interfere. Whoever is registered in a session and whenever, the terms that are run
give the same replies and leave the same machine, with its cursor, memo table and frames. And a log holds
the same if its own observers are registered at the same steps, whoever else observes before them or
after them, into other logs too, and however often the others complain. -/
theorem observers_do_not_interfere (grammar : Grammar) (source : Source) (config : Config)
    (requests others : List Request) :
    let session := Session.start source config
    (requests.filter Request.computes = others.filter Request.computes →
      transcript grammar Session.machine Request.computes session requests =
        transcript grammar Session.machine Request.computes session others) ∧
    ∀ handle, requests.filter (Request.logs handle) = others.filter (Request.logs handle) →
      (enterAll grammar session requests).2.log handle =
        (enterAll grammar session others).2.log handle := by
  intro session
  refine ⟨fun same => ((decides_machine grammar).agree rfl same).1, fun handle same => ?_⟩
  obtain ⟨_, last⟩ := (decides_logged grammar handle).agree (rfl : logged handle session = _) same
  exact congrArg (fun view => view.2.1) last

def complains : Trace.Record → Bool
  | .deafOnEvent _ _ _ => true
  | _ => false

theorem observers_do_not_interfere_crowded :
    let sum : Term := .call .plain "sum" []
    let session : Session Stored := .start (.ofString "1")
    let requests : List Request :=
      [.observe (.log 1), .observe .rejecting, .run (.allow (some 0)), .observe .log,
        .observe (.writer {}), .parse sum, .takeWritten, .readLog 1]
    let others : List Request :=
      [.run (.allow (some 0)), .observe .log, .parse sum, .observe (.log 1)]
    requests.filter Request.computes = others.filter Request.computes ∧
    transcript sums Session.machine Request.computes session requests =
      transcript sums Session.machine Request.computes session others ∧
    requests.filter (Request.logs 0) = others.filter (Request.logs 0) ∧
    (enterAll sums session requests).2.log = (enterAll sums session others).2.log ∧
    (enterAll sums session requests).2.log.events.size = 20 ∧
    (enterAll sums session requests).2.log 1 ≠ (enterAll sums session others).2.log 1 ∧
    ((enterAll sums session requests).1.flatMap fun entry => entry.records.toList).countP complains =
      34 := by
  intro sum session requests others
  obtain ⟨results, logs⟩ := observers_do_not_interfere sums (.ofString "1") {} requests others
  have seen : ((enterAll sums session requests).2.log.events.size,
      ((enterAll sums session requests).2.log 1).events.size,
      ((enterAll sums session others).2.log 1).events.size) = (20, 20, 0) := by
    decide +kernel
  obtain ⟨size, events, nothing⟩ := by simpa only [Prod.mk.injEq] using seen
  have other : (enterAll sums session requests).2.log 1 ≠ (enterAll sums session others).2.log 1 := by
    intro same
    rw [same, nothing] at events
    cases events
  exact ⟨rfl, results rfl, rfl, logs 0 rfl, size, other, by decide +kernel⟩

end Grammar

end Packrat
