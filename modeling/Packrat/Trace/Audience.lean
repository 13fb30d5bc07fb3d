import Packrat.Trace.Observer

set_option autoImplicit false

namespace Packrat.Trace

structure Audience where
  observers : List Observer := []
  shared : Shared := {}

namespace Audience

def record (audience : Audience) (entry : Record) : Audience :=
  { audience with shared := audience.shared.record entry }

/-- Tells one observer after another, each with what the earlier ones left in common. -/
def tellAll (see : Observer → Shared → Reaction) (blame : Complaint → Record) :
    List Observer → Shared → List Observer × Shared
  | [], shared => ([], shared)
  | observer :: others, shared =>
    let reaction := see observer shared
    let shared :=
      match reaction.complaint with
      | none => reaction.shared
      | some complaint => reaction.shared.record (blame complaint)
    let told := tellAll see blame others shared
    (reaction.observer :: told.1, told.2)

def tell (see : Observer → Shared → Reaction) (blame : Complaint → Record)
    (audience : Audience) : Audience :=
  let told := tellAll see blame audience.observers audience.shared
  { observers := told.1, shared := told.2 }

def recordBefore? {ν : Type} (call : Call) (index : Nat) : Step ν → Option Record
  | .entering => some (.entering call)
  | .reentered seeded => some (.recursion call seeded)
  | .grew => some (.seedGrew call index)
  | .withheld => some (.withheld call)
  | .leaving _ => some (.leaving call index)
  | .failed failure => some (.failed call failure)
  | .checked _ | .stored => none

def recordAfter? {ν : Type} (call : Call) : Step ν → Option Record
  | .checked true => some (.cacheHit call)
  | _ => none

def record? (audience : Audience) : Option Record → Audience
  | some entry => audience.record entry
  | none => audience

def tellStep {ν : Type} [Describe ν] (call : Call) (index : Nat) (step : Step ν)
    (audience : Audience) : Audience :=
  match audience.observers with
  | [] => audience
  | _ =>
    match eventOf? call index step with
    | some event =>
      audience.tell (Observer.seeEvent event) (.deafOnEvent event.rule event.kind)
    | none => audience

def receive {ν : Type} [Describe ν] (audience : Audience) : Signal ν → Audience
  | .bound source =>
    (audience.record (.binding source.size)).tell (Observer.seeInput source) .deafOnInput
  | .step call index step =>
    let audience := audience.record? (recordBefore? call index step)
    (audience.tellStep call index step).record? (recordAfter? call step)
  | .expected index label =>
    audience.tell (Observer.seeExpectation index label) .deafOnExpectation
  | .allowed lines =>
    { audience with
      shared := { audience.shared with
        output := { audience.shared.output with allowance := lines } } }
  | .rejected position labels => audience.record (.rejected position labels)
  | .broken failure => audience.record (.broken failure)

def read {ν : Type} [Describe ν] (audience : Audience) (journal : List (Signal ν)) : Audience :=
  journal.foldr (fun signal audience => audience.receive signal) audience

instance {ν : Type} [Describe ν] : Journal Audience ν where
  write signal audience := audience.receive signal

def register (audience : Audience) (observer : Observer) (source : Source) : Audience :=
  let told := tellAll (Observer.seeInput source) .deafOnRegistration [observer] audience.shared
  { observers := audience.observers ++ told.1, shared := told.2 }

end Audience

end Packrat.Trace
