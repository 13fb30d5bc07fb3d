import Std.Data.ExtTreeMap
import Packrat.Trace.Log
import Packrat.Trace.Record
import Packrat.Trace.Writer

set_option autoImplicit false

namespace Packrat.Trace

/-- What observers have in common: the logs by handle, one output, one list of tags, and the
diagnostic record. -/
structure Shared where
  logs : Std.ExtTreeMap Nat Log := ∅
  output : Output := {}
  roll : Array String := #[]
  records : Array Record := #[]

-- A log is empty until something is written into it.
def Shared.log (shared : Shared) (handle : Nat := 0) : Log :=
  shared.logs[handle]?.getD {}

def Shared.letLog (handle : Nat) (write : Log → Log) (shared : Shared) : Shared :=
  { shared with logs := shared.logs.alter handle fun log => some (write (log.getD {})) }

theorem Shared.log_letLog (handle other : Nat) (write : Log → Log) (shared : Shared) :
    (shared.letLog handle write).log other =
      if handle = other then write (shared.log other) else shared.log other := by
  by_cases same : handle = other
  next => simp [log, letLog, same]
  next => simp [log, letLog, same, Std.ExtTreeMap.getElem?_alter]

def Shared.record (shared : Shared) (entry : Record) : Shared :=
  { shared with records := shared.records.push entry }

inductive Observer where
  | log (handle : Nat := 0)
  | writer (state : Writer)
  | recorder
  | rejecting
  | ordered (tag : String)

structure Reaction where
  observer : Observer
  shared : Shared
  complaint : Option Complaint := none

def Shared.letWrite (write : Output → Writer × Output × Bool) (shared : Shared) : Reaction :=
  match shared with
  | { logs, output, roll, records } =>
    match write output with
    | (state, output, accepted) =>
      { observer := .writer state
        shared := { logs, output, roll, records }
        complaint := if accepted then none else some .refusedOutput }

namespace Observer

def seeInput (source : Source) (observer : Observer) (shared : Shared) : Reaction :=
  match observer with
  | .log handle => { observer, shared := shared.letLog handle Log.addInput }
  | .writer _ => { observer := .writer (.bound source), shared }
  | .recorder => { observer, shared := shared.record (.sawInput source.size) }
  | .rejecting => { observer, shared, complaint := some (.rejected "input") }
  | .ordered _ => { observer, shared }

def seeEvent (event : Event) (observer : Observer) (shared : Shared) : Reaction :=
  match observer with
  | .log handle => { observer, shared := shared.letLog handle fun log => log.addEvent event }
  | .writer state => shared.letWrite (state.event event)
  | .recorder => { observer, shared := shared.record (.sawEvent event) }
  | .rejecting => { observer, shared, complaint := some (.rejected "event") }
  | .ordered tag =>
    { observer, shared := { shared with roll := shared.roll.push (tag ++ ":" ++ event.kind.text) } }

def seeExpectation (index : Nat) (label : String) (observer : Observer) (shared : Shared) :
    Reaction :=
  match observer with
  | .log handle =>
    { observer, shared := shared.letLog handle fun log => log.addExpectation index label }
  | .writer state => shared.letWrite (state.expectation index label)
  | .recorder => { observer, shared := shared.record (.sawExpectation index label) }
  | .rejecting => { observer, shared, complaint := some (.rejected "expectation") }
  | .ordered _ => { observer, shared }

end Observer

end Packrat.Trace
