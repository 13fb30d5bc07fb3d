import Packrat.Trace.Event

set_option autoImplicit false

namespace Packrat.Trace

/-- Everything observed, in order. -/
structure Log where
  events : Array Event := #[]
  expectations : Array (Nat × String) := #[]
  inputs : Nat := 0

namespace Log

def addInput (log : Log) : Log :=
  { log with inputs := log.inputs + 1 }

def addEvent (log : Log) (event : Event) : Log :=
  { log with events := log.events.push event }

def addExpectation (log : Log) (index : Nat) (label : String) : Log :=
  { log with expectations := log.expectations.push (index, label) }

def clear (log : Log) : Log :=
  { inputs := log.inputs }

def count (log : Log) (kind : Kind) (rule : String) : Nat :=
  log.events.toList.countP fun event => event.kind = kind && event.rule.rule = rule

end Log

end Packrat.Trace
