import Packrat.Activation
import Packrat.Farthest.Report
import Packrat.Journal
import Packrat.MemoTable

set_option autoImplicit false

namespace Packrat

/-- The settings of a parse. Stack growth is kept for display only: evaluation does not depend on
it. -/
structure Config where
  memoize : Bool := true
  underline : Underline := {}
  growStack : Bool := true
deriving DecidableEq, Repr

abbrev Snapshot := Option Cursor

/-- All that a parser reads and writes. Rule results are stored as `ν`, and the journal is whatever
hears the parse. -/
structure Machine (ν : Type) (σ : Type := List (Signal ν)) where
  source : Source
  config : Config := {}
  cursor : Cursor := {}
  farthest : Farthest.Stack := {}
  memo : MemoTable ν := {}
  active : Active ν := {}
  journal : σ := by exact []
  slots : List (String × Snapshot) := []
  counters : List (String × Nat) := []

namespace Machine

variable {ν σ : Type}

section Told

variable [Journal σ ν]

def write (machine : Machine ν σ) (signal : Signal ν) : Machine ν σ :=
  { machine with journal := Journal.write signal machine.journal }

def report (machine : Machine ν σ) (call : Call) (step : Step ν) : Machine ν σ :=
  machine.write (.step call machine.cursor.index step)

def register (machine : Machine ν σ) (index : Nat) (label : String) : Machine ν σ :=
  { machine with
    farthest := machine.farthest.register index label
    journal := Journal.write (.expected index label : Signal ν) machine.journal }

def bind (machine : Machine ν σ) (source : Source) : Machine ν σ :=
  { machine with
    source
    cursor := {}
    farthest := {}
    memo := {}
    active := {}
    journal := Journal.write (.bound source : Signal ν) machine.journal }

end Told

def moveTo (machine : Machine ν σ) (cursor : Cursor) : Machine ν σ :=
  { machine with cursor }

def setLevel (machine : Machine ν σ) (level : Int32) : Machine ν σ :=
  { machine with cursor := { machine.cursor with level } }

def rest (machine : Machine ν σ) : List Char :=
  machine.source.rest machine.cursor.index

def hasNext (machine : Machine ν σ) : Bool :=
  machine.cursor.index < machine.source.size

def advance (machine : Machine ν σ) (bytes : Nat) : Machine ν σ :=
  { machine with
    cursor := { machine.cursor with
      index := min (machine.cursor.index + bytes) machine.source.size } }

def pushFrame (machine : Machine ν σ) (position : Nat) : Machine ν σ :=
  { machine with farthest := machine.farthest.push position }

def dropFrame (machine : Machine ν σ) : Machine ν σ :=
  { machine with farthest := machine.farthest.pop.2 }

def start (source : Source) (config : Config) : Machine ν :=
  { source, config }

def farthestReport (machine : Machine ν σ) : Farthest.Report :=
  .ofFrame machine.source machine.config.underline machine.farthest.innermost

def position (machine : Machine ν σ) : Position :=
  .scan machine.source machine.cursor.index

end Machine

end Packrat
