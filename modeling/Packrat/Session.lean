import Packrat.Parser.Basic
import Packrat.Trace.Audience

set_option autoImplicit false

namespace Packrat

structure Session (ν : Type) where
  machine : Machine ν
  audience : Trace.Audience := {}

namespace Session

variable {ν α : Type}

def start (source : Source) (config : Config := {}) : Session ν :=
  { machine := .start source config }

def live [Describe ν] (session : Session ν) : Machine ν Trace.Audience :=
  { session.machine with journal := session.audience.read session.machine.journal }

def rest (machine : Machine ν Trace.Audience) : Session ν :=
  { machine := { machine with journal := [] }, audience := machine.journal }

/-- Runs a parser before the observers, who are told each signal when it is given. -/
def run [Describe ν] (session : Session ν) (parser : ParserTo ν Trace.Audience α) :
    Except Failure α × Session ν :=
  match parser session.live with
  | .ok value machine => (.ok value, rest machine)
  | .error failure machine => (.error failure, rest machine)

def parse [Describe ν] (session : Session ν) (parser : ParserTo ν Trace.Audience α) :
    Except Rejection α × Session ν :=
  let result := parser.parse session.live
  (result.1, rest result.2)

def observe (session : Session ν) (observer : Trace.Observer) : Session ν :=
  { session with audience := session.audience.register observer session.machine.source }

def log (session : Session ν) (handle : Nat := 0) : Trace.Log :=
  session.audience.shared.log handle

def clearLog (session : Session ν) (handle : Nat := 0) : Session ν :=
  { session with audience.shared := session.audience.shared.letLog handle Trace.Log.clear }

-- What is taken is not there the next time.
def takeWritten (session : Session ν) : String × Session ν :=
  let shared := session.audience.shared
  (shared.output.written,
    { session with audience.shared := { shared with output := { shared.output with written := "" } } })

def takeRoll (session : Session ν) : Array String × Session ν :=
  let shared := session.audience.shared
  (shared.roll, { session with audience.shared := { shared with roll := #[] } })

def takeRecords (session : Session ν) : Array Trace.Record × Session ν :=
  let shared := session.audience.shared
  (shared.records, { session with audience.shared := { shared with records := #[] } })

def summary (session : Session ν) : String :=
  let machine := session.machine
  let config := machine.config
  "ParseContext \x7b state: ParseState \x7b index: " ++ toString machine.cursor.index ++
    ", min_precedence: " ++ toString machine.cursor.level.toInt ++
    " \x7d, config: ParserConfig \x7b memoize: " ++ Trace.Record.flag config.memoize ++
    ", underline: Underline \x7b spacer: " ++ Quoted.char config.underline.spacer ++
    ", marker: " ++ Quoted.char config.underline.marker ++
    " \x7d, grow_stack: " ++ Trace.Record.flag config.growStack ++
    " \x7d, cached: " ++ toString machine.memo.size ++
    ", active: " ++ toString machine.active.depth ++
    ", sinks: " ++ toString session.audience.observers.length ++ ", .. \x7d"

end Session

end Packrat
