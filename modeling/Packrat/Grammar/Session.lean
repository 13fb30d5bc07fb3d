import Packrat.Grammar.TermParser
import Packrat.Session

set_option autoImplicit false

namespace Packrat.Grammar

instance : Describe Stored where
  describe := Stored.text

def requestBudget : Nat := 1000000000

def parser {σ : Type} [Journal σ Stored] (grammar : Grammar) (term : Term) :
    ParserTo Stored σ Value :=
  term.parser grammar requestBudget []

inductive Request where
  | run (term : Term)
  | parse (term : Term)
  | observe (observer : Trace.Observer)
  | readLog (handle : Nat := 0)
  | clearLog (handle : Nat := 0)
  | countEvents (kind : Trace.Kind) (rule : String) (handle : Nat := 0)
  | takeWritten
  | takeRoll
  | readCounters
  | summarize
  | readConfig

inductive Reply where
  | done
  | outcome (result : Except Failure Value)
  | parsed (result : Except Rejection Value)
  | log (log : Trace.Log)
  | count (n : Nat)
  | text (text : String)
  | roll (tags : Array String)
  | counters (counters : List (String × Nat))
  | config (config : Config)

def answer (grammar : Grammar) (session : Session Stored) : Request → Reply × Session Stored
  | .run term =>
    let result := session.run (grammar.parser term)
    (.outcome result.1, result.2)
  | .parse term =>
    let result := session.parse (grammar.parser term)
    (.parsed result.1, result.2)
  | .observe observer => (.done, session.observe observer)
  | .readLog handle => (.log (session.log handle), session)
  | .clearLog handle => (.done, session.clearLog handle)
  | .countEvents kind rule handle => (.count ((session.log handle).count kind rule), session)
  | .takeWritten =>
    let taken := session.takeWritten
    (.text taken.1, taken.2)
  | .takeRoll =>
    let taken := session.takeRoll
    (.roll taken.1, taken.2)
  | .readCounters => (.counters session.machine.counters, session)
  | .summarize => (.text session.summary, session)
  | .readConfig => (.config session.machine.config, session)

structure Entry where
  reply : Reply
  cursor : Cursor
  cached : Nat
  frame : Farthest.Frame
  records : Array Trace.Record

def enter (grammar : Grammar) (session : Session Stored) (request : Request) :
    Entry × Session Stored :=
  let answered := answer grammar session request
  let taken := answered.2.takeRecords
  let machine := taken.2.machine
  ({ reply := answered.1
     cursor := machine.cursor
     cached := machine.memo.size
     frame := machine.farthest.innermost
     records := taken.1 }, taken.2)

def enterAll (grammar : Grammar) : Session Stored → List Request → List Entry × Session Stored
  | session, [] => ([], session)
  | session, request :: rest =>
    let entered := enter grammar session request
    let others := enterAll grammar entered.2 rest
    (entered.1 :: others.1, others.2)

end Packrat.Grammar
