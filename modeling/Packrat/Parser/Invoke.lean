import Packrat.Parser.Basic

set_option autoImplicit false

namespace Packrat

/-- How results of type `α` are stored as `ν` and read back. -/
structure Codec (ν α : Type) where
  encode : α → ν
  decode : ν → Option α
  decode_encode : ∀ value, decode (encode value) = some value

namespace Codec

def identity (α : Type) : Codec α α where
  encode := id
  decode := some
  decode_encode _ := rfl

def read {ν α : Type} (codec : Codec ν α) (rule : RuleName) (stored : ν) : Except Failure α :=
  match codec.decode stored with
  | some value => .ok value
  | none => .error (.mismatched rule)

end Codec

namespace Parser

variable {ν σ α : Type}

def conclude : Except Failure α → ParserTo ν σ α
  | .ok value => fun machine => .ok value machine
  | .error failure => fun machine => .error failure machine

def replay (codec : Codec ν α) (call : Call) (verdict : Verdict ν) : ParserTo ν σ α := fun machine =>
  conclude (verdict.outcome.bind (codec.read call.rule))
    { machine with
      cursor := verdict.cursor
      farthest := machine.farthest.merge verdict.frame }

def useSeed (codec : Codec ν α) (call : Call) (seed : Seed ν) : ParserTo ν σ α := fun machine =>
  conclude (codec.read call.rule seed.value) (machine.moveTo seed.cursor)

variable [Journal σ ν]

def reenter (codec : Codec ν α) (call : Call) (activation : Activation ν) : ParserTo ν σ α :=
  fun machine =>
    let machine := { machine with active := machine.active.reenter call }
    let machine := machine.report call (.reentered activation.seed.isSome)
    match activation.seed with
    | some seed => useSeed codec call seed machine
    | none => .error .unseeded machine

def grow (codec : Codec ν α) (call : Call) (body : ParserTo ν σ α) : Nat → ParserTo ν σ α
  | 0 => fail .exhausted
  | budget + 1 => fun machine =>
    match body machine with
    | .error failure machine =>
      match machine.active.innermost?.bind Activation.seed with
      | some seed =>
        if failure.recoverable then useSeed codec call seed machine else .error failure machine
      | none => .error failure machine
    | .ok value machine =>
      match machine.active.innermost? with
      | none => .ok value machine
      | some activation =>
        if !activation.recursive then .ok value machine
        else
          -- A run that got no farther than the seed it was built on is given up for that seed.
          match activation.seed.filter (machine.cursor.index ≤ ·.cursor.index) with
          | some seed => useSeed codec call seed machine
          | none =>
            let machine := machine.report call .grew
            -- The run is the seed of the next one, which begins where the call began.
            let seed : Seed ν := { value := codec.encode value, cursor := machine.cursor }
            let machine := { machine with
              active := machine.active.plant seed
              cursor := call.cursor }
            grow codec call body budget machine

def store (call : Call) (outcome : Except Failure ν) (frame : Farthest.Frame)
    (machine : Machine ν σ) : Machine ν σ :=
  let verdict : Verdict ν := { outcome, cursor := machine.cursor, frame }
  let stored := { machine with memo := machine.memo.insert call verdict }
  match outcome with
  | .ok _ => stored.report call .stored
  | .error failure => if failure.recoverable then stored.report call .stored else machine

def settle (call : Call) (memoized : Bool) (outcome : Except Failure ν) (machine : Machine ν σ) :
    Machine ν σ :=
  -- An activation that a new text has swept away saw nothing unfinished.
  let tainted := (machine.active.innermost?.map Activation.tainted).getD false
  let popped := machine.farthest.popMerge
  let machine := { machine with farthest := popped.2, active := machine.active.pop }
  if tainted then machine.report call .withheld
  else if memoized then store call outcome popped.1 machine
  else machine

def activate (codec : Codec ν α) (call : Call) (memoized : Bool) (body : ParserTo ν σ α)
    (budget : Nat) : ParserTo ν σ α := fun machine =>
  let opened := { machine with
    active := machine.active.push call
    farthest := machine.farthest.push call.cursor.index }
  match grow codec call body budget opened with
  | .ok value machine =>
    .ok value (settle call memoized (.ok (codec.encode value)) machine)
  | .error failure machine =>
    .error failure (settle call memoized (.error failure) (machine.moveTo call.cursor))

def evaluate (codec : Codec ν α) (call : Call) (memoized : Bool) (body : ParserTo ν σ α)
    (budget : Nat) : ParserTo ν σ α := fun machine =>
  match machine.active.find? call with
  | some activation => reenter codec call activation machine
  | none => activate codec call memoized body budget machine

def answer (codec : Codec ν α) (call : Call) (memoized : Bool) (body : ParserTo ν σ α)
    (budget : Nat) : ParserTo ν σ α := fun machine =>
  if memoized then
    match machine.memo.find? call with
    | some verdict => replay codec call verdict (machine.report call (.checked true))
    | none => evaluate codec call memoized body budget (machine.report call (.checked false))
  else evaluate codec call memoized body budget machine

def invoke (codec : Codec ν α) (rule : Rule) (args : List Arg) (body : ParserTo ν σ α)
    (budget : Nat) : ParserTo ν σ α := fun machine =>
  let call : Call := { cursor := machine.cursor, rule := rule.name, args }
  let memoized := rule.memoized && machine.config.memoize
  match answer codec call memoized body budget (machine.report call .entering) with
  | .ok value machine => .ok value (machine.report call (.leaving (codec.encode value)))
  | .error failure machine => .error failure (machine.report call (.failed failure))

end Parser

end Packrat
