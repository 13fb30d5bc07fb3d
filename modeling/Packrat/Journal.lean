import Packrat.Failure
import Packrat.Text.Source

set_option autoImplicit false

namespace Packrat

inductive Step (ν : Type) where
  | entering
  | checked (hit : Bool)
  | reentered (seeded : Bool)
  | grew
  | stored
  | withheld
  | leaving (value : ν)
  | failed (failure : Failure)

inductive Signal (ν : Type) where
  | bound (source : Source)
  | step (call : Call) (index : Nat) (step : Step ν)
  | expected (index : Nat) (label : String)
  | allowed (lines : Option Nat)
  | rejected (position : Nat) (labels : Nat)
  | broken (failure : Failure)

/-- What hears the signals of a parse while it runs. A parser tells it every signal and never asks
what became of it. -/
class Journal (σ ν : Type) where
  write : Signal ν → σ → σ

instance {ν : Type} : Journal (List (Signal ν)) ν where
  write := List.cons

@[simp] theorem Journal.write_list {ν : Type} (signal : Signal ν) (journal : List (Signal ν)) :
    Journal.write signal journal = signal :: journal :=
  rfl

end Packrat
