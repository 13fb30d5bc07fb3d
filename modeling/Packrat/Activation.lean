import Packrat.Catalog
import Packrat.Failure

set_option autoImplicit false

namespace Packrat

structure Seed (ν : Type) where
  value : ν
  cursor : Cursor

/-- An activation that is still running. It is recursive once its call has been made again during
the present run of its body, and tainted once it has seen the seed, or the missing seed, of an
activation around it. -/
structure Activation (ν : Type) where
  call : Call
  recursive : Bool := false
  seed : Option (Seed ν) := none
  tainted : Bool := false

namespace Activation

variable {ν : Type}

/-- Marks the activation of a call as recursive and all activations inside it as tainted. -/
def reenter (call : Call) : List (Activation ν) → List (Activation ν)
  | [] => []
  | activation :: outer =>
    if activation.call = call then { activation with recursive := true } :: outer
    else { activation with tainted := true } :: reenter call outer

def plant (seed : Seed ν) : List (Activation ν) → List (Activation ν)
  | [] => []
  | activation :: outer => { activation with recursive := false, seed := some seed } :: outer

@[simp] theorem calls_reenter (call : Call) (activations : List (Activation ν)) :
    (reenter call activations).map Activation.call = activations.map Activation.call := by
  induction activations with
  | nil => rfl
  | cons activation outer ih =>
    by_cases same : activation.call = call <;> simp [reenter, same, ih]

@[simp] theorem calls_plant (seed : Seed ν) (activations : List (Activation ν)) :
    (plant seed activations).map Activation.call = activations.map Activation.call := by
  cases activations <;> rfl

end Activation

structure Active (ν : Type) where
  activations : List (Activation ν) := []
  calls : Catalog Call (·.cursor.index) := {}
  calls_eq : calls.items = activations.map Activation.call := by rfl

namespace Active

variable {ν : Type}

def depth (active : Active ν) : Nat :=
  active.activations.length

def innermost? (active : Active ν) : Option (Activation ν) :=
  active.activations.head?

def find? (active : Active ν) (call : Call) : Option (Activation ν) :=
  -- Most calls are not active, and their shelf says so without a search.
  if call ∈ active.calls.shelf call.cursor.index then
    active.activations.find? fun activation => activation.call = call
  else none

def push (active : Active ν) (call : Call) : Active ν where
  activations := { call } :: active.activations
  calls := active.calls.push call
  calls_eq := by simp [active.calls_eq]

def pop (active : Active ν) : Active ν where
  activations := active.activations.tail
  calls := active.calls.pop
  calls_eq := by simp [active.calls_eq]

def reenter (active : Active ν) (call : Call) : Active ν where
  activations := Activation.reenter call active.activations
  calls := active.calls
  calls_eq := by simp [active.calls_eq]

def plant (active : Active ν) (seed : Seed ν) : Active ν where
  activations := Activation.plant seed active.activations
  calls := active.calls
  calls_eq := by simp [active.calls_eq]

theorem eq_of_activations {first second : Active ν}
    (same : first.activations = second.activations) : first = second := by
  have calls : first.calls = second.calls := by
    apply Catalog.eq_of_items
    rw [first.calls_eq, second.calls_eq, same]
  cases first
  cases second
  simp_all

theorem find?_eq (active : Active ν) (call : Call) :
    active.find? call = active.activations.find? fun activation => activation.call = call := by
  unfold find?
  split
  next => rfl
  next missing =>
    rw [Catalog.shelf_eq, active.calls_eq] at missing
    symm
    rw [List.find?_eq_none]
    intro activation member same
    simp only [decide_eq_true_eq] at same
    apply missing
    simp only [List.mem_filter, List.mem_map, decide_eq_true_eq, and_true]
    exact ⟨activation, member, same⟩

end Active

end Packrat
