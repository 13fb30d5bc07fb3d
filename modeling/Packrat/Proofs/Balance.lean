import Packrat.Proofs.Bookkeeping

set_option autoImplicit false

namespace Packrat

namespace Grammar

open Packrat.Parser

def Term.keepsText : Term → Bool
  | .bind _ => false
  | _ => true

def Term.KeepsText (term : Term) : Prop :=
  term.all Term.keepsText = true

instance (term : Term) : Decidable term.KeepsText :=
  inferInstanceAs (Decidable (_ = true))

def KeepsText (grammar : Grammar) : Prop :=
  ∀ entry ∈ grammar.definitions, entry.2.body.KeepsText

instance (grammar : Grammar) : Decidable grammar.KeepsText :=
  inferInstanceAs (Decidable (∀ entry ∈ grammar.definitions, entry.2.body.KeepsText))

namespace KeepsText

variable {grammar : Grammar} (keeps : grammar.KeepsText)

include keeps

theorem orderly (n : Nat) (args : List Arg) {term : Term} (termKeeps : term.KeepsText) :
    Orderly (term.parser grammar n args) :=
  @Term.runs _ _ indifferent_later Term.KeepsText Term.all_of_part
    (fun _ found => keeps _ (mem_of_find? found)) (fun binds => nomatch Term.passes_of_all binds)
    (fun _ orderly => Orderly.invoke orderly _ _ _ _) n args _ termKeeps

/-- However a run ends, the same calls are active as before, each at its depth and with its seed, their
flags at most raised; and there are as many frames, of which only the innermost one may differ. -/
theorem balances_bookkeeping (n : Nat) (args : List Arg) {term : Term} (termKeeps : term.KeepsText)
    (machine : Machine Stored) :
    let after := Ending.machine (term.parser grammar n args machine)
    after.calls = machine.calls ∧
    List.Forall₂ Activation.Follows machine.active.activations after.active.activations ∧
    after.farthest.depth = machine.farthest.depth ∧
    after.farthest.outer = machine.farthest.outer := by
  intro after
  have later := keeps.orderly n args termKeeps machine
  exact ⟨later.calls, later.active.follows, congrArg (·.length + 1) later.outer, later.outer⟩

end KeepsText

def careless : Grammar where
  definitions :=
    [("list",
      { rule := { name := { grammar := "careless", rule := "list" } }
        body := .choice
          [.sequence [.call .plain "list" [], .atomic "item" (.call .plain "item" [])],
           .literal "x"] }),
     ("item",
      { rule := { name := { grammar := "careless", rule := "item" } }
        body := .notHere "item" (.expect "mark"
          (.sequence [.save "mark", .literal "y", .restore "mark" false, .restore "mark" false])) })]

def inside : Machine Stored :=
  opened { cursor := {}, rule := { grammar := "careless", rule := "list" }, args := [.int 1] }
    (.start (.ofString "xy") {})

theorem balances_bookkeeping_careless :
    careless.KeepsText ∧ (Term.call .plain "list" []).KeepsText ∧
    (Ending.outcome ((Term.call .plain "list" []).parser careless 12 [] inside)).map Value.json =
      .error .staleSnapshot ∧
    ∀ budget,
      let after := Ending.machine ((Term.call .plain "list" []).parser careless budget [] inside)
      after.calls.length = 1 ∧ after.farthest.depth = 2 := by
  refine ⟨by decide, by decide, by decide +kernel, fun budget => ?_⟩
  have keeps : careless.KeepsText := by decide
  have termKeeps : (Term.call .plain "list" []).KeepsText := by decide
  obtain ⟨calls, _, depth, _⟩ := keeps.balances_bookkeeping budget [] termKeeps inside
  exact ⟨congrArg List.length calls, depth⟩

end Grammar

end Packrat
