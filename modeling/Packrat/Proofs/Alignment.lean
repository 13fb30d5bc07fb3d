import Packrat.Proofs.Bookkeeping

set_option autoImplicit false

namespace Packrat

open Ending (Exhausted)

variable {ν : Type}

def Withheld (journal : List (Signal ν)) (call : Call) : Prop :=
  ∃ index, .step call index .withheld ∈ journal

structure Machine.Onward (before after : Machine ν) : Prop where
  ages : List.Forall₂ Activation.Ages before.active.activations after.active.activations
  journal : ∃ added, after.journal = added ++ before.journal
  kept : ∀ {call verdict}, before.memo.find? call = some verdict →
    after.memo.find? call = some verdict

theorem Machine.Inside.onward {before after : Machine ν} (inside : before.Inside after) :
    before.Onward after where
  ages := inside.active.all
  journal := inside.journal.imp fun _ added => added.1
  kept := inside.kept

theorem Machine.Later.onward {before after : Machine ν} (later : before.Later after) :
    before.Onward after :=
  later.inside.onward

structure Setting (ν : Type) where
  cached : List (Activation ν) := []
  plain : List (Activation ν) := []
  framed : Prop := True

/-- A plain run's machine beside a machine that may use its memo table. The calls that the
stretch has begun are not in the table if they are looked for there. -/
structure Aligned (looked : Call → Prop) (setting : Setting ν) (inner : List (Activation ν))
    (cached plain : Machine ν) : Prop where
  source : plain.source = cached.source
  cursor : plain.cursor = cached.cursor
  frame : setting.framed → plain.farthest.innermost = cached.farthest.innermost
  left : cached.active.activations = inner ++ setting.cached
  right : plain.active.activations = inner ++ setting.plain
  unmemoized : plain.config.memoize = false
  absent : ∀ activation ∈ inner, looked activation.call → cached.config.memoize = true →
    cached.memo.find? activation.call = none

def Lost (setting : Setting ν) (depth : Nat) (cached plain : Machine ν) : Prop :=
  -- Either run has seen something around the stretch, or the table has what is withheld.
  setting.cached ≠ [] ∧ Activation.Tainted depth cached.active.activations ∨
  setting.plain ≠ [] ∧ Activation.Tainted depth plain.active.activations ∨
  ∃ call, Withheld plain.journal call ∧ cached.memo.find? call ≠ none

theorem Withheld.append {journal : List (Signal ν)} {call : Call} (withheld : Withheld journal call)
    (added : List (Signal ν)) : Withheld (added ++ journal) call :=
  withheld.imp fun _ member => List.mem_append_right added member

theorem Lost.onward {setting : Setting ν} {depth : Nat} {cached plain after other : Machine ν}
    (lost : Lost setting depth cached plain) (left : cached.Onward after)
    (right : plain.Onward other) : Lost setting depth after other := by
  rcases lost with ⟨around, tainted⟩ | ⟨around, tainted⟩ | ⟨call, withheld, stored⟩
  next => exact .inl ⟨around, tainted.ages left.ages⟩
  next => exact .inr (.inl ⟨around, tainted.ages right.ages⟩)
  next =>
    obtain ⟨added, same⟩ := right.journal
    obtain ⟨verdict, found⟩ := Option.ne_none_iff_exists'.mp stored
    exact .inr (.inr ⟨call, same ▸ withheld.append added, by simp [left.kept found]⟩)

namespace Aligned

variable {looked : Call → Prop} {setting : Setting ν} {inner : List (Activation ν)}
  {cached plain : Machine ν}

theorem moveTo (aligned : Aligned looked setting inner cached plain) (cursor : Cursor) :
    Aligned looked setting inner (cached.moveTo cursor) (plain.moveTo cursor) :=
  { aligned with cursor := rfl }

theorem setLevel (aligned : Aligned looked setting inner cached plain) (level : Int32) :
    Aligned looked setting inner (cached.setLevel level) (plain.setLevel level) :=
  { aligned with cursor := by simp [Machine.setLevel, aligned.cursor] }

theorem register (aligned : Aligned looked setting inner cached plain) (index : Nat)
    (label : String) :
    Aligned looked setting inner (cached.register index label) (plain.register index label) :=
  { aligned with
    frame := fun framed => by
      simp [Machine.register, Farthest.Stack.register, aligned.frame framed] }

theorem expect (aligned : Aligned looked setting inner cached plain)
    (label : Option (Nat × String)) :
    Aligned looked setting inner (cached.expect label) (plain.expect label) := by
  cases label with
  | none => exact aligned
  | some label => exact aligned.register label.1 label.2

theorem write (aligned : Aligned looked setting inner cached plain) (first second : Signal ν) :
    Aligned looked setting inner (cached.write first) (plain.write second) :=
  { aligned with }

theorem pushFrame (aligned : Aligned looked setting inner cached plain) (index : Nat) :
    Aligned looked { setting with framed := True } inner (cached.pushFrame index)
      (plain.pushFrame index) :=
  { aligned with frame := fun _ => rfl }

theorem dropFrame {index : Nat} {later : List (Activation ν)} {after other : Machine ν}
    (aligned : Aligned looked setting inner cached plain)
    (inside : Aligned looked { setting with framed := True } later after other)
    (left : (cached.pushFrame index).Later after) (right : (plain.pushFrame index).Later other) :
    Aligned looked setting later after.dropFrame other.dropFrame :=
  { inside with
    frame := fun framed => by
      rw [left.dropFrame.2, right.dropFrame.2]
      exact aligned.frame framed }

end Aligned

def Diverged {α : Type} (setting : Setting ν) (depth : Nat) (cached plain : Ending ν α) : Prop :=
  cached.Exhausted ∨ plain.Exhausted ∨ Lost setting depth cached.machine plain.machine

inductive Agreed {α : Type} (looked : Call → Prop) (setting : Setting ν) (depth : Nat) :
    Ending ν α → Ending ν α → Prop
  | ok {inner : List (Activation ν)} {cached plain : Machine ν} (value : α)
      (length : inner.length = depth) (aligned : Aligned looked setting inner cached plain) :
      Agreed looked setting depth (.ok value cached) (.ok value plain)
  | error {inner : List (Activation ν)} {cached plain : Machine ν} (failure : Failure)
      (length : inner.length = depth) (aligned : Aligned looked setting inner cached plain) :
      Agreed looked setting depth (.error failure cached) (.error failure plain)

namespace Agreed

variable {α : Type} {looked : Call → Prop} {setting : Setting ν} {depth : Nat}
  {cached plain : Ending ν α}

theorem outcome (agreed : Agreed looked setting depth cached plain) :
    cached.outcome = plain.outcome := by
  cases agreed <;> rfl

theorem cursor (agreed : Agreed looked setting depth cached plain) :
    cached.machine.cursor = plain.machine.cursor := by
  cases agreed with
  | ok _ _ aligned => exact aligned.cursor.symm
  | error _ _ aligned => exact aligned.cursor.symm

theorem frame (agreed : Agreed looked setting depth cached plain) (framed : setting.framed) :
    cached.machine.farthest.innermost = plain.machine.farthest.innermost := by
  cases agreed with
  | ok _ _ aligned => exact (aligned.frame framed).symm
  | error _ _ aligned => exact (aligned.frame framed).symm

end Agreed

structure Ending.Leads {α β : Type} (ending : Ending ν α) (whole : Ending ν β) : Prop where
  exhausted : ending.Exhausted → whole.Exhausted
  onward : ending.machine.Onward whole.machine

theorem Diverged.leads {α β : Type} {setting : Setting ν} {depth : Nat}
    {cached plain : Ending ν α} {whole other : Ending ν β}
    (diverged : Diverged setting depth cached plain) (left : cached.Leads whole)
    (right : plain.Leads other) : Diverged setting depth whole other := by
  rcases diverged with exhausted | exhausted | lost
  next => exact .inl (left.exhausted exhausted)
  next => exact .inr (.inl (right.exhausted exhausted))
  next => exact .inr (.inr (lost.onward left.onward right.onward))

namespace Parser

variable {α β : Type} {parser : Parser ν α}

theorem leads_bind {next : α → Parser ν β} (orderly : ∀ value, Orderly (next value))
    (machine : Machine ν) : Ending.Leads (parser machine) ((parser >>= next) machine) := by
  rw [bind_apply]
  cases parser machine with
  | ok value after => exact ⟨by simp, (orderly value after).onward⟩
  | error failure after => exact ⟨by simp, (Machine.Later.refl after).onward⟩

theorem leads_branch {found : α → Parser ν β} {missed : Mismatch → Parser ν β}
    (matched : ∀ value, Orderly (found value)) (unmatched : ∀ mismatch, Orderly (missed mismatch))
    (machine : Machine ν) : Ending.Leads (parser machine) (branch parser found missed machine) := by
  unfold branch
  cases parser machine with
  | ok value after => exact ⟨by simp, (matched value after).onward⟩
  | error failure after =>
    by_cases recoverable : failure.recoverable = true
    next =>
      simp only [recoverable, dite_true]
      refine ⟨fun exhausted => ?_, ?_⟩
      next =>
        simp only [Ending.exhausted_error] at exhausted
        subst exhausted
        cases recoverable
      next =>
        have later := unmatched ⟨failure, recoverable⟩ (after.moveTo machine.cursor)
        exact { later.onward with }
    next =>
      simp only [recoverable]
      exact ⟨by simp, (Machine.Later.refl after).onward⟩

theorem leads_ahead (machine : Machine ν) :
    Ending.Leads (parser machine) (ahead parser machine) := by
  unfold ahead
  cases parser machine with
  | ok value after => exact ⟨by simp, { (Machine.Later.refl after).onward with }⟩
  | error failure after =>
    simp only
    split <;> exact ⟨by simp, { (Machine.Later.refl after).onward with }⟩

theorem leads_notHere (parser : Parser ν α) (label : String) (machine : Machine ν) :
    Ending.Leads (parser (machine.pushFrame machine.cursor.index))
      (notHere label parser machine) := by
  simp only [notHere]
  cases parser (machine.pushFrame machine.cursor.index) with
  | ok value after =>
    have later := (Machine.Later.refl after).register machine.cursor.index label
    exact ⟨by simp, { Machine.Later.onward later with }⟩
  | error failure after =>
    simp only
    split
    next recoverable =>
      refine ⟨fun exhausted => ?_, { (Machine.Later.refl after).onward with }⟩
      simp only [Ending.exhausted_error] at exhausted
      subst exhausted
      cases recoverable
    next => exact ⟨by simp, { (Machine.Later.refl after).onward with }⟩

theorem leads_isolated (parser : Parser ν α) (machine : Machine ν) :
    Ending.Leads (parser (machine.pushFrame machine.cursor.index)) (isolated parser machine) := by
  unfold isolated
  cases parser (machine.pushFrame machine.cursor.index) with
  | ok value after => exact ⟨by simp, { (Machine.Later.refl after).onward with }⟩
  | error failure after =>
    simp only
    split
    next recoverable =>
      refine ⟨fun exhausted => ?_, { (Machine.Later.refl after).onward with }⟩
      simp only [Ending.exhausted_error] at exhausted
      subst exhausted
      cases recoverable
    next => exact ⟨by simp, { (Machine.Later.refl after).onward with }⟩

theorem leads_atLevel (level : Int32) (machine : Machine ν) :
    Ending.Leads (parser (machine.setLevel level)) (atLevel level parser machine) := by
  unfold atLevel
  cases parser (machine.setLevel level) with
  | ok value after => exact ⟨by simp, { (Machine.Later.refl after).onward with }⟩
  | error failure after => exact ⟨by simp, { (Machine.Later.refl after).onward with }⟩

end Parser

end Packrat
