import Mathlib.Tactic.SplitIfs
import Packrat.Farthest.Stack

set_option autoImplicit false

namespace Packrat.Farthest

namespace Frame

def reach (frame : Frame) : Nat :=
  if frame.labels = [] then 0 else frame.position + 1

def Within (frame : Frame) (index : Nat) : Prop :=
  frame.labels = [] → frame.position ≤ index

variable {frame other : Frame} {index : Nat}

theorem Within.mono {later : Nat} (within : frame.Within index) (le : index ≤ later) :
    frame.Within later :=
  fun empty => Nat.le_trans (within empty) le

theorem reach_of_labels (labels : frame.labels ≠ []) : frame.reach = frame.position + 1 :=
  if_neg labels

theorem reach_of_pos (some : 0 < frame.reach) : frame.reach = frame.position + 1 := by
  unfold reach at some ⊢
  split_ifs at some ⊢
  next => cases some
  next => rfl

theorem addLabel_ne_nil (labels : List String) (label : String) : addLabel labels label ≠ [] := by
  unfold addLabel
  split_ifs with present
  next => exact List.ne_nil_of_mem present
  next => simp

theorem foldl_addLabel_ne_nil {more : List String} (some : more ≠ []) (labels : List String) :
    more.foldl addLabel labels ≠ [] := by
  induction more generalizing labels with
  | nil => exact absurd rfl some
  | cons label others ih =>
    by_cases last : others = []
    next =>
      subst last
      exact addLabel_ne_nil labels label
    next => exact ih last (addLabel labels label)

theorem labels_register (within : frame.Within index) (label : String) :
    (frame.register index label).labels ≠ [] := by
  unfold register
  split_ifs with before same
  next => simp
  next => exact addLabel_ne_nil _ _
  next =>
    intro empty
    have nearer := within empty
    omega

theorem position_register (frame : Frame) (index : Nat) (label : String) :
    (frame.register index label).position = max frame.position index := by
  unfold register
  split_ifs with before same
  next => exact (Nat.max_eq_right (Nat.le_of_lt before)).symm
  next => exact (Nat.max_eq_left (Nat.le_of_eq same.symm)).symm
  next => exact (Nat.max_eq_left (Nat.not_lt.mp before)).symm

theorem Within.max_reach (within : frame.Within index) :
    max frame.reach (index + 1) = max frame.position index + 1 := by
  unfold reach
  split_ifs with empty
  next =>
    have nearer := within empty
    omega
  next => omega

theorem reach_register (within : frame.Within index) (label : String) :
    (frame.register index label).reach = max frame.reach (index + 1) := by
  rw [reach_of_labels (labels_register within label), position_register, within.max_reach]

theorem labels_merge (within : frame.Within other.position) (labels : other.labels ≠ []) :
    (frame.merge other).labels ≠ [] := by
  unfold merge isEmpty
  rw [List.isEmpty_eq_false_iff.mpr labels]
  simp only [Bool.false_eq_true, if_false]
  split_ifs with before same
  next => exact labels
  next => exact foldl_addLabel_ne_nil labels frame.labels
  next =>
    intro empty
    have nearer := within empty
    omega

theorem merge_empty (empty : other.labels = []) : frame.merge other = frame := by
  simp [merge, isEmpty, empty]

theorem position_merge (frame : Frame) (labels : other.labels ≠ []) :
    (frame.merge other).position = max frame.position other.position := by
  unfold merge isEmpty
  rw [List.isEmpty_eq_false_iff.mpr labels]
  simp only [Bool.false_eq_true, if_false]
  split_ifs with before same
  next => exact (Nat.max_eq_right (Nat.le_of_lt before)).symm
  next => exact (Nat.max_eq_left (Nat.le_of_eq same.symm)).symm
  next => exact (Nat.max_eq_left (Nat.not_lt.mp before)).symm

theorem reach_merge (within : frame.Within other.position) :
    (frame.merge other).reach = max frame.reach other.reach := by
  by_cases empty : other.labels = []
  next => simp [merge_empty empty, reach, empty]
  next =>
    rw [reach_of_labels (labels_merge within empty), reach_of_labels empty,
      position_merge frame empty, within.max_reach]

end Frame

namespace Stack

structure Marked (before after : Stack) (reach : Nat) : Prop where
  outer : after.outer = before.outer
  reach : after.innermost.reach = max before.innermost.reach reach
  still : after.innermost.labels = [] → after.innermost = before.innermost

variable {before middle after : Stack} {near far index : Nat}

namespace Marked

theorem refl (stack : Stack) : Marked stack stack 0 :=
  ⟨rfl, (Nat.max_zero _).symm, fun _ => rfl⟩

theorem trans (first : Marked before middle near) (second : Marked middle after far) :
    Marked before after (max near far) where
  outer := second.outer.trans first.outer
  reach := by rw [second.reach, first.reach, Nat.max_assoc]
  still empty := by
    have same := second.still empty
    rw [same] at empty ⊢
    exact first.still empty

theorem within (marked : Marked before after near) (within : before.innermost.Within index) :
    after.innermost.Within index := by
  intro empty
  have same := marked.still empty
  rw [same] at empty ⊢
  exact within empty

theorem register (within : before.innermost.Within index) (label : String) :
    Marked before (before.register index label) (index + 1) where
  outer := rfl
  reach := Frame.reach_register within label
  still empty := absurd empty (Frame.labels_register within label)

theorem merge {frame : Frame} (within : before.innermost.Within frame.position) :
    Marked before (before.merge frame) frame.reach where
  outer := rfl
  reach := Frame.reach_merge within
  still empty := by
    by_cases none : frame.labels = []
    next => exact Frame.merge_empty none
    next => exact absurd empty (Frame.labels_merge within none)

theorem pop (marked : Marked (before.push index) after near) : after.pop.2 = before := by
  unfold Stack.pop
  rw [marked.outer]
  rfl

theorem reach_pushed (marked : Marked (before.push index) after near) :
    after.innermost.reach = near := by
  rw [marked.reach]
  exact Nat.zero_max near

theorem popMerge (marked : Marked (before.push index) after near) (some : index < near)
    (within : before.innermost.Within index) : Marked before after.popMerge.2 near := by
  have outer : after.outer = before.innermost :: before.outer := marked.outer
  have merged : after.popMerge.2 = before.merge after.innermost := by
    unfold Stack.popMerge Stack.pop
    rw [outer]
  have reach := marked.reach_pushed
  have farther : index ≤ after.innermost.position := by
    have reached : after.innermost.reach = after.innermost.position + 1 :=
      Frame.reach_of_pos (by omega)
    omega
  have result := Marked.merge (within.mono farther)
  rwa [reach, ← merged] at result

end Marked

end Stack

end Packrat.Farthest
