import Packrat.Proofs.Reach

set_option autoImplicit false

namespace Packrat.Farthest.Frame

variable {frame child : Frame} {index start : Nat} {reports : List (Nat × String)}

def registerAll (frame : Frame) (reports : List (Nat × String)) : Frame :=
  reports.foldl (fun frame report => frame.register report.1 report.2) frame

theorem registerAll_append (frame : Frame) (reports others : List (Nat × String)) :
    frame.registerAll (reports ++ others) = (frame.registerAll reports).registerAll others :=
  List.foldl_append

theorem mem_foldl_addLabel {label : String} (labels : List String) {more : List String}
    (member : label ∈ labels ∨ label ∈ more) : label ∈ more.foldl addLabel labels := by
  induction more generalizing labels with
  | nil => simpa using member
  | cons first rest ih =>
    apply ih
    rw [List.mem_cons] at member
    unfold addLabel
    split_ifs <;> grind

theorem foldl_addLabel_addLabel (labels more : List String) (label : String) :
    (addLabel more label).foldl addLabel labels = addLabel (more.foldl addLabel labels) label := by
  by_cases present : label ∈ more
  next =>
    have later := mem_foldl_addLabel labels (.inr present)
    simp [addLabel, present, later]
  next =>
    rw [addLabel, if_neg present, List.foldl_append]
    rfl

theorem register_of_lt (nearer : index < frame.position) (label : String) :
    frame.register index label = frame := by
  unfold register
  split_ifs <;> first | rfl | omega

theorem register_of_gt (farther : frame.position < index) (label : String) :
    frame.register index label = { position := index, labels := [label] } :=
  if_pos farther

theorem register_position (frame : Frame) (label : String) :
    frame.register frame.position label = { frame with labels := addLabel frame.labels label } := by
  simp [register]

/-- The labels that were registered at a position, as often as they were. -/
def labelsAt (index : Nat) (reports : List (Nat × String)) : List String :=
  (reports.filter (·.1 = index)).map Prod.snd

theorem mem_labelsAt {report : Nat × String} (member : report ∈ reports) :
    report.2 ∈ labelsAt report.1 reports := by
  apply List.mem_map_of_mem
  simpa using member

theorem labelsAt_eq_nil (nearer : ∀ report ∈ reports, report.1 < index) :
    labelsAt index reports = [] := by
  have none : ∀ report ∈ reports, ¬ decide (report.1 = index) = true := fun report member => by
    have before := nearer report member
    simpa using Nat.ne_of_lt before
  rw [labelsAt, List.filter_eq_nil_iff.mpr none, List.map_nil]

theorem labelsAt_concat (index : Nat) (reports : List (Nat × String)) (report : Nat × String) :
    labelsAt index (reports ++ [report]) =
      labelsAt index reports ++ if report.1 = index then [report.2] else [] := by
  unfold labelsAt
  rw [List.filter_append, List.map_append]
  split_ifs with same <;> simp [same]

theorem eraseDups_concat (labels : List String) (label : String) :
    (labels ++ [label]).eraseDups = addLabel labels.eraseDups label := by
  rw [List.eraseDups_append, addLabel]
  by_cases present : label ∈ labels
  next => simp [List.cons_removeAll, present]
  next => simp [List.cons_removeAll, List.eraseDups_cons, present]

/-- What has become of a frame that was empty at the start: it stands at the farthest of the positions
and holds the labels registered there. -/
structure Holds (start : Nat) (reports : List (Nat × String)) (frame : Frame) : Prop where
  position : (start :: reports.map Prod.fst).max? = some frame.position
  labels : frame.labels = (labelsAt frame.position reports).eraseDups

namespace Holds

theorem empty (start : Nat) : Holds start [] { position := start } :=
  ⟨rfl, rfl⟩

theorem le_position (holds : Holds start reports frame) {report : Nat × String}
    (member : report ∈ reports) : report.1 ≤ frame.position :=
  (List.max?_eq_some_iff.mp holds.position).2 _
    (List.mem_cons_of_mem _ (List.mem_map_of_mem member))

theorem register (holds : Holds start reports frame) (report : Nat × String) :
    Holds start (reports ++ [report]) (frame.register report.1 report.2) where
  position := by
    have before := holds.position
    rw [List.max?_cons', Option.some_inj] at before
    rw [List.max?_cons', List.map_append, List.foldl_append, before, position_register]
    rfl
  labels := by
    obtain ⟨index, label⟩ := report
    rcases Nat.lt_trichotomy frame.position index with farther | same | nearer
    next =>
      -- Nothing was registered here before, since all of it lies at the frame or before it.
      have fresh : labelsAt index reports = [] :=
        labelsAt_eq_nil fun other member => Nat.lt_of_le_of_lt (holds.le_position member) farther
      rw [register_of_gt farther, labelsAt_concat, fresh, if_pos rfl]
      rfl
    next =>
      subst same
      rw [register_position, labelsAt_concat, if_pos rfl, eraseDups_concat, ← holds.labels]
    next =>
      rw [register_of_lt nearer, labelsAt_concat, if_neg (Nat.ne_of_lt nearer), List.append_nil]
      exact holds.labels

theorem registerAll (holds : Holds start reports frame) (others : List (Nat × String)) :
    Holds start (reports ++ others) (frame.registerAll others) := by
  induction others generalizing reports frame with
  | nil => rwa [List.append_nil]
  | cons report rest ih =>
    have next := ih (holds.register report)
    rwa [List.append_assoc] at next

theorem register_seen (holds : Holds start reports frame) {report : Nat × String}
    (member : report ∈ reports) : frame.register report.1 report.2 = frame := by
  rcases Nat.lt_or_eq_of_le (holds.le_position member) with nearer | same
  next => exact register_of_lt nearer report.2
  next =>
    have known : report.2 ∈ frame.labels := by
      rw [holds.labels, List.mem_eraseDups, ← same]
      exact mem_labelsAt member
    rw [same, register_position, addLabel, if_pos known]

end Holds

theorem position_le_registerAll (frame : Frame) (reports : List (Nat × String)) :
    frame.position ≤ (frame.registerAll reports).position := by
  induction reports generalizing frame with
  | nil => exact Nat.le_refl _
  | cons report rest ih =>
    calc
      frame.position ≤ (frame.register report.1 report.2).position := by
        rw [position_register]
        exact Nat.le_max_left _ _
      _ ≤ ((frame.register report.1 report.2).registerAll rest).position := ih _

/-- A frame that was empty at the start ends up at the maximum of the start and the positions of all that
was registered. It holds the labels registered at that position, each once and in order of first
registration. On the way it never moves to the left, and registering again what it has seen changes
nothing. -/
theorem keeps_farthest (start : Nat) (reports : List (Nat × String)) :
    let frame := registerAll { position := start } reports
    (start :: reports.map Prod.fst).max? = some frame.position ∧
      frame.labels = (labelsAt frame.position reports).eraseDups ∧
      (∀ earlier, earlier <+: reports →
        (registerAll { position := start } earlier).position ≤ frame.position) ∧
      ∀ report ∈ reports, frame.register report.1 report.2 = frame := by
  intro frame
  have holds : Holds start reports frame := (Holds.empty start).registerAll reports
  refine ⟨holds.position, holds.labels, fun earlier before => ?_, fun _ => holds.register_seen⟩
  obtain ⟨later, rfl⟩ := before
  have onward := position_le_registerAll (registerAll { position := start } earlier) later
  rwa [← registerAll_append] at onward

theorem keeps_farthest_overtaken :
    let reports := [(2, "w"), (5, "a"), (7, "b"), (5, "c"), (7, "d"), (7, "b")]
    [(2, "w"), (5, "a")] <+: reports ∧ (5, "c") ∈ reports ∧
      registerAll { position := 3 } reports = { position := 7, labels := ["b", "d"] } ∧
      (registerAll { position := 3 } [(2, "w"), (5, "a")]).position ≤ 7 ∧
      register { position := 7, labels := ["b", "d"] } 5 "c" =
        { position := 7, labels := ["b", "d"] } := by
  intro reports
  obtain ⟨_, _, onward, again⟩ := keeps_farthest 3 reports
  have begun : [(2, "w"), (5, "a")] <+: reports := by decide
  have seen : (5, "c") ∈ reports := by decide
  exact ⟨begun, seen, by decide, onward _ begun, again _ seen⟩

theorem merge_of_lt (some : child.labels ≠ []) (farther : frame.position < child.position) :
    frame.merge child = child := by
  simp [merge, isEmpty, some, farther]

theorem merge_of_gt (nearer : child.position < frame.position) : frame.merge child = frame := by
  unfold merge
  split_ifs <;> first | rfl | omega

theorem merge_of_eq (same : frame.position = child.position) :
    frame.merge child =
      { frame with labels := child.labels.foldl addLabel frame.labels } := by
  by_cases empty : child.labels = []
  next => simp [merge_empty empty, empty]
  next => simp [merge, isEmpty, empty, same]

theorem register_merge_of_gt (frame : Frame) (farther : child.position < index) (label : String) :
    (frame.merge child).register index label = frame.register index label := by
  by_cases empty : child.labels = []
  next => rw [merge_empty empty]
  next =>
    have position := position_merge frame empty
    by_cases before : frame.position < index
    next => rw [register_of_gt before, register_of_gt (by omega)]
    next => rw [merge_of_gt (by omega)]

theorem merge_register_position (frame : Frame) (some : child.labels ≠ []) (label : String) :
    frame.merge (child.register child.position label) =
      (frame.merge child).register child.position label := by
  rw [register_position]
  rcases Nat.lt_trichotomy frame.position child.position with before | level | after
  next =>
    rw [merge_of_lt some before, register_position]
    exact merge_of_lt (addLabel_ne_nil _ _) before
  next =>
    refine (@merge_of_eq _ { child with labels := addLabel child.labels label } level).trans ?_
    rw [foldl_addLabel_addLabel, merge_of_eq level, ← level]
    simp [register]
  next =>
    rw [merge_of_gt after, register_of_lt after]
    exact merge_of_gt after

theorem merge_register (frame : Frame) (within : child.Within index) (label : String) :
    frame.merge (child.register index label) = (frame.merge child).register index label := by
  rcases Nat.lt_trichotomy child.position index with farther | same | nearer
  next =>
    rw [register_of_gt farther, register_merge_of_gt frame farther]
    rfl
  next =>
    subst same
    by_cases empty : child.labels = []
    next =>
      rw [merge_empty empty, register_position, empty]
      rfl
    next => exact merge_register_position frame empty label
  next =>
    have some : child.labels ≠ [] := fun empty => absurd (within empty) (by omega)
    have position := position_merge frame some
    rw [register_of_lt nearer, register_of_lt (by omega)]

theorem merge_registerAll (frame : Frame) (within : ∀ report ∈ reports, child.Within report.1) :
    frame.merge (child.registerAll reports) = (frame.merge child).registerAll reports := by
  induction reports generalizing child with
  | nil => rfl
  | cons report rest ih =>
    have here := within report List.mem_cons_self
    -- From the first label on the frame is not empty.
    have later : ∀ other ∈ rest, (child.register report.1 report.2).Within other.1 :=
      fun _ _ empty => absurd empty (labels_register here report.2)
    have folded := ih later
    rwa [merge_register frame here] at folded

/-- Labels may be collected in a frame of their own, provided that it begins no later than any of them:
folded into another frame, it leaves there exactly what registering them directly would. -/
theorem merge_nested (frame : Frame) (start : Nat) (reports : List (Nat × String))
    (beyond : ∀ report ∈ reports, start ≤ report.1) :
    frame.merge (registerAll { position := start } reports) = frame.registerAll reports := by
  have within : ∀ report ∈ reports, Within { position := start } report.1 :=
    fun report member _ => beyond report member
  rw [merge_registerAll frame within, merge_empty rfl]

theorem merge_nested_level :
    let reports := [(4, "y"), (6, "a"), (5, "z"), (6, "b"), (6, "c")]
    (∀ report ∈ reports, 4 ≤ report.1) ∧
      registerAll { position := 4 } reports = { position := 6, labels := ["a", "b", "c"] } ∧
      merge { position := 6, labels := ["b"] } { position := 6, labels := ["a", "b", "c"] } =
        registerAll { position := 6, labels := ["b"] } reports ∧
      registerAll { position := 6, labels := ["b"] } reports =
        { position := 6, labels := ["b", "a", "c"] } := by
  intro reports
  have beyond : ∀ report ∈ reports, 4 ≤ report.1 := by decide
  have merged := merge_nested { position := 6, labels := ["b"] } 4 reports beyond
  exact ⟨beyond, by decide, merged, by decide⟩

end Packrat.Farthest.Frame
