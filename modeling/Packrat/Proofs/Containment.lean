import Packrat.Proofs.Advance
import Packrat.Proofs.Replay

set_option autoImplicit false

namespace Packrat

open Ending (Exhausted)

variable {ν α β γ : Type}

def Signal.isReentry : Signal ν → Bool
  | .step _ _ (.reentered _) => true
  | _ => false

def reentries (journal : List (Signal ν)) : Nat :=
  journal.countP Signal.isReentry

theorem reentries_append (added journal : List (Signal ν)) :
    reentries (added ++ journal) = reentries added + reentries journal :=
  List.countP_append

theorem reentries_eq_zero {journal : List (Signal ν)} :
    reentries journal = 0 ↔
      ∀ call index seeded, .step call index (.reentered seeded) ∉ journal := by
  rw [reentries, List.countP_eq_zero]
  constructor
  next => exact fun none call index seeded member => none _ member rfl
  next =>
    intro absent signal member reentry
    cases signal with
    | step call index step =>
      cases step with
      | reentered seeded => exact absent call index seeded member
      | entering | checked | grew | stored | withheld | leaving | failed => cases reentry
    | bound | expected | allowed | rejected | broken => cases reentry

structure Ending.Precedes (part : Ending ν α) (whole : Ending ν β) : Prop where
  exhausted : part.Exhausted → whole.Exhausted
  journal : ∃ added, whole.machine.journal = added ++ part.machine.journal

namespace Ending

theorem Precedes.trans {first : Ending ν α} {second : Ending ν β} {third : Ending ν γ}
    (left : first.Precedes second) (right : second.Precedes third) : first.Precedes third where
  exhausted := right.exhausted ∘ left.exhausted
  journal := by
    obtain ⟨added, same⟩ := left.journal
    obtain ⟨more, equal⟩ := right.journal
    exact ⟨more ++ added, by rw [equal, same, List.append_assoc]⟩

theorem Leads.precedes {part : Ending ν α} {whole : Ending ν β} (leads : part.Leads whole) :
    part.Precedes whole :=
  ⟨leads.exhausted, leads.onward.journal⟩

end Ending

structure Machine.Unbroken (machine : Machine ν) (ending : Ending ν α) : Prop where
  whole : ¬ ending.Exhausted
  steady : reentries ending.machine.journal = reentries machine.journal

theorem Machine.Unbroken.part {outer inner : Machine ν} {part : Ending ν α} {whole : Ending ν β}
    (unbroken : outer.Unbroken whole) (since : ∃ added, inner.journal = added ++ outer.journal)
    (appended : ∃ added, part.machine.journal = added ++ inner.journal)
    (precedes : part.Precedes whole) : inner.Unbroken part where
  whole := unbroken.whole ∘ precedes.exhausted
  steady := by
    obtain ⟨before, first⟩ := since
    obtain ⟨added, second⟩ := appended
    obtain ⟨after, third⟩ := precedes.journal
    have steady := unbroken.steady
    rw [third, second, first] at steady
    rw [second, first]
    simp only [reentries_append] at steady ⊢
    omega

theorem Machine.Unbroken.error {machine after : Machine ν} {failure : Failure}
    (unbroken : machine.Unbroken (.error failure after : Ending ν β)) :
    machine.Unbroken (.error failure after : Ending ν α) :=
  ⟨by simpa using unbroken.whole, unbroken.steady⟩

structure Machine.Fit (Holds : Source → MemoTable ν → Prop) (machine : Machine ν) : Prop where
  sound : machine.Sound
  within : machine.cursor.index ≤ machine.source.size
  memo : Holds machine.source machine.memo

namespace Parser

variable {Holds : Source → MemoTable ν → Prop}

def Appends (parser : Parser ν α) : Prop :=
  ∀ machine : Machine ν, ∃ added,
    (Ending.machine (parser machine)).journal = added ++ machine.journal

theorem Orderly.appends {parser : Parser ν α} (orderly : Orderly parser) : Appends parser :=
  fun machine => (orderly machine).onward.journal

structure Preserves (Holds : Source → MemoTable ν → Prop) (parser : Parser ν α) : Prop where
  orderly : Orderly parser
  advances : Advances parser
  memo : ∀ machine : Machine ν, machine.Fit Holds → machine.Unbroken (parser machine) →
    Holds machine.source (Ending.machine (parser machine)).memo

theorem Preserves.fit {parser : Parser ν α} (preserves : Preserves Holds parser)
    {machine : Machine ν} (fit : machine.Fit Holds) (unbroken : machine.Unbroken (parser machine)) :
    (Ending.machine (parser machine)).Fit Holds := by
  have advanced := preserves.advances machine fit.sound
  refine ⟨advanced.sound, ?_, ?_⟩
  next =>
    rw [advanced.source]
    exact advanced.reaches.le_of_le (Nat.le_refl _) fit.within
  next =>
    rw [advanced.source]
    exact preserves.memo machine fit unbroken

structure Sees (Holds : Source → MemoTable ν → Prop) (part : Parser ν α) (inner : Machine ν)
    (whole : Parser ν β) (outer : Machine ν) : Prop where
  source : inner.source = outer.source
  config : inner.config = outer.config
  since : ∃ added, inner.journal = added ++ outer.journal
  precedes : Ending.Precedes (part inner) (whole outer)
  fit : outer.Fit Holds → outer.Unbroken (whole outer) → inner.Fit Holds

namespace Sees

variable {part : Parser ν α} {middle : Parser ν β} {whole : Parser ν γ}
  {inner between outer : Machine ν}

theorem unbroken (sees : Sees Holds part inner whole outer) (appends : Appends part)
    (unbroken : outer.Unbroken (whole outer)) : inner.Unbroken (part inner) :=
  unbroken.part sees.since (appends inner) sees.precedes

theorem trans (first : Sees Holds part inner middle between)
    (second : Sees Holds middle between whole outer) (appends : Appends middle) :
    Sees Holds part inner whole outer where
  source := first.source.trans second.source
  config := first.config.trans second.config
  since := by
    obtain ⟨added, same⟩ := first.since
    obtain ⟨more, equal⟩ := second.since
    exact ⟨added ++ more, by rw [same, equal, List.append_assoc]⟩
  precedes := first.precedes.trans second.precedes
  fit fit unbroken := first.fit (second.fit fit unbroken) (second.unbroken appends unbroken)

theorem start {before : Machine ν} (source : before.source = outer.source)
    (config : before.config = outer.config)
    (since : before.journal = outer.journal) (same : outer.Fit Holds → before.Fit Holds)
    (leads : Ending.Leads (part before) (whole outer)) : Sees Holds part before whole outer where
  source := source
  config := config
  since := ⟨[], since⟩
  precedes := leads.precedes
  fit fit _ := same fit

variable {first : Parser ν α} {found : α → Parser ν β} {missed : Mismatch → Parser ν β}

theorem bind_first (orderly : ∀ value, Orderly (found value)) (machine : Machine ν) :
    Sees Holds first machine (first >>= found) machine :=
  start rfl rfl rfl id (leads_bind orderly machine)

theorem next {parser : Parser ν β} {whole : Parser ν α} (preserves : Preserves Holds parser)
    (orderly : Orderly part) {value : β} {machine after : Machine ν}
    (ran : parser machine = .ok value after)
    (same : whole machine = part after) : Sees Holds part after whole machine := by
  have later := preserves.orderly machine
  rw [ran] at later
  have precedes : Ending.Precedes (parser machine) (whole machine) := by
    rw [same, ran]
    exact ⟨by simp, (orderly after).onward.journal⟩
  refine ⟨later.source, later.config, later.onward.journal, ?_, fun fit unbroken => ?_⟩
  next => rw [same]; exact ⟨id, [], rfl⟩
  next =>
    have own := unbroken.part ⟨[], rfl⟩ (preserves.orderly.appends machine) precedes
    simpa [ran] using preserves.fit fit own

theorem back {parser : Parser ν β} {whole : Parser ν α} (preserves : Preserves Holds parser)
    (orderly : Orderly part) {failure : Failure} {machine after : Machine ν}
    (ran : parser machine = .error failure after)
    (recoverable : failure.recoverable = true)
    (same : whole machine = part (after.moveTo machine.cursor)) :
    Sees Holds part (after.moveTo machine.cursor) whole machine := by
  have later := preserves.orderly machine
  rw [ran] at later
  have precedes : Ending.Precedes (parser machine) (whole machine) := by
    rw [same, ran]
    refine ⟨fun exhausted => ?_, (orderly _).onward.journal⟩
    rw [Ending.exhausted_error] at exhausted
    subst exhausted
    cases recoverable
  refine ⟨later.source, later.config, later.onward.journal, ?_, fun fit unbroken => ?_⟩
  next => rw [same]; exact ⟨id, [], rfl⟩
  next =>
    have own := unbroken.part ⟨[], rfl⟩ (preserves.orderly.appends machine) precedes
    have fits := preserves.fit fit own
    rw [ran] at fits
    refine ⟨{ fits.sound with }, ?_, fits.memo⟩
    have source : after.source = machine.source := later.source
    simpa [Machine.moveTo, source] using fit.within

theorem branch_first (matched : ∀ value, Orderly (found value))
    (unmatched : ∀ mismatch, Orderly (missed mismatch)) (machine : Machine ν) :
    Sees Holds first machine (branch first found missed) machine :=
  start rfl rfl rfl id (leads_branch matched unmatched machine)

theorem pushFrame (machine : Machine ν) (index : Nat)
    (leads : Ending.Leads (part (machine.pushFrame index)) (whole machine)) :
    Sees Holds part (machine.pushFrame index) whole machine :=
  start rfl rfl rfl (fun fit => ⟨{ fit.sound with }, fit.within, fit.memo⟩) leads

theorem atLevel (part : Parser ν α) (level : Int32) (machine : Machine ν) :
    Sees Holds part (machine.setLevel level) (atLevel level part) machine :=
  start rfl rfl rfl (fun fit => ⟨{ fit.sound with }, fit.within, fit.memo⟩)
    (leads_atLevel level machine)

end Sees

theorem Preserves.stop : Preserves Holds (fail .exhausted : Parser ν α) where
  orderly := orderly_stop
  advances := advances_stop
  memo _ fit _ := fit.memo

theorem preserves_blocks : Closed (ν := ν) fun _ parser => Preserves Holds parser where
  leaf {_ act} forward :=
    { orderly := orderly_blocks.leaf forward
      advances := advances_blocks.leaf forward
      memo := by
        intro machine fit _
        rw [machine_leaf]
        cases (act machine.source machine.cursor).label <;> exact fit.memo }
  bind {_ _ first next} preserves continued :=
    { orderly := orderly_blocks.bind preserves.orderly fun value => (continued value).orderly
      advances := advances_blocks.bind preserves.advances fun value => (continued value).advances
      memo := by
        intro machine fit unbroken
        have source := (preserves.orderly machine).source
        cases ran : first machine with
        | ok value after =>
          have sees : Sees Holds (next value) after (first >>= next) machine :=
            .next preserves (continued value).orderly ran (by rw [bind_apply, ran])
          have last := (continued value).memo after (sees.fit fit unbroken)
            (sees.unbroken (continued value).orderly.appends unbroken)
          rw [ran] at source
          rw [bind_apply, ran]
          exact source ▸ last
        | error failure after =>
          have same : (first >>= next) machine = .error failure after := by rw [bind_apply, ran]
          have last := preserves.memo machine fit (ran ▸ Machine.Unbroken.error (same ▸ unbroken))
          rw [ran] at last
          rw [same]
          exact last }
  branch {_ _ first found missed} preserves matched unmatched :=
    { orderly := orderly_blocks.branch preserves.orderly (fun value => (matched value).orderly)
        fun mismatch => (unmatched mismatch).orderly
      advances := advances_blocks.branch preserves.advances (fun value => (matched value).advances)
        fun mismatch => (unmatched mismatch).advances
      memo := by
        intro machine fit unbroken
        have source := (preserves.orderly machine).source
        cases ran : first machine with
        | ok value after =>
          have sees : Sees Holds (found value) after (branch first found missed) machine :=
            .next preserves (matched value).orderly ran (by rw [branch, ran])
          have last := (matched value).memo after (sees.fit fit unbroken)
            (sees.unbroken (matched value).orderly.appends unbroken)
          rw [ran] at source
          rw [branch, ran]
          exact source ▸ last
        | error failure after =>
          by_cases recoverable : failure.recoverable = true
          next =>
            have sees : Sees Holds (missed ⟨failure, recoverable⟩) (after.moveTo machine.cursor)
                (branch first found missed) machine :=
              .back preserves (unmatched _).orderly ran recoverable
                (by simp [branch, ran, recoverable])
            have last := (unmatched ⟨failure, recoverable⟩).memo _ (sees.fit fit unbroken)
              (sees.unbroken (unmatched _).orderly.appends unbroken)
            rw [ran] at source
            simp only [branch, ran, recoverable, dite_true]
            exact source ▸ last
          next =>
            have same : branch first found missed machine = .error failure after := by
              simp [branch, ran, recoverable]
            have last := preserves.memo machine fit (ran ▸ Machine.Unbroken.error (same ▸ unbroken))
            rw [ran] at last
            rw [same]
            exact last }
  ahead {_ parser} preserves :=
    { orderly := orderly_blocks.ahead preserves.orderly
      advances := advances_blocks.ahead preserves.advances
      memo := by
        intro machine fit unbroken
        have sees : Sees Holds parser machine (ahead parser) machine :=
          .start rfl rfl rfl id (leads_ahead machine)
        have last := preserves.memo machine fit (sees.unbroken preserves.orderly.appends unbroken)
        unfold ahead
        cases ran : parser machine with
        | ok value after =>
          rw [ran] at last
          exact last
        | error failure after =>
          rw [ran] at last
          simp only
          split <;> exact last }
  notHere {_ parser} label preserves :=
    { orderly := orderly_blocks.notHere label preserves.orderly
      advances := advances_blocks.notHere label preserves.advances
      memo := by
        intro machine fit unbroken
        have sees : Sees Holds parser (machine.pushFrame machine.cursor.index)
            (notHere label parser) machine :=
          .pushFrame machine _ (leads_notHere parser label machine)
        have last := preserves.memo _ (sees.fit fit unbroken)
          (sees.unbroken preserves.orderly.appends unbroken)
        simp only [notHere]
        cases ran : parser (machine.pushFrame machine.cursor.index) with
        | ok value after =>
          rw [ran] at last
          exact last
        | error failure after =>
          rw [ran] at last
          simp only
          split <;> exact last }
  isolated {_ parser} preserves :=
    { orderly := orderly_blocks.isolated preserves.orderly
      advances := advances_blocks.isolated preserves.advances
      memo := by
        intro machine fit unbroken
        have sees : Sees Holds parser (machine.pushFrame machine.cursor.index)
            (isolated parser) machine :=
          .pushFrame machine _ (leads_isolated parser machine)
        have last := preserves.memo _ (sees.fit fit unbroken)
          (sees.unbroken preserves.orderly.appends unbroken)
        unfold isolated
        cases ran : parser (machine.pushFrame machine.cursor.index) with
        | ok value after =>
          rw [ran] at last
          exact last
        | error failure after =>
          rw [ran] at last
          simp only
          split <;> exact last }
  atLevel {_ parser} level preserves :=
    { orderly := orderly_blocks.atLevel level preserves.orderly
      advances := advances_blocks.atLevel level preserves.advances
      memo := by
        intro machine fit unbroken
        have sees : Sees Holds parser (machine.setLevel level) (Parser.atLevel level parser)
            machine := .atLevel parser level machine
        have last := preserves.memo _ (sees.fit fit unbroken)
          (sees.unbroken preserves.orderly.appends unbroken)
        unfold Parser.atLevel
        cases ran : parser (machine.setLevel level) with
        | ok value after | error failure after =>
          rw [ran] at last
          exact last }

section Loops

variable {sub : γ → Parser ν α} {part : γ} {before after : List γ} {machine middle : Machine ν}

theorem bind_eq_ok {first : Parser ν α} {next : α → Parser ν β} {value : β}
    (ran : (first >>= next) machine = .ok value middle) :
    ∃ found between, first machine = .ok found between ∧ next found between = .ok value middle := by
  rw [bind_apply] at ran
  cases ended : first machine with
  | ok found between =>
    rw [ended] at ran
    exact ⟨found, between, rfl, ran⟩
  | error failure between =>
    rw [ended] at ran
    cases ran

theorem sees_sequence (preserves : ∀ item ∈ before ++ part :: after, Preserves Holds (sub item))
    {values : List α} (ran : sequence (before.map sub) machine = .ok values middle) :
    Sees Holds (sub part) middle (sequence ((before ++ part :: after).map sub)) machine := by
  have continued (value : α) (values : List α) : Orderly (ν := ν) (pure (value :: values)) :=
    orderly_blocks.pure _
  induction before generalizing machine values with
  | nil =>
    cases ran
    have rest : Orderly (sequence (after.map sub)) :=
      orderly_blocks.sequence fun item member => (preserves item (by simp [member])).orderly
    exact .bind_first (fun value => orderly_blocks.bind rest (continued value)) middle
  | cons first before ih =>
    obtain ⟨value, between, matched, rest⟩ := bind_eq_ok ran
    obtain ⟨others, last, others_ran, same⟩ := bind_eq_ok rest
    cases same
    have inside (item : γ) (member : item ∈ before ++ part :: after) : Preserves Holds (sub item) :=
      preserves item (List.mem_cons_of_mem first member)
    have orderly : Orderly (sequence ((before ++ part :: after).map sub)) :=
      orderly_blocks.sequence fun item member => (inside item member).orderly
    have followed := orderly_blocks.bind orderly (continued value)
    refine ((ih inside others_ran).trans (.bind_first (continued value) between)
      orderly.appends).trans ?_ followed.appends
    refine .next (preserves first (by simp)) followed matched ?_
    change (sub first >>= fun value => sequence ((before ++ part :: after).map sub) >>= fun values =>
      pure (value :: values)) machine = _
    rw [bind_apply, matched]

theorem sees_choice (preserves : ∀ item ∈ before ++ part :: after, Preserves Holds (sub item))
    {failure : Failure} (failed : choice (before.map sub) machine = .error failure middle)
    (recoverable : failure.recoverable = true) :
    Sees Holds (sub part) middle (choice ((before ++ part :: after).map sub)) machine := by
  induction before generalizing machine with
  | nil =>
    cases failed
    have rest : Orderly (choice (after.map sub)) :=
      orderly_blocks.choice fun item member => (preserves item (by simp [member])).orderly
    rw [List.nil_append, List.map_cons, choice_cons]
    exact .branch_first (fun _ => orderly_blocks.pure _) (fun _ => rest) middle
  | cons first before ih =>
    have inside (item : γ) (member : item ∈ before ++ part :: after) : Preserves Holds (sub item) :=
      preserves item (List.mem_cons_of_mem first member)
    have orderly : Orderly (choice ((before ++ part :: after).map sub)) :=
      orderly_blocks.choice fun item member => (inside item member).orderly
    rw [List.map_cons, choice_cons, branch] at failed
    cases ended : sub first machine with
    | ok value between =>
      rw [ended] at failed
      cases failed
    | error missed between =>
      rw [ended] at failed
      by_cases again : missed.recoverable = true
      next =>
        simp only [again, dite_true] at failed
        refine (ih inside failed).trans ?_ orderly.appends
        refine .back (preserves first (by simp)) orderly ended again ?_
        rw [List.cons_append, List.map_cons, choice_cons, branch, ended]
        simp only [again, dite_true]
      next =>
        simp only [again] at failed
        cases failed
        exact absurd recoverable again

theorem sees_times {parser : Parser ν α} (preserves : Preserves Holds parser) {done n : Nat}
    (left : done < n) {values : List α} (ran : times parser done machine = .ok values middle) :
    Sees Holds parser middle (times parser n) machine := by
  have whole (n : Nat) : Orderly (times parser n) := orderly_blocks.times preserves.orderly n
  have continued (value : α) (values : List α) : Orderly (ν := ν) (pure (value :: values)) :=
    orderly_blocks.pure _
  induction done generalizing n machine values with
  | zero =>
    cases ran
    obtain ⟨n, rfl⟩ : ∃ less, n = less + 1 := ⟨n - 1, by omega⟩
    exact .bind_first (fun value => orderly_blocks.bind (whole n) (continued value)) middle
  | succ done ih =>
    obtain ⟨value, between, matched, rest⟩ := bind_eq_ok ran
    obtain ⟨others, last, others_ran, same⟩ := bind_eq_ok rest
    cases same
    obtain ⟨n, rfl⟩ : ∃ less, n = less + 1 := ⟨n - 1, by omega⟩
    have followed := orderly_blocks.bind (whole n) (continued value)
    refine ((ih (by omega) others_ran).trans (.bind_first (continued value) between)
      (whole n).appends).trans ?_ followed.appends
    refine .next preserves followed matched ?_
    change (parser >>= fun value => _ >>= fun values => pure (value :: values)) machine = _
    rw [bind_apply, matched]

inductive Repeats (parser : Parser ν α) : Nat → Machine ν → Machine ν → Prop
  | none (machine : Machine ν) : Repeats parser 0 machine machine
  | next {n : Nat} {start middle last : Machine ν} {value : α}
      (matched : parser start = .ok value middle) (moved : middle.cursor.index ≠ start.cursor.index)
      (rest : Repeats parser n middle last) : Repeats parser (n + 1) start last

theorem sees_many {parser : Parser ν α} (preserves : Preserves Holds parser) {done n : Nat}
    (left : done < n) (repeats : Repeats parser done machine middle) :
    Sees Holds parser middle (many parser n) machine := by
  have whole (n : Nat) : Orderly (many parser n) := orderly_blocks.many orderly_stop preserves.orderly n
  have continued (value : α) (values : List α) : Orderly (ν := ν) (pure (value :: values)) :=
    orderly_blocks.pure _
  induction repeats generalizing n with
  | none machine =>
    obtain ⟨n, rfl⟩ : ∃ less, n = less + 1 := ⟨n - 1, by omega⟩
    have found (value : α) : Orderly (ν := ν) (look (fun _ cursor => cursor.index) >>= fun stop =>
        if stop = machine.cursor.index then pure [value]
        else many parser n >>= fun values => pure (value :: values)) := by
      refine orderly_blocks.bind (orderly_blocks.structural.look _) fun stop => ?_
      split
      next => exact continued value []
      next => exact orderly_blocks.bind (whole n) (continued value)
    have missed (mismatch : Mismatch) : Orderly (ν := ν) (α := List α) (pure []) :=
      orderly_blocks.pure []
    refine .trans (.branch_first found missed machine) (.start rfl rfl rfl id ?_)
      (orderly_blocks.branch preserves.orderly found missed).appends
    rw [many_succ, bind_look]
    exact ⟨id, (Machine.Later.refl _).onward⟩
  | @next done start between last value matched moved _ ih =>
    obtain ⟨n, rfl⟩ : ∃ less, n = less + 1 := ⟨n - 1, by omega⟩
    have followed := orderly_blocks.bind (whole n) (continued value)
    refine ((ih (by omega)).trans (.bind_first (continued value) between) (whole n).appends).trans ?_
      followed.appends
    refine .next preserves followed matched ?_
    rw [many_succ, bind_look, branch, matched]
    simp only [bind_look, moved, if_false]

end Loops

section Invoke

variable {codec : Codec ν α} {call : Call} {body : Parser ν α} {machine start middle : Machine ν}

/-- The machine on which the body of a call begins to run, unless the memo table or an activation
answers the call. -/
def begins? (call : Call) (memoized : Bool) (machine : Machine ν) : Option (Machine ν) :=
  if memoized && (machine.memo.find? call).isSome then none
  else if (machine.active.find? call).isSome then none
  else some (opened call (if memoized then machine.report call (.checked false) else machine))

/-- So many seeds were stored on the way from one run of a body to a later one. -/
inductive Regrows (codec : Codec ν α) (call : Call) (body : Parser ν α) :
    Nat → Machine ν → Machine ν → Prop
  | none (machine : Machine ν) : Regrows codec call body 0 machine machine
  | next {n : Nat} {start middle last : Machine ν}
      (again : round codec call (body start) = .again middle)
      (rest : Regrows codec call body n middle last) : Regrows codec call body (n + 1) start last

theorem answer_begun (codec : Codec ν α) (body : Parser ν α) {memoized : Bool}
    (begun : begins? call memoized machine = some start) (n : Nat) :
    answer codec call memoized body n machine =
      close codec call memoized (grow codec call body n start) := by
  unfold begins? at begun
  unfold answer evaluate
  cases memoized with
  | false =>
    cases active : machine.active.find? call with
    | none =>
      simp [active] at begun
      simp [activate_eq, begun]
    | some activation => simp [active] at begun
  | true =>
    cases found : machine.memo.find? call with
    | some verdict => simp [found] at begun
    | none =>
      have same : (machine.report call (.checked false)).active = machine.active := rfl
      cases active : machine.active.find? call with
      | none =>
        simp [found, active] at begun
        simp [same, active, activate_eq, begun]
      | some activation => simp [found, active] at begun

/-- A call that does not begin to run its body is answered in one step. -/
theorem answer_idle {memoized : Bool} (idle : begins? call memoized machine = none) (codec : Codec ν α)
    (body : Parser ν α) (n : Nat) :
    (memoized = true ∧ (machine.memo.find? call).isSome = true ∧
      (Ending.machine (answer codec call memoized body n machine)).journal =
        .step call machine.cursor.index (.checked true) :: machine.journal) ∨
    ((machine.active.find? call).isSome = true ∧
      ∃ seeded, (Ending.machine (answer codec call memoized body n machine)).journal =
        .step call machine.cursor.index (.reentered seeded) ::
          (if memoized then machine.report call (.checked false) else machine).journal) := by
  have reentered (asked : Machine ν) (active : (asked.active.find? call).isSome = true) :
      ∃ seeded, (Ending.machine (evaluate codec call memoized body n asked)).journal =
        .step call asked.cursor.index (.reentered seeded) :: asked.journal := by
    obtain ⟨activation, found⟩ := Option.isSome_iff_exists.mp active
    obtain ⟨cursor, ran⟩ := machine_reenter codec call activation asked
    refine ⟨activation.seed.isSome, ?_⟩
    rw [evaluate, found]
    exact congrArg Machine.journal ran
  unfold begins? at idle
  unfold answer
  cases memoized with
  | false =>
    have active : (machine.active.find? call).isSome = true := by
      simpa [Option.isSome_iff_ne_none] using idle
    exact .inr ⟨active, reentered machine active⟩
  | true =>
    simp only [if_true]
    cases found : machine.memo.find? call with
    | some verdict =>
      refine .inl ⟨trivial, rfl, ?_⟩
      rw [machine_replay]
      rfl
    | none =>
      have active : (machine.active.find? call).isSome = true := by
        simpa [found, Option.isSome_iff_ne_none] using idle
      exact .inr ⟨active, reentered (machine.report call (.checked false)) active⟩

theorem begun_eq {memoized : Bool} (begun : begins? call memoized machine = some start) :
    start = opened call (if memoized then machine.report call (.checked false) else machine) := by
  unfold begins? at begun
  split at begun
  next => cases begun
  next =>
    split at begun
    next => cases begun
    next => exact (Option.some.inj begun).symm

theorem opened_of_begun {memoized : Bool} (begun : begins? call memoized machine = some start) :
    ∃ asked, start = opened call asked ∧
      (asked = machine ∨ asked = machine.report call (.checked false)) := by
  refine ⟨_, begun_eq begun, ?_⟩
  split
  next => exact .inr rfl
  next => exact .inl rfl

theorem memo_round (codec : Codec ν α) (call : Call) (ending : Ending ν α) :
    (round codec call ending).machine.memo = ending.machine.memo := by
  cases ending with
  | error failure after =>
    simp only [round]
    repeat' split
    all_goals first | rfl | (rw [Round.machine, machine_useSeed]; rfl)
  | ok value after =>
    simp only [round]
    repeat' split
    all_goals first | rfl | (rw [Round.machine, machine_useSeed]; rfl)

theorem precedes_close (codec : Codec ν α) (call : Call) (memoized : Bool) (ending : Ending ν α) :
    ending.Precedes (close codec call memoized ending) :=
  ⟨(exhausted_close codec call memoized ending).mpr, journal_close codec call memoized ending⟩

theorem sees_regrown (preserves : Preserves Holds body) (origin : start.cursor = call.cursor)
    (own : start.calls.head? = some call) {done n : Nat} (left : done < n)
    (regrows : Regrows codec call body done start middle) :
    Sees Holds body middle (grow codec call body n) start := by
  have appends (n : Nat) : Appends (grow codec call body n) :=
    fun machine => (inside_grow preserves.orderly n machine).onward.journal
  induction regrows generalizing n with
  | none machine =>
    obtain ⟨n, rfl⟩ : ∃ less, n = less + 1 := ⟨n - 1, by omega⟩
    exact .start rfl rfl rfl id (leads_grow preserves.orderly n machine)
  | @next done start between last again _ ih =>
    obtain ⟨n, rfl⟩ : ∃ less, n = less + 1 := ⟨n - 1, by omega⟩
    have ran : (Ending.machine (body start)).calls.head? = some call :=
      (preserves.orderly start).calls ▸ own
    have inside := (preserves.orderly start).inside.trans (inside_round codec call (body start))
    have stored := memo_round codec call (body start)
    rw [again] at inside stored
    have sees := ih (cursor_of_again again) (inside.calls.symm ▸ own) (by omega : done < n)
    refine sees.trans ⟨inside.source, inside.config, inside.onward.journal, ?_,
      fun fit unbroken => ?_⟩ (appends n)
    next =>
      rw [grow_succ, again]
      exact ⟨id, [], rfl⟩
    next =>
      have first : start.Unbroken (body start) :=
        unbroken.part ⟨[], rfl⟩ (preserves.orderly.appends start)
          (leads_grow preserves.orderly n start).precedes
      have advanced := advanced_round codec (preserves.advances start fit.sound) origin ran
      rw [again] at advanced
      have source : between.source = start.source := advanced.source
      refine ⟨advanced.sound, ?_, ?_⟩
      next => exact source ▸ advanced.reaches.le_of_le (Nat.le_refl _) fit.within
      next =>
        have memo : between.memo = (Ending.machine (body start)).memo := stored
        exact source ▸ memo ▸ preserves.memo start fit first

theorem sees_body {rule : Rule} {args : List Arg} (preserves : Preserves Holds body)
    (begun : begins? (callOf rule args machine) (rule.memoized && machine.config.memoize)
      (machine.report (callOf rule args machine) .entering) = some start)
    {done n : Nat} (left : done < n)
    (regrows : Regrows codec (callOf rule args machine) body done start middle) :
    Sees Holds body middle (invoke codec rule args body n) machine := by
  let call := callOf rule args machine
  have answered := answer_begun codec body begun n
  obtain ⟨asked, rfl, same⟩ := opened_of_begun begun
  have origin : (opened call asked).cursor = call.cursor := by rcases same with rfl | rfl <;> rfl
  have asked_since : ∃ added, asked.journal = added ++ machine.journal := by
    rcases same with rfl | rfl
    next => exact ⟨[_], rfl⟩
    next => exact ⟨[_, _], rfl⟩
  have asked_fit (fit : machine.Fit Holds) : asked.Fit Holds := by
    rcases same with rfl | rfl <;> exact ⟨{ fit.sound with }, fit.within, fit.memo⟩
  have source : asked.source = machine.source := by rcases same with rfl | rfl <;> rfl
  have config : asked.config = machine.config := by rcases same with rfl | rfl <;> rfl
  refine (sees_regrown preserves origin rfl left regrows).trans
    ⟨source, config, asked_since, ?_, fun fit _ => ?_⟩ fun machine =>
      (inside_grow preserves.orderly n machine).onward.journal
  next =>
    rw [invoke_eq, answered]
    exact (precedes_close codec call _ _).trans (leads_reported codec call _).precedes
  next =>
    have fits := asked_fit fit
    exact ⟨sound_opened fits.sound call, fits.within, fits.memo⟩

end Invoke

end Parser

end Packrat
