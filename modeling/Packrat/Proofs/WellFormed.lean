import Packrat.Proofs.Termination

set_option autoImplicit false

namespace Packrat

variable {ν : Type}

structure Source.Onward (source : Source) (start stop : Cursor) : Prop where
  level : stop.level = start.level
  index : start.index ≤ stop.index
  boundary : Text.Boundary source.chars stop.index

namespace Source.Onward

variable {source : Source} {start middle stop : Cursor}

theorem stay (boundary : Text.Boundary source.chars start.index) : source.Onward start start :=
  ⟨rfl, Nat.le_refl _, boundary⟩

theorem trans (first : source.Onward start middle) (second : source.Onward middle stop) :
    source.Onward start stop :=
  ⟨second.level.trans first.level, Nat.le_trans first.index second.index, second.boundary⟩

theorem le_size (onward : source.Onward start stop) : stop.index ≤ source.size := by
  have within := onward.boundary.le_size
  rwa [← source.size_eq] at within

theorem of_reaches (reaches : source.Reaches start stop)
    (boundary : Text.Boundary source.chars start.index) : source.Onward start stop := by
  have within := boundary.le_size
  rw [← source.size_eq] at within
  exact ⟨reaches.level, reaches.index_le within, reaches.boundary boundary⟩

theorem reaches (onward : source.Onward start stop) : source.Reaches start stop where
  level := onward.level
  index := by
    have within := onward.le_size
    have index := onward.index
    omega
  boundary _ := onward.boundary

end Source.Onward

namespace Farthest

structure Frame.Proper (source : Source) (frame : Frame) : Prop where
  boundary : Text.Boundary source.chars frame.position
  distinct : frame.labels.Nodup

theorem nodup_addLabel {labels : List String} (distinct : labels.Nodup) (label : String) :
    (Frame.addLabel labels label).Nodup := by
  unfold Frame.addLabel
  split
  next => exact distinct
  next absent =>
    refine List.nodup_append.mpr ⟨distinct, by simp, fun other member last inside => ?_⟩
    rw [List.mem_singleton] at inside
    rintro rfl
    exact absent (inside ▸ member)

theorem nodup_addLabels {labels : List String} (distinct : labels.Nodup) (others : List String) :
    (others.foldl Frame.addLabel labels).Nodup := by
  induction others generalizing labels with
  | nil => exact distinct
  | cons label others ih => exact ih (nodup_addLabel distinct label)

namespace Frame.Proper

variable {source : Source} {frame other : Frame} {index : Nat}

theorem empty (boundary : Text.Boundary source.chars index) :
    Frame.Proper source { position := index } :=
  ⟨boundary, .nil⟩

theorem register (proper : frame.Proper source) (boundary : Text.Boundary source.chars index)
    (label : String) : (frame.register index label).Proper source := by
  unfold Frame.register
  split
  next => exact ⟨boundary, by simp⟩
  next =>
    split
    next => exact ⟨proper.boundary, nodup_addLabel proper.distinct label⟩
    next => exact proper

theorem merge (proper : frame.Proper source) (properOther : other.Proper source) :
    (frame.merge other).Proper source := by
  unfold Frame.merge
  split
  next => exact proper
  next =>
    split
    next => exact properOther
    next =>
      split
      next => exact ⟨proper.boundary, nodup_addLabels proper.distinct other.labels⟩
      next => exact proper

end Frame.Proper

structure Stack.Proper (source : Source) (stack : Stack) : Prop where
  innermost : stack.innermost.Proper source
  outer : ∀ frame ∈ stack.outer, frame.Proper source

namespace Stack.Proper

variable {source : Source} {stack : Stack} {frame : Frame} {index : Nat}

theorem register (proper : stack.Proper source) (boundary : Text.Boundary source.chars index)
    (label : String) : (stack.register index label).Proper source :=
  ⟨proper.innermost.register boundary label, proper.outer⟩

theorem merge (proper : stack.Proper source) (properFrame : frame.Proper source) :
    (stack.merge frame).Proper source :=
  ⟨proper.innermost.merge properFrame, proper.outer⟩

theorem push (proper : stack.Proper source) (boundary : Text.Boundary source.chars index) :
    (stack.push index).Proper source :=
  ⟨.empty boundary, List.forall_mem_cons.mpr ⟨proper.innermost, proper.outer⟩⟩

theorem pop (proper : stack.Proper source) : stack.pop.2.Proper source := by
  unfold Stack.pop
  cases around : stack.outer with
  | nil => exact ⟨.empty (.zero source.chars), by simp⟩
  | cons next outer =>
    have inside := proper.outer
    rw [around, List.forall_mem_cons] at inside
    exact ⟨inside.1, inside.2⟩

theorem popMerge (proper : stack.Proper source) : stack.popMerge.2.Proper source := by
  have popped : stack.pop.1 = stack.innermost := by
    unfold Stack.pop
    cases stack.outer <;> rfl
  rw [Stack.popMerge, popped]
  exact proper.pop.merge proper.innermost

end Stack.Proper

end Farthest

structure Verdict.Proper (source : Source) (call : Call) (verdict : Verdict ν) : Prop where
  onward : source.Onward call.cursor verdict.cursor
  failed : ∀ failure, verdict.outcome = .error failure → verdict.cursor = call.cursor
  frame : verdict.frame.Proper source
  whole : verdict.outcome ≠ .error .exhausted

structure Machine.WellFormed (machine : Machine ν) : Prop where
  cursor : Text.Boundary machine.source.chars machine.cursor.index
  farthest : machine.farthest.Proper machine.source
  memo : ∀ {call verdict}, machine.memo.find? call = some verdict →
    verdict.Proper machine.source call
  seeds : ∀ {activation seed}, activation ∈ machine.active.activations →
    activation.seed = some seed → machine.source.Onward activation.call.cursor seed.cursor

structure Machine.Proceeds (before after : Machine ν) : Prop where
  wellFormed : after.WellFormed
  source : after.source = before.source
  onward : before.source.Onward before.cursor after.cursor

namespace Machine

variable {before middle after machine : Machine ν} {index : Nat} {cursor : Cursor}

namespace WellFormed

theorem start (source : Source) (config : Config) : (start source config : Machine ν).WellFormed where
  cursor := .zero source.chars
  farthest := ⟨.empty (.zero source.chars), by simp [Machine.start]⟩
  memo found := by simp [Machine.start, MemoTable.find?_eq, MemoTable.entries] at found
  seeds member := by simp [Machine.start] at member

theorem sound (wellFormed : machine.WellFormed) : machine.Sound where
  final found := (wellFormed.memo found).whole
  memo found := (wellFormed.memo found).onward.reaches
  seeds member seeded := (wellFormed.seeds member seeded).reaches

theorem moveTo (wellFormed : machine.WellFormed)
    (boundary : Text.Boundary machine.source.chars cursor.index) :
    (machine.moveTo cursor).WellFormed :=
  { wellFormed with cursor := boundary }

theorem register (wellFormed : machine.WellFormed)
    (boundary : Text.Boundary machine.source.chars index) (label : String) :
    (machine.register index label).WellFormed :=
  { wellFormed with farthest := wellFormed.farthest.register boundary label }

theorem pushFrame (wellFormed : machine.WellFormed) :
    (machine.pushFrame machine.cursor.index).WellFormed :=
  { wellFormed with farthest := wellFormed.farthest.push wellFormed.cursor }

theorem setLevel (wellFormed : machine.WellFormed) (level : Int32) :
    (machine.setLevel level).WellFormed :=
  { wellFormed with }

theorem follows (wellFormed : machine.WellFormed) {active : Active ν}
    (follows : List.Forall₂ Activation.Follows machine.active.activations active.activations) :
    WellFormed { machine with active } where
  __ := wellFormed
  seeds member seeded := by
    obtain ⟨former, present, same⟩ := Activation.exists_former follows member
    rw [same.call]
    exact wellFormed.seeds present (same.seed ▸ seeded)

end WellFormed

namespace Proceeds

theorem stay (wellFormed : machine.WellFormed) : machine.Proceeds machine :=
  ⟨wellFormed, rfl, .stay wellFormed.cursor⟩

theorem trans (first : before.Proceeds middle) (second : middle.Proceeds after) :
    before.Proceeds after where
  wellFormed := second.wellFormed
  source := second.source.trans first.source
  onward := first.onward.trans (first.source ▸ second.onward)

theorem moveTo (proceeds : before.Proceeds after)
    (onward : before.source.Onward before.cursor cursor) : before.Proceeds (after.moveTo cursor) where
  wellFormed := proceeds.wellFormed.moveTo (proceeds.source ▸ onward.boundary)
  source := proceeds.source
  onward := onward

theorem back (proceeds : before.Proceeds after) (start : before.WellFormed) :
    before.Proceeds (after.moveTo before.cursor) :=
  proceeds.moveTo (.stay start.cursor)

theorem register (proceeds : before.Proceeds after)
    (boundary : Text.Boundary before.source.chars index) (label : String) :
    before.Proceeds (after.register index label) :=
  { proceeds with
    wellFormed := proceeds.wellFormed.register (proceeds.source ▸ boundary) label }

theorem report (proceeds : before.Proceeds after) (call : Call) (step : Step ν) :
    before.Proceeds (after.report call step) :=
  { proceeds with wellFormed := { proceeds.wellFormed with } }

theorem dropFrame (proceeds : (before.pushFrame index).Proceeds after) :
    before.Proceeds after.dropFrame :=
  { proceeds with
    wellFormed := { proceeds.wellFormed with farthest := proceeds.wellFormed.farthest.pop } }

end Proceeds

end Machine

namespace Parser

variable {α : Type}

def Keeps (parser : Parser ν α) : Prop :=
  ∀ machine : Machine ν, machine.WellFormed → machine.Proceeds (Ending.machine (parser machine))

theorem keeps_fail (failure : Failure) : Keeps (fail failure : Parser ν α) :=
  fun _ wellFormed => .stay wellFormed

theorem keeps_leaf {act : Source → Cursor → Move α} (forward : Forward act)
    (anchored : Anchored act) : Keeps (ν := ν) (leaf act) := by
  intro machine wellFormed
  rw [machine_leaf]
  have moved := (Machine.Proceeds.stay wellFormed).moveTo
    (.of_reaches (forward machine.source machine.cursor) wellFormed.cursor)
  cases labelled : (act machine.source machine.cursor).label with
  | none => exact moved
  | some label =>
    have reached := anchored machine.source machine.cursor _ _ labelled
    exact moved.register (reached.boundary wellFormed.cursor) _

theorem keeps_branch {β : Type} {parser : Parser ν α} {found : α → Parser ν β}
    {missed : Mismatch → Parser ν β} (keeps : Keeps parser) (matched : ∀ value, Keeps (found value))
    (unmatched : ∀ mismatch, Keeps (missed mismatch)) : Keeps (branch parser found missed) := by
  intro machine wellFormed
  have first := keeps machine wellFormed
  unfold branch
  cases ending : parser machine with
  | ok value after =>
    rw [ending] at first
    exact first.trans (matched value after first.wellFormed)
  | error failure after =>
    rw [ending] at first
    by_cases recoverable : failure.recoverable = true
    next =>
      simp only [recoverable, dite_true]
      have back := first.back wellFormed
      exact back.trans (unmatched ⟨failure, recoverable⟩ _ back.wellFormed)
    next => simpa [recoverable] using first

theorem keeps_attempt {parser : Parser ν α} (keeps : Keeps parser) : Keeps (attempt parser) := by
  rw [attempt_eq]
  apply keeps_branch keeps
  next => exact fun value machine wellFormed => .stay wellFormed
  next => exact fun mismatch machine wellFormed => .stay wellFormed

theorem keeps_structural : Structural (ν := ν) fun _ parser _ => Keeps parser where
  leaf := keeps_leaf
  bind {_ _ parser _ next _} keeps continued machine wellFormed := by
    have first := keeps machine wellFormed
    rw [bind_apply]
    cases ending : parser machine with
    | ok value after =>
      rw [ending] at first
      exact first.trans (continued value after first.wellFormed)
    | error failure after => rwa [ending] at first
  branch := keeps_branch
  ahead {_ parser _} keeps machine wellFormed := by
    have first := keeps machine wellFormed
    unfold ahead
    cases ending : parser machine with
    | ok value after =>
      rw [ending] at first
      exact first.back wellFormed
    | error failure after =>
      rw [ending] at first
      simp only
      split
      next => exact first.back wellFormed
      next => exact first
  notHere {_ parser _} label keeps machine wellFormed := by
    have first := (keeps _ wellFormed.pushFrame).dropFrame
    simp only [notHere]
    cases ending : parser (machine.pushFrame machine.cursor.index) with
    | ok value after =>
      rw [ending] at first
      exact (first.back wellFormed).register wellFormed.cursor label
    | error failure after =>
      rw [ending] at first
      simp only
      split <;> exact first.back wellFormed
  atomic {_ parser _} label keeps machine wellFormed := by
    have first := (keeps_attempt keeps _ wellFormed.pushFrame).dropFrame
    simp only [atomic]
    cases ending : attempt parser (machine.pushFrame machine.cursor.index) with
    | ok value after =>
      rw [ending] at first
      exact first
    | error failure after =>
      rw [ending] at first
      simp only
      split
      next => exact first.register wellFormed.cursor label
      next => exact first
  expect {_ parser _} label keeps machine wellFormed := by
    have inner := keeps_attempt keeps _ wellFormed.pushFrame
    have first := inner.dropFrame
    -- The label goes where the frame that is dropped has got to.
    have reached := inner.wellFormed.farthest.innermost.boundary
    rw [inner.source] at reached
    simp only [expect]
    cases ending : attempt parser (machine.pushFrame machine.cursor.index) with
    | ok value after =>
      rw [ending] at first
      exact first
    | error failure after =>
      rw [ending] at first reached
      simp only
      split
      next => exact first.register reached label
      next => exact first
  atLevel {_ parser _} level keeps machine wellFormed := by
    have first := keeps _ (wellFormed.setLevel level)
    unfold atLevel
    cases ending : parser (machine.setLevel level) with
    | ok value after | error failure after =>
      rw [ending] at first
      exact ⟨first.wellFormed.setLevel _, first.source,
        ⟨rfl, first.onward.index, first.onward.boundary⟩⟩

section Invoke

variable {codec : Codec ν α} {call : Call} {body : Parser ν α} {start machine : Machine ν}

theorem proceeds_replant {value : α} (proceeds : start.Proceeds machine) (begun : start.WellFormed)
    (origin : start.cursor = call.cursor) (own : machine.calls.head? = some call) :
    start.Proceeds (replant codec call value machine) where
  wellFormed :=
    { proceeds.wellFormed with
      cursor := by
        have boundary := (proceeds.back begun).wellFormed.cursor
        rw [origin] at boundary
        exact boundary
      seeds := by
        intro activation seed member seeded
        simp only [replant, Active.plant] at member
        cases active : machine.active.activations with
        | nil => simp [active, Activation.plant] at member
        | cons innermost outer =>
          simp only [active, Activation.plant, List.mem_cons] at member
          rcases member with rfl | member
          next =>
            obtain rfl : innermost.call = call := by simpa [Machine.calls, active] using own
            cases seeded
            have onward := proceeds.onward
            rwa [origin, ← proceeds.source] at onward
          next => exact proceeds.wellFormed.seeds (by simp [active, member]) seeded }
  source := proceeds.source
  onward := by
    have still := Source.Onward.stay begun.cursor
    nth_rewrite 2 [origin] at still
    exact still

theorem proceeds_round (codec : Codec ν α) {ending : Ending ν α}
    (proceeds : start.Proceeds ending.machine) (begun : start.WellFormed)
    (origin : start.cursor = call.cursor) (own : ending.machine.calls.head? = some call) :
    start.Proceeds (round codec call ending).machine := by
  have seeded {activation : Activation ν} {seed : Seed ν}
      (innermost : ending.machine.active.innermost? = some activation)
      (seeded : activation.seed = some seed) :
      start.Proceeds (Ending.machine (useSeed codec call seed ending.machine)) := by
    have same : activation.call = call := by
      simpa [Machine.calls, ← Active.innermost?.eq_def, innermost] using own
    have onward := proceeds.wellFormed.seeds (List.mem_of_head? innermost) seeded
    rw [machine_useSeed]
    apply proceeds.moveTo
    rwa [origin, ← proceeds.source, ← same]
  cases ending with
  | error failure after =>
    simp only [round]
    cases found : after.active.innermost?.bind Activation.seed with
    | none => exact proceeds
    | some seed =>
      obtain ⟨activation, innermost, has⟩ := Option.bind_eq_some_iff.mp found
      cases failure.recoverable with
      | false => exact proceeds
      | true => exact seeded innermost has
  | ok value after =>
    simp only [round]
    cases innermost : after.active.innermost? with
    | none => exact proceeds
    | some activation =>
      simp only
      split
      next => exact proceeds
      next =>
        split
        next seed has => exact seeded innermost (Option.eq_some_of_filter_eq_some has)
        next => exact proceeds_replant proceeds begun origin own

theorem proceeds_grow (codec : Codec ν α) (orderly : Orderly body) (keeps : Keeps body) (n : Nat)
    (wellFormed : machine.WellFormed) (origin : machine.cursor = call.cursor)
    (own : machine.calls.head? = some call) :
    machine.Proceeds (Ending.machine (grow codec call body n machine)) := by
  induction n generalizing machine with
  | zero => exact .stay wellFormed
  | succ n ih =>
    have ran : (Ending.machine (body machine)).calls.head? = some call :=
      (orderly machine).calls ▸ own
    have first := proceeds_round codec (keeps machine wellFormed) wellFormed origin ran
    have calls := (inside_round codec call (body machine)).calls
    rw [grow_succ]
    cases result : round codec call (body machine) with
    | done ending => rwa [result] at first
    | again next =>
      rw [result] at first calls
      exact first.trans (ih first.wellFormed (cursor_of_again result) (calls ▸ ran))

theorem proceeds_settle {memoized : Bool} {outcome : Except Failure ν}
    (proceeds : start.Proceeds machine) (origin : start.cursor = call.cursor)
    (failed : ∀ failure, outcome = .error failure → machine.cursor = call.cursor) :
    start.Proceeds (settle call memoized outcome machine) := by
  have closed : start.Proceeds (popped machine) :=
    { proceeds with
      wellFormed :=
        { proceeds.wellFormed with
          farthest := proceeds.wellFormed.farthest.popMerge
          seeds := fun member => proceeds.wellFormed.seeds (List.mem_of_mem_tail member) } }
  have onward : machine.source.Onward call.cursor machine.cursor := by
    rw [← origin, proceeds.source]
    exact proceeds.onward
  have result := settled call memoized outcome machine
  generalize settle call memoized outcome machine = last at result ⊢
  cases result with
  | withheld => exact closed.report call .withheld
  | dropped => exact closed
  | stored _ _ final =>
    have stored {other : Call} {verdict : Verdict ν}
        (found : (stashed call outcome machine).memo.find? other = some verdict) :
        verdict.Proper machine.source other := by
      rcases MemoTable.of_find?_insert found with ⟨rfl, rfl⟩ | earlier
      next =>
        refine ⟨onward, failed, proceeds.wellFormed.farthest.innermost, fun exhausted => ?_⟩
        cases final .exhausted exhausted
      next => exact proceeds.wellFormed.memo earlier
    have inserted : start.Proceeds (stashed call outcome machine) :=
      { closed with wellFormed := { closed.wellFormed with memo := stored } }
    exact inserted.report call .stored

theorem wellFormed_opened (wellFormed : machine.WellFormed) (origin : machine.cursor = call.cursor) :
    (opened call machine).WellFormed :=
  { wellFormed with
    farthest := wellFormed.farthest.push (origin ▸ wellFormed.cursor)
    seeds := by
      intro activation seed member seeded
      simp only [opened, Active.push, List.mem_cons] at member
      rcases member with rfl | member
      next => cases seeded
      next => exact wellFormed.seeds member seeded }

theorem proceeds_activate (orderly : Orderly body) (keeps : Keeps body) (n : Nat) (memoized : Bool)
    (wellFormed : machine.WellFormed) (origin : machine.cursor = call.cursor) :
    machine.Proceeds (Ending.machine (activate codec call memoized body n machine)) := by
  have grown : machine.Proceeds (Ending.machine (grow codec call body n (opened call machine))) :=
    { proceeds_grow codec orderly keeps n (wellFormed_opened wellFormed origin) origin rfl with }
  rw [activate_eq]
  cases ending : grow codec call body n (opened call machine) with
  | ok value after =>
    rw [ending] at grown
    exact proceeds_settle grown origin (by simp)
  | error failure after =>
    rw [ending] at grown
    exact proceeds_settle (grown.moveTo (origin ▸ .stay wellFormed.cursor)) origin fun _ _ => rfl

theorem proceeds_reenter {activation : Activation ν} (wellFormed : machine.WellFormed)
    (origin : machine.cursor = call.cursor) (found : machine.active.find? call = some activation) :
    machine.Proceeds (Ending.machine (reenter codec call activation machine)) := by
  obtain ⟨member, own⟩ := mem_of_find? found
  have marked : machine.Proceeds { machine with active := machine.active.reenter call } :=
    ⟨wellFormed.follows (Activation.follows_reenter call _), rfl, .stay wellFormed.cursor⟩
  simp only [reenter]
  cases seeded : activation.seed with
  | none => exact marked.report _ _
  | some seed =>
    simp only [machine_useSeed]
    apply (marked.report _ _).moveTo
    rw [origin, ← own]
    exact wellFormed.seeds member seeded

theorem proceeds_evaluate (orderly : Orderly body) (keeps : Keeps body) (n : Nat) (memoized : Bool)
    (wellFormed : machine.WellFormed) (origin : machine.cursor = call.cursor) :
    machine.Proceeds (Ending.machine (evaluate codec call memoized body n machine)) := by
  unfold evaluate
  split
  next found => exact proceeds_reenter wellFormed origin found
  next => exact proceeds_activate orderly keeps n memoized wellFormed origin

theorem proceeds_replay {verdict : Verdict ν} (wellFormed : machine.WellFormed)
    (origin : machine.cursor = call.cursor) (proper : verdict.Proper machine.source call) :
    machine.Proceeds (Ending.machine (replay codec call verdict machine)) := by
  rw [machine_replay]
  have onward := proper.onward
  rw [← origin] at onward
  exact ⟨{ wellFormed with
    cursor := onward.boundary
    farthest := wellFormed.farthest.merge proper.frame }, rfl, onward⟩

theorem proceeds_answer (codec : Codec ν α) (call : Call) (orderly : Orderly body)
    (keeps : Keeps body) (n : Nat) (memoized : Bool) (wellFormed : machine.WellFormed)
    (origin : machine.cursor = call.cursor) :
    machine.Proceeds (Ending.machine (answer codec call memoized body n machine)) := by
  have checked (hit : Bool) := (Machine.Proceeds.stay wellFormed).report call (.checked hit)
  unfold answer
  split
  next =>
    split
    next found =>
      exact (checked true).trans
        (proceeds_replay (checked true).wellFormed origin (wellFormed.memo found))
    next =>
      exact (checked false).trans
        (proceeds_evaluate orderly keeps n memoized (checked false).wellFormed origin)
  next => exact proceeds_evaluate orderly keeps n memoized wellFormed origin

theorem Keeps.invoke (keeps : Keeps body) (orderly : Orderly body) (codec : Codec ν α)
    (rule : Rule) (args : List Arg) (n : Nat) : Keeps (invoke codec rule args body n) := by
  intro machine wellFormed
  rw [invoke_eq]
  have entered := (Machine.Proceeds.stay wellFormed).report (callOf rule args machine) .entering
  generalize (rule.memoized && machine.config.memoize) = memoized
  have answered := entered.trans
    (proceeds_answer codec (callOf rule args machine) orderly keeps n memoized entered.wellFormed rfl)
  cases ending : answer codec (callOf rule args machine) memoized body n
      (machine.report (callOf rule args machine) .entering) with
  | ok value after | error failure after =>
    rw [ending] at answered
    exact answered.report _ _

end Invoke

end Parser

namespace Grammar

open Packrat.Parser

/-- A term that names no offset of its own, all through. -/
def Term.Anchored (term : Term) : Prop :=
  term.all Term.anchored = true

instance (term : Term) : Decidable term.Anchored :=
  inferInstanceAs (Decidable (_ = true))

def Anchored (grammar : Grammar) : Prop :=
  ∀ entry ∈ grammar.definitions, entry.2.body.Anchored

instance (grammar : Grammar) : Decidable grammar.Anchored :=
  inferInstanceAs (Decidable (∀ entry ∈ grammar.definitions, entry.2.body.Anchored))

theorem Pure.keeps {grammar : Grammar} (pure : grammar.Pure) (anchored : grammar.Anchored)
    (n : Nat) (args : List Arg) {term : Term} (termPure : term.Pure) (termAnchored : term.Anchored) :
    Keeps (term.parser grammar n args) := by
  refine @Term.throughout (fun _ parser => Keeps parser) grammar
    (fun term => term.Pure ∧ term.Anchored) (keeps_fail _) (keeps_fail _) ?_ ?_ ?_ ?_ n args term
    ⟨termPure, termAnchored⟩
  next =>
    intro n args term fits parts call
    refine @Term.assembled _ keeps_structural grammar grammar n n _ _ fits.1.plain
      (Term.passes_of_all fits.2) parts (fun {_ first _} keeps => ?_) call
    exact @Sequential.many _ _ keeps_structural.toSequential _ first first n n (fun _ => keeps_fail _)
      (Nat.le_refl n) keeps
  next => exact fun fits member => ⟨fits.1.part member, Term.all_of_part fits.2 member⟩
  next => exact fun _ found => ⟨pure.body found, anchored _ (mem_of_find? found)⟩
  next =>
    intro shape key argTerms definition n passed fits found keeps
    exact keeps.invoke (pure.orderly n passed (pure.body found)) _ _ _ n

/-- Every run of a term leaves a well-formed machine well formed, at the same level and no farther back,
whether the term matches or not, if it registers labels only where it has been. -/
theorem Pure.stays_wellFormed {grammar : Grammar} (pure : grammar.Pure) (anchored : grammar.Anchored)
    {term : Term} (termPure : term.Pure) (termAnchored : term.Anchored) (args : List Arg)
    {machine : Machine Stored} (wellFormed : machine.WellFormed) :
    ∃ ending, term.EndsWith grammar args machine ending ∧
      ending.machine.WellFormed ∧
      ending.machine.source = machine.source ∧
      ending.machine.cursor.level = machine.cursor.level ∧
      machine.cursor.index ≤ ending.machine.cursor.index := by
  obtain ⟨ending, ends⟩ := pure.exists_ending termPure args wellFormed.sound
  obtain ⟨_, budget, enough⟩ := id ends
  have proceeds := pure.keeps anchored budget args termPure termAnchored machine wellFormed
  rw [enough budget (Nat.le_refl budget)] at proceeds
  exact ⟨ending, ends, proceeds.wellFormed, proceeds.source, proceeds.onward.level,
    proceeds.onward.index⟩

def accents : Grammar where
  definitions :=
    [("word",
      { rule := { name := { grammar := "accents", rule := "word" } }
        body := .choice
          [.sequence [.call .plain "word" [], .atomic "vowel" (.noneOf "nt")],
           .precedence 1 (.charBetween 'à' 'ü')] })]

theorem stays_wellFormed_accents :
    accents.Pure ∧ accents.Anchored ∧
    ∀ config : Config, ∃ ending,
      (Term.many1 (.call .plain "word" [])).EndsWith accents [] (.start (.ofString "éèt") config)
        ending ∧
      ending.machine.WellFormed := by
  have pure : accents.Pure := by decide
  have anchored : accents.Anchored := by decide
  refine ⟨pure, anchored, fun config => ?_⟩
  obtain ⟨ending, ends, wellFormed, _⟩ := pure.stays_wellFormed anchored
    (by decide : (Term.many1 (.call .plain "word" [])).Pure) (by decide) []
    (.start (.ofString "éèt") config)
  exact ⟨ending, ends, wellFormed⟩

end Grammar

end Packrat
