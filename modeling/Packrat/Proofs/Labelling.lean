import Packrat.Proofs.Balance
import Packrat.Proofs.Reach
import Packrat.Proofs.Repetition

set_option autoImplicit false

namespace Packrat

variable {ν : Type}

namespace Farthest

def Frame.positions (frame : Frame) : List Nat :=
  frame.labels.map fun _ => frame.position

theorem Frame.foldl_max_positions (frame : Frame) (start : Nat) :
    frame.positions.foldl max start = if frame.labels = [] then start else max start frame.position := by
  unfold positions
  generalize frame.labels = labels
  induction labels generalizing start with
  | nil => rfl
  | cons label rest ih =>
    rw [List.map_cons, List.foldl_cons, ih, if_neg (List.cons_ne_nil label rest)]
    split
    next => rfl
    next => rw [Nat.max_assoc, Nat.max_self]

namespace Stack

structure Noted (before after : Stack) (positions : List Nat) : Prop where
  outer : after.outer = before.outer
  position : after.innermost.position = positions.foldl max before.innermost.position

namespace Noted

variable {before middle after : Stack} {positions more : List Nat} {index : Nat}

theorem refl (stack : Stack) : stack.Noted stack [] :=
  ⟨rfl, rfl⟩

theorem trans (first : before.Noted middle positions) (second : middle.Noted after more) :
    before.Noted after (positions ++ more) where
  outer := second.outer.trans first.outer
  position := by rw [second.position, first.position, List.foldl_append]

theorem register (stack : Stack) (index : Nat) (label : String) :
    stack.Noted (stack.register index label) [index] where
  outer := rfl
  position := Frame.position_register stack.innermost index label

theorem merge (stack : Stack) (frame : Frame) : stack.Noted (stack.merge frame) frame.positions where
  outer := rfl
  position := by
    rw [Frame.foldl_max_positions]
    split
    next empty => exact congrArg Frame.position (Frame.merge_empty empty)
    next some => exact Frame.position_merge stack.innermost some

theorem pop (noted : (before.push index).Noted after positions) : after.pop.2 = before := by
  have outer : after.outer = before.innermost :: before.outer := noted.outer
  rw [Stack.pop, outer]

theorem popMerge (noted : (before.push index).Noted after positions) :
    before.Noted after.popMerge.2 after.innermost.positions := by
  have outer : after.outer = before.innermost :: before.outer := noted.outer
  have folded : after.popMerge.2 = before.merge after.innermost := by
    rw [Stack.popMerge, Stack.pop, outer]
  rw [folded]
  exact merge before after.innermost

end Noted

end Stack

end Farthest

def Ending.framed {α : Type} (ending : Ending ν α) : Except Failure α × Farthest.Stack :=
  (ending.outcome, ending.machine.farthest)

namespace Parser

variable {α β : Type}

/-- The positions that are noted in the innermost frame while a parser runs: those of the labels that are
registered, and those of the frames that are merged into it. What is noted in a frame that is opened
meanwhile is not among them, unless the frame is merged. -/
inductive Notes : {α : Type} → Parser ν α → Machine ν → List Nat → Prop
  | silent {α : Type} {parser : Parser ν α} (machine : Machine ν)
      (silent : ∀ machine : Machine ν, (Ending.machine (parser machine)).farthest = machine.farthest) :
      Notes parser machine []
  | leaf {α : Type} (act : Source → Cursor → Move α) (machine : Machine ν) :
      Notes (leaf act) machine ((act machine.source machine.cursor).label.toList.map Prod.fst)
  | bind {α β : Type} {parser : Parser ν α} {next : α → Parser ν β} {machine after : Machine ν}
      {value : α} {positions more : List Nat} (first : Notes parser machine positions)
      (matched : parser machine = .ok value after) (rest : Notes (next value) after more) :
      Notes (parser >>= next) machine (positions ++ more)
  | bind_stopped {α β : Type} {parser : Parser ν α} {next : α → Parser ν β}
      {machine after : Machine ν} {failure : Failure} {positions : List Nat}
      (first : Notes parser machine positions) (stopped : parser machine = .error failure after) :
      Notes (parser >>= next) machine positions
  | branch_found {α β : Type} {parser : Parser ν α} {found : α → Parser ν β}
      {missed : Mismatch → Parser ν β} {machine after : Machine ν} {value : α}
      {positions more : List Nat} (first : Notes parser machine positions)
      (matched : parser machine = .ok value after) (rest : Notes (found value) after more) :
      Notes (branch parser found missed) machine (positions ++ more)
  | branch_missed {α β : Type} {parser : Parser ν α} {found : α → Parser ν β}
      {missed : Mismatch → Parser ν β} {machine after : Machine ν} {mismatch : Mismatch}
      {positions more : List Nat} (first : Notes parser machine positions)
      (unmatched : parser machine = .error mismatch.val after)
      (rest : Notes (missed mismatch) (after.moveTo machine.cursor) more) :
      Notes (branch parser found missed) machine (positions ++ more)
  | branch_stopped {α β : Type} {parser : Parser ν α} {found : α → Parser ν β}
      {missed : Mismatch → Parser ν β} {machine after : Machine ν} {failure : Failure}
      {positions : List Nat} (first : Notes parser machine positions)
      (stopped : parser machine = .error failure after) (fatal : failure.recoverable = false) :
      Notes (branch parser found missed) machine positions
  | ahead {α : Type} {parser : Parser ν α} {machine : Machine ν} {positions : List Nat}
      (inner : Notes parser machine positions) : Notes (ahead parser) machine positions
  | atLevel {α : Type} {parser : Parser ν α} {machine : Machine ν} {positions : List Nat}
      (level : Int32) (inner : Notes parser (machine.setLevel level) positions) :
      Notes (atLevel level parser) machine positions
  | isolated {α : Type} {parser : Parser ν α} {machine : Machine ν} {positions : List Nat}
      (inner : Notes parser (machine.pushFrame machine.cursor.index) positions) :
      Notes (isolated parser) machine []
  | notHere_found {α : Type} {parser : Parser ν α} {machine after : Machine ν} {value : α}
      {positions : List Nat} (label : String)
      (inner : Notes parser (machine.pushFrame machine.cursor.index) positions)
      (matched : parser (machine.pushFrame machine.cursor.index) = .ok value after) :
      Notes (notHere label parser) machine [machine.cursor.index]
  | notHere_stopped {α : Type} {parser : Parser ν α} {machine after : Machine ν} {failure : Failure}
      {positions : List Nat} (label : String)
      (inner : Notes parser (machine.pushFrame machine.cursor.index) positions)
      (stopped : parser (machine.pushFrame machine.cursor.index) = .error failure after) :
      Notes (notHere label parser) machine []
  | grow_done {α : Type} {codec : Codec ν α} {call : Call} {body : Parser ν α} {n : Nat}
      {machine : Machine ν} {ending : Ending ν α} {positions : List Nat}
      (first : Notes body machine positions) (done : round codec call (body machine) = .done ending) :
      Notes (grow codec call body (n + 1)) machine positions
  | grow_again {α : Type} {codec : Codec ν α} {call : Call} {body : Parser ν α} {n : Nat}
      {machine next : Machine ν} {positions more : List Nat}
      (first : Notes body machine positions) (again : round codec call (body machine) = .again next)
      (rest : Notes (grow codec call body n) next more) :
      Notes (grow codec call body (n + 1)) machine (positions ++ more)
  | reentered {α : Type} {codec : Codec ν α} {call : Call} {memoized : Bool} {body : Parser ν α}
      {n : Nat} {machine : Machine ν} {activation : Activation ν}
      (active : machine.active.find? call = some activation) :
      Notes (evaluate codec call memoized body n) machine []
  | activated {α : Type} {codec : Codec ν α} {call : Call} {memoized : Bool} {body : Parser ν α}
      {n : Nat} {machine : Machine ν} {positions : List Nat}
      (inactive : machine.active.find? call = none)
      (inner : Notes (grow codec call body n) (opened call machine) positions) :
      Notes (evaluate codec call memoized body n) machine
        (Ending.machine (grow codec call body n (opened call machine))).farthest.innermost.positions
  | replayed {α : Type} {codec : Codec ν α} {call : Call} {body : Parser ν α} {n : Nat}
      {machine : Machine ν} {verdict : Verdict ν}
      (stored : machine.memo.find? call = some verdict) :
      Notes (answer codec call true body n) machine verdict.frame.positions
  | unstored {α : Type} {codec : Codec ν α} {call : Call} {body : Parser ν α} {n : Nat}
      {machine : Machine ν} {positions : List Nat} (unknown : machine.memo.find? call = none)
      (inner : Notes (evaluate codec call true body n) (machine.report call (.checked false)) positions) :
      Notes (answer codec call true body n) machine positions
  | unmemoized {α : Type} {codec : Codec ν α} {call : Call} {body : Parser ν α} {n : Nat}
      {machine : Machine ν} {positions : List Nat}
      (inner : Notes (evaluate codec call false body n) machine positions) :
      Notes (answer codec call false body n) machine positions
  | invoked {α : Type} {codec : Codec ν α} {rule : Rule} {args : List Arg} {body : Parser ν α}
      {n : Nat} {machine : Machine ν} {positions : List Nat}
      (inner : Notes
        (answer codec (callOf rule args machine) (rule.memoized && machine.config.memoize) body n)
        (machine.report (callOf rule args machine) .entering) positions) :
      Notes (invoke codec rule args body n) machine positions

theorem farthest_leaf (act : Source → Cursor → Move α) (machine : Machine ν) :
    machine.farthest.Noted (Ending.machine (leaf act machine)).farthest
      ((act machine.source machine.cursor).label.toList.map Prod.fst) := by
  rw [machine_leaf]
  cases (act machine.source machine.cursor).label with
  | none => exact .refl machine.farthest
  | some label => exact .register machine.farthest label.1 label.2

theorem farthest_isolated (parser : Parser ν α) (machine : Machine ν) :
    (Ending.machine (isolated parser machine)).farthest =
      (Ending.machine (parser (machine.pushFrame machine.cursor.index))).farthest.pop.2 := by
  unfold isolated
  cases parser (machine.pushFrame machine.cursor.index) with
  | ok value after => rfl
  | error failure after => cases failure <;> rfl

theorem farthest_round (codec : Codec ν α) (call : Call) (ending : Ending ν α) :
    (round codec call ending).machine.farthest = ending.machine.farthest := by
  have moved (seed : Seed ν) (machine : Machine ν) :
      (Ending.machine (useSeed codec call seed machine)).farthest = machine.farthest := by
    rw [machine_useSeed]
    rfl
  cases ending with
  | error failure after | ok value after =>
    simp only [round]
    repeat' split
    all_goals first | rfl | exact moved _ after

theorem farthest_close (codec : Codec ν α) (call : Call) (memoized : Bool) (ending : Ending ν α) :
    (close codec call memoized ending).machine.farthest = ending.machine.farthest.popMerge.2 := by
  rw [machine_close, (popped_settle _ _ _ _).farthest]
  cases ending <;> rfl

theorem farthest_reported (codec : Codec ν α) (call : Call) (ending : Ending ν α) :
    (reported codec call ending).machine.farthest = ending.machine.farthest := by
  cases ending <;> rfl

theorem Notes.noted {parser : Parser ν α} {machine : Machine ν} {positions : List Nat}
    (notes : Notes parser machine positions) :
    machine.farthest.Noted (Ending.machine (parser machine)).farthest positions := by
  induction notes with
  | silent machine silent =>
    rw [silent machine]
    exact .refl machine.farthest
  | leaf act machine => exact farthest_leaf act machine
  | bind _ matched _ first rest =>
    rw [bind_apply, matched]
    rw [matched] at first
    exact first.trans rest
  | bind_stopped _ stopped first =>
    rw [bind_apply, stopped]
    rwa [stopped] at first
  | branch_found _ matched _ first rest =>
    rw [branch, matched]
    rw [matched] at first
    exact first.trans rest
  | @branch_missed _ _ _ _ _ _ _ mismatch _ _ _ unmatched _ first rest =>
    rw [branch, unmatched]
    rw [unmatched] at first
    simp only [mismatch.property, dite_true]
    exact first.trans rest
  | branch_stopped _ stopped fatal first =>
    rw [branch, stopped]
    rw [stopped] at first
    simpa [fatal] using first
  | @ahead _ parser machine _ _ inner =>
    unfold Parser.ahead
    cases ran : parser machine with
    | ok value after =>
      rw [ran] at inner
      exact inner
    | error failure after =>
      rw [ran] at inner
      cases failure <;> exact inner
  | @atLevel _ parser machine _ level _ inner =>
    unfold Parser.atLevel
    cases ran : parser (machine.setLevel level) with
    | ok value after | error failure after =>
      rw [ran] at inner
      exact inner
  | @isolated _ parser machine _ _ inner =>
    rw [farthest_isolated, inner.pop]
    exact .refl machine.farthest
  | @notHere_found _ parser machine after _ _ label _ matched inner =>
    rw [matched] at inner
    have dropped : after.dropFrame.farthest = machine.farthest := inner.pop
    simp only [notHere, matched]
    exact dropped ▸ .register after.dropFrame.farthest machine.cursor.index label
  | @notHere_stopped _ parser machine after failure _ label _ stopped inner =>
    rw [stopped] at inner
    have dropped : after.dropFrame.farthest = machine.farthest := inner.pop
    simp only [notHere, stopped]
    cases failure <;> exact dropped ▸ .refl after.dropFrame.farthest
  | @grow_done _ codec call body n machine _ _ _ done first =>
    have same := farthest_round codec call (body machine)
    rw [done] at same
    rw [grow_succ, done]
    exact same ▸ first
  | @grow_again _ codec call body n machine _ _ _ _ again _ first rest =>
    have same := farthest_round codec call (body machine)
    rw [again] at same
    rw [grow_succ, again]
    exact first.trans (same ▸ rest)
  | @reentered _ codec call _ _ _ machine activation active =>
    obtain ⟨cursor, ran⟩ := machine_reenter codec call activation machine
    rw [evaluate, active, ran]
    exact .refl machine.farthest
  | @activated _ codec call memoized body n machine _ inactive _ inner =>
    rw [evaluate, inactive, activate_eq, farthest_close]
    exact inner.popMerge
  | @replayed _ codec call body n machine verdict stored =>
    simp only [answer, if_true, stored, machine_replay]
    exact .merge machine.farthest verdict.frame
  | unstored unknown _ inner =>
    simp only [answer, if_true, unknown]
    exact inner
  | unmemoized _ inner =>
    simp only [answer, Bool.false_eq_true, if_false]
    exact inner
  | invoked _ inner =>
    rw [invoke_eq, farthest_reported]
    exact inner

def Noting (parser : Parser ν α) : Prop :=
  ∀ machine : Machine ν, ∃ positions, Notes parser machine positions

theorem noting_silent {parser : Parser ν α}
    (silent : ∀ machine, (Ending.machine (parser machine)).farthest = machine.farthest) :
    Noting parser :=
  fun machine => ⟨[], .silent machine silent⟩

theorem noting_blocks : Closed (ν := ν) fun _ parser => Noting parser where
  leaf _ machine := ⟨_, .leaf _ machine⟩
  bind {_ _ parser next} noting continued machine := by
    obtain ⟨positions, first⟩ := noting machine
    cases ran : parser machine with
    | error failure after => exact ⟨positions, .bind_stopped first ran⟩
    | ok value after =>
      obtain ⟨more, rest⟩ := continued value after
      exact ⟨positions ++ more, .bind first ran rest⟩
  branch {_ _ parser found missed} noting matched unmatched machine := by
    obtain ⟨positions, first⟩ := noting machine
    cases ran : parser machine with
    | ok value after =>
      obtain ⟨more, rest⟩ := matched value after
      exact ⟨positions ++ more, .branch_found first ran rest⟩
    | error failure after =>
      cases recoverable : failure.recoverable with
      | false => exact ⟨positions, .branch_stopped first ran recoverable⟩
      | true =>
        obtain ⟨more, rest⟩ := unmatched ⟨failure, recoverable⟩ (after.moveTo machine.cursor)
        exact ⟨positions ++ more, .branch_missed first ran rest⟩
  ahead noting machine := (noting machine).imp fun _ => .ahead
  notHere {_ parser} label noting machine := by
    obtain ⟨positions, inner⟩ := noting (machine.pushFrame machine.cursor.index)
    cases ran : parser (machine.pushFrame machine.cursor.index) with
    | ok value after => exact ⟨_, .notHere_found label inner ran⟩
    | error failure after => exact ⟨_, .notHere_stopped label inner ran⟩
  isolated noting machine := by
    obtain ⟨positions, inner⟩ := noting (machine.pushFrame machine.cursor.index)
    exact ⟨[], .isolated inner⟩
  atLevel level noting machine := (noting (machine.setLevel level)).imp fun _ => .atLevel level

section Invoke

variable {codec : Codec ν α} {call : Call} {body : Parser ν α}

theorem Noting.grow (noting : Noting body) (n : Nat) : Noting (grow codec call body n) := by
  induction n with
  | zero => exact noting_silent fun _ => rfl
  | succ n ih =>
    intro machine
    obtain ⟨positions, first⟩ := noting machine
    cases result : round codec call (body machine) with
    | done ending => exact ⟨positions, .grow_done first result⟩
    | again next =>
      obtain ⟨more, rest⟩ := ih next
      exact ⟨positions ++ more, .grow_again first result rest⟩

theorem Noting.evaluate (noting : Noting body) (memoized : Bool) (n : Nat) :
    Noting (evaluate codec call memoized body n) := by
  intro machine
  cases found : machine.active.find? call with
  | some activation => exact ⟨[], .reentered found⟩
  | none =>
    obtain ⟨positions, inner⟩ := noting.grow n (opened call machine)
    exact ⟨_, .activated found inner⟩

theorem Noting.answer (noting : Noting body) (memoized : Bool) (n : Nat) :
    Noting (answer codec call memoized body n) := by
  intro machine
  cases memoized with
  | false => exact (noting.evaluate false n machine).imp fun _ => .unmemoized
  | true =>
    cases stored : machine.memo.find? call with
    | some verdict => exact ⟨_, .replayed stored⟩
    | none => exact (noting.evaluate true n _).imp fun _ => .unstored stored

theorem Noting.invoke (noting : Noting body) (codec : Codec ν α) (rule : Rule) (args : List Arg)
    (n : Nat) : Noting (invoke codec rule args body n) :=
  fun _ => (noting.answer _ n _).imp fun _ => .invoked

end Invoke

section Labels

variable {parser : Parser ν α} {machine : Machine ν} {positions : List Nat}

theorem Notes.dropped {ending : Ending ν α}
    (notes : Notes parser (machine.pushFrame machine.cursor.index) positions)
    (ran : parser (machine.pushFrame machine.cursor.index) = ending) :
    ending.machine.dropFrame.farthest = machine.farthest ∧
      ending.machine.farthest.innermost.position = positions.foldl max machine.cursor.index := by
  have noted := notes.noted
  rw [ran] at noted
  exact ⟨noted.pop, noted.position⟩

theorem cursor_notHere (label : String) (parser : Parser ν α) (machine : Machine ν) :
    (Ending.machine (notHere label parser machine)).cursor = machine.cursor := by
  simp only [notHere]
  cases parser (machine.pushFrame machine.cursor.index) with
  | ok value after => rfl
  | error failure after => cases failure <;> rfl

variable (notes : Notes parser (machine.pushFrame machine.cursor.index) positions) (label : String)

include notes

theorem framed_isolated (place : Nat → Nat) :
    Ending.framed ((isolated parser >>= fun
        | .ok value => pure value
        | .error (mismatch, reached) => miss mismatch (some (place reached, label))) machine) =
      (Ending.outcome (parser (machine.pushFrame machine.cursor.index)),
        if Ending.Missed (parser (machine.pushFrame machine.cursor.index)) then
          machine.farthest.register (place (positions.foldl max machine.cursor.index)) label
        else machine.farthest) := by
  rw [bind_apply, isolated]
  cases ran : parser (machine.pushFrame machine.cursor.index) with
  | ok value after =>
    obtain ⟨dropped, _⟩ := notes.dropped ran
    rw [← dropped]
    rfl
  | error failure after =>
    obtain ⟨dropped, reached⟩ := notes.dropped ran
    rw [← dropped, ← reached]
    cases failure <;> rfl

theorem framed_atomic :
    Ending.framed (atomic label parser machine) =
      (Ending.outcome (parser (machine.pushFrame machine.cursor.index)),
        if Ending.Missed (parser (machine.pushFrame machine.cursor.index)) then
          machine.farthest.register machine.cursor.index label
        else machine.farthest) := by
  rw [atomic_eq, bind_look]
  exact framed_isolated notes label fun _ => machine.cursor.index

theorem framed_expect :
    Ending.framed (expect label parser machine) =
      (Ending.outcome (parser (machine.pushFrame machine.cursor.index)),
        if Ending.Missed (parser (machine.pushFrame machine.cursor.index)) then
          machine.farthest.register (positions.foldl max machine.cursor.index) label
        else machine.farthest) := by
  rw [expect_eq]
  exact framed_isolated notes label id

theorem framed_notHere_of_ok {value : α}
    (matched : Ending.outcome (parser (machine.pushFrame machine.cursor.index)) = .ok value) :
    Ending.framed (notHere label parser machine) =
      (.error .noMatch, machine.farthest.register machine.cursor.index label) := by
  cases ran : parser (machine.pushFrame machine.cursor.index) with
  | ok value after =>
    obtain ⟨dropped, _⟩ := notes.dropped ran
    rw [← dropped]
    simp only [notHere, ran]
    rfl
  | error failure after => simp [ran] at matched

theorem framed_notHere_of_error {failure : Failure}
    (stopped : Ending.outcome (parser (machine.pushFrame machine.cursor.index)) = .error failure) :
    Ending.framed (notHere label parser machine) =
      (if failure.recoverable then .ok () else .error failure, machine.farthest) := by
  cases ran : parser (machine.pushFrame machine.cursor.index) with
  | ok value after => simp [ran] at stopped
  | error other after =>
    obtain ⟨dropped, _⟩ := notes.dropped ran
    obtain rfl : other = failure := by simpa [ran] using stopped
    rw [← dropped]
    simp only [notHere, ran]
    cases other <;> rfl

end Labels

end Parser

namespace Grammar

open Packrat.Parser

variable {grammar : Grammar}

theorem Term.noting {n : Nat} {args : List Arg} {term : Term} (keeps : term.keepsText = true)
    (parts : ∀ part ∈ term.parts, Noting (part.parser grammar n args))
    (call : ∀ shape key argTerms, term = .call shape key argTerms →
      Noting (term.parser grammar (n + 1) args)) :
    Noting (term.parser grammar (n + 1) args) := by
  by_cases plain : term.plain = true
  next =>
    exact Term.holds noting_blocks plain parts
      (fun noting => noting_blocks.many (noting_silent fun _ => rfl) noting n) call
  next =>
    cases term <;> simp only [Term.plain, not_true_eq_false] at plain
    case bind text => cases keeps
    case count name term =>
      let counted : Parser Stored Unit := fun machine =>
        .ok () { machine with counters := put machine.counters name (counter machine name + 1) }
      have silent : Noting counted := noting_silent fun _ => rfl
      exact noting_blocks.bind silent fun _ => parts term (by simp [Term.parts])
    case ifCount name limit yes no =>
      let below : Parser Stored Bool := view fun machine => counter machine name < limit
      let chosen (below : Bool) : Parser Stored Value :=
        if below then yes.parser grammar n args else no.parser grammar n args
      have silent : Noting below := noting_silent fun _ => rfl
      have either (below : Bool) : Noting (chosen below) := by
        cases below with
        | true => exact parts yes (by simp [Term.parts])
        | false => exact parts no (by simp [Term.parts])
      have same : (Term.ifCount name limit yes no).parser grammar (n + 1) args = below >>= chosen := by
        funext machine
        simp only [Term.parser, bind_apply, below, view, chosen, decide_eq_true_eq]
        split <;> rfl
      rw [same]
      exact noting_blocks.bind silent either
    case restore slot keep =>
      refine noting_silent fun machine => ?_
      simp only [Term.parser, restoreSlot]
      split <;> rfl
    all_goals exact noting_silent fun _ => rfl

theorem KeepsText.noting (keeps : grammar.KeepsText) (n : Nat) (args : List Arg) {term : Term}
    (termKeeps : term.KeepsText) : Noting (term.parser grammar n args) :=
  @Term.throughout (fun _ parser => Noting parser) grammar Term.KeepsText
    (noting_silent fun _ => rfl) (noting_silent fun _ => rfl)
    (fun fits => Term.noting (Term.passes_of_all fits)) Term.all_of_part
    (fun _ found => keeps _ (mem_of_find? found)) (fun _ _ noting => noting.invoke _ _ _ _)
    n args term termKeeps

/-- Labels replace exactly what their term reported, whatever the term does and however it ends. Under
atomic and expect, the frames are as if only the label had been registered if the term fails recoverably,
and as they were otherwise. Atomic registers it where the term began, expect at the farthest of that place
and all positions that the term noted in its own frame. A term that must not be there leaves the frames as
they were unless it matches, and then they are as if only the label had been registered where it began; the
cursor goes back in any case. -/
theorem KeepsText.labels_replace_reports (keeps : grammar.KeepsText) {term : Term}
    (termKeeps : term.KeepsText) (n : Nat) (args : List Arg) (label : String)
    (machine : Machine Stored) :
    let parser := term.parser grammar n args
    let start := machine.cursor.index
    let ran := parser (machine.pushFrame start)
    (∃ positions, Notes parser (machine.pushFrame start) positions) ∧
    ∀ positions, Notes parser (machine.pushFrame start) positions →
      Ending.framed (atomic label parser machine) =
        (Ending.outcome ran,
          if Ending.Missed ran then machine.farthest.register start label else machine.farthest) ∧
      Ending.framed (expect label parser machine) =
        (Ending.outcome ran,
          if Ending.Missed ran then machine.farthest.register (positions.foldl max start) label
          else machine.farthest) ∧
      (∀ value, Ending.outcome ran = .ok value →
        Ending.framed (notHere label parser machine) =
          (.error .noMatch, machine.farthest.register start label)) ∧
      (∀ failure, Ending.outcome ran = .error failure →
        Ending.framed (notHere label parser machine) =
          (if failure.recoverable then .ok () else .error failure, machine.farthest)) ∧
      (Ending.machine (notHere label parser machine)).cursor = machine.cursor := by
  intro parser start ran
  refine ⟨keeps.noting n args termKeeps _, fun positions notes => ?_⟩
  have alone := framed_atomic notes label
  have farthest := framed_expect notes label
  have refused := cursor_notHere label parser machine
  exact ⟨alone, farthest, fun _ => framed_notHere_of_ok notes label,
    fun _ => framed_notHere_of_error notes label, refused⟩

def twofold : Term :=
  .choice
    [.sequence [.call .plain "A" [], .literal "q"],
     .sequence [.call .plain "A" [], .atomic "rest" (.sequence [.literal "z", .literal "r"])]]

theorem labels_replace_reports_crossed :
    let parser := twofold.parser crossed 12 []
    let machine : Machine Stored :=
      { Machine.start (.ofString "-kxyz") {} with
        cursor := { index := 1 }
        farthest := { innermost := { position := 2, labels := ["digit"] }, outer := [{}] } }
    let ran := parser (machine.pushFrame 1)
    crossed.KeepsText ∧ twofold.KeepsText ∧ Ending.Missed ran ∧
    (Ending.machine ran).farthest.innermost = { position := 4, labels := ["x", "q", "rest"] } ∧
    ∃ positions, Notes parser (machine.pushFrame 1) positions ∧
      (Ending.framed (atomic "sum" parser machine)).2 = machine.farthest.register 1 "sum" ∧
      (Ending.framed (expect "sum" parser machine)).2 =
        machine.farthest.register (positions.foldl max 1) "sum" ∧
      (Ending.framed (notHere "sum" parser machine)).2 = machine.farthest := by
  intro parser machine ran
  have keeps : crossed.KeepsText := by decide
  have termKeeps : twofold.KeepsText := by decide
  have missed : Ending.Missed ran := by decide +kernel
  obtain ⟨⟨positions, notes⟩, replaces⟩ :=
    keeps.labels_replace_reports termKeeps 12 [] "sum" machine
  obtain ⟨alone, farthest, _, refused, _⟩ := replaces positions notes
  rw [if_pos missed] at alone farthest
  have ⟨failure, stopped, _⟩ := missed
  exact ⟨keeps, termKeeps, missed, by decide +kernel, positions, notes, congrArg Prod.snd alone,
    congrArg Prod.snd farthest, congrArg Prod.snd (refused failure stopped)⟩

end Grammar

end Packrat
