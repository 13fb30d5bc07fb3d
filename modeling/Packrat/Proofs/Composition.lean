import Packrat.Proofs.Assembly

set_option autoImplicit false

namespace Packrat

namespace Parser

variable {ν : Type}

structure Compositional (R : (α : Type) → Parser ν α → Parser ν α → Prop) : Prop where
  leaf : ∀ {α : Type} {act : Source → Cursor → Move α}, Forward act → R α (leaf act) (leaf act)
  bind : ∀ {α β : Type} {first second : Parser ν α} {next other : α → Parser ν β},
    R α first second → (∀ value, R β (next value) (other value)) →
      R β (first >>= next) (second >>= other)
  branch : ∀ {α β : Type} {first second : Parser ν α} {found other : α → Parser ν β}
    {missed lost : Mismatch → Parser ν β}, R α first second →
      (∀ value, R β (found value) (other value)) →
      (∀ mismatch, R β (missed mismatch) (lost mismatch)) →
      R β (branch first found missed) (branch second other lost)
  ahead : ∀ {α : Type} {first second : Parser ν α}, R α first second →
    R α (ahead first) (ahead second)
  notHere : ∀ {α : Type} {first second : Parser ν α} (label : String), R α first second →
    R Unit (notHere label first) (notHere label second)
  isolated : ∀ {α : Type} {first second : Parser ν α}, R α first second →
    R (Except (Mismatch × Nat) α) (isolated first) (isolated second)
  atLevel : ∀ {α : Type} {first second : Parser ν α} (level : Int32), R α first second →
    R α (atLevel level first) (atLevel level second)

namespace Compositional

variable {R : (α : Type) → Parser ν α → Parser ν α → Prop} (respected : Compositional R)
variable {α β : Type} {first second : Parser ν α}

include respected

theorem look (read : Source → Cursor → α) : R α (look read) (look read) :=
  respected.leaf fun source cursor => .refl source cursor

theorem pure (value : α) : R α (pure value) (pure value) :=
  respected.look fun _ _ => value

theorem register (read : Source → Cursor → Nat) (label : String) (value : α) :
    R α (fun machine => .ok value (machine.register (read machine.source machine.cursor) label))
      (fun machine => .ok value (machine.register (read machine.source machine.cursor) label)) := by
  rw [register_eq]
  exact respected.leaf fun source cursor => .refl source cursor

theorem miss (mismatch : Mismatch) (label : Option (Nat × String)) :
    R α (miss mismatch label) (miss mismatch label) :=
  respected.leaf fun source cursor => .refl source cursor

theorem structural : Structural R where
  leaf forward _ := respected.leaf forward
  bind := respected.bind
  branch := respected.branch
  ahead := respected.ahead
  notHere := respected.notHere
  atomic label same := by
    rw [atomic_eq, atomic_eq]
    refine respected.bind (respected.look _) fun start => ?_
    refine respected.bind (respected.isolated same) fun result => ?_
    cases result with
    | ok value => exact respected.pure value
    | error missed => exact respected.miss missed.1 _
  expect label same := by
    rw [expect_eq, expect_eq]
    refine respected.bind (respected.isolated same) fun result => ?_
    cases result with
    | ok value => exact respected.pure value
    | error missed => exact respected.miss missed.1 _
  atLevel := respected.atLevel

end Compositional

structure Closed (P : (α : Type) → Parser ν α → Prop) : Prop where
  leaf : ∀ {α : Type} {act : Source → Cursor → Move α}, Forward act → P α (leaf act)
  bind : ∀ {α β : Type} {parser : Parser ν α} {next : α → Parser ν β},
    P α parser → (∀ value, P β (next value)) → P β (parser >>= next)
  branch : ∀ {α β : Type} {parser : Parser ν α} {found : α → Parser ν β}
    {missed : Mismatch → Parser ν β}, P α parser → (∀ value, P β (found value)) →
      (∀ mismatch, P β (missed mismatch)) → P β (branch parser found missed)
  ahead : ∀ {α : Type} {parser : Parser ν α}, P α parser → P α (ahead parser)
  notHere : ∀ {α : Type} {parser : Parser ν α} (label : String), P α parser →
    P Unit (notHere label parser)
  isolated : ∀ {α : Type} {parser : Parser ν α}, P α parser →
    P (Except (Mismatch × Nat) α) (isolated parser)
  atLevel : ∀ {α : Type} {parser : Parser ν α} (level : Int32), P α parser →
    P α (atLevel level parser)

namespace Closed

variable {P : (α : Type) → Parser ν α → Prop} {α : Type} {parser : Parser ν α}

theorem compositional (closed : Closed P) : Compositional fun α parser _ => P α parser where
  leaf := closed.leaf
  bind := closed.bind
  branch := closed.branch
  ahead := closed.ahead
  notHere := closed.notHere
  isolated := closed.isolated
  atLevel := closed.atLevel

theorem structural (closed : Closed P) : Structural fun α parser _ => P α parser :=
  closed.compositional.structural

theorem many (closed : Closed P) (stop : ∀ {α : Type}, P α (fail .exhausted)) (holds : P α parser)
    (n : Nat) : P (List α) (many parser n) :=
  @Sequential.many _ _ closed.structural.toSequential _ _ parser _ _ (fun _ => stop)
    (Nat.le_refl n) holds

theorem pure (closed : Closed P) (value : α) : P α (Pure.pure value) :=
  closed.structural.pure value

theorem attempt (closed : Closed P) (holds : P α parser) : P α (attempt parser) :=
  @Sequential.attempt _ _ closed.structural.toSequential _ _ parser holds

theorem optional (closed : Closed P) (holds : P α parser) : P (Option α) (optional parser) :=
  @Sequential.optional _ _ closed.structural.toSequential _ _ parser holds

theorem sequence (closed : Closed P) {γ : Type} {parts : List γ} {sub : γ → Parser ν α}
    (holds : ∀ part ∈ parts, P α (sub part)) : P (List α) (sequence (parts.map sub)) :=
  @Sequential.sequence _ _ closed.structural.toSequential _ _ _ _ sub holds

theorem choice (closed : Closed P) {γ : Type} {parts : List γ} {sub : γ → Parser ν α}
    (holds : ∀ part ∈ parts, P α (sub part)) : P α (choice (parts.map sub)) :=
  @Sequential.choice _ _ closed.structural.toSequential _ _ _ _ sub holds

theorem times (closed : Closed P) (holds : P α parser) (n : Nat) : P (List α) (times parser n) :=
  @Sequential.times _ _ closed.structural.toSequential _ _ parser holds n

end Closed

structure Passage (Ready : Machine ν → Prop) (R : Machine ν → Machine ν → Prop) : Prop where
  refl : ∀ {machine}, Ready machine → R machine machine
  trans : ∀ {before middle after}, R before middle → R middle after → R before after
  ready : ∀ {before after}, Ready before → R before after → Ready after
  moveTo : ∀ {before after cursor}, R before after → before.source.Reaches before.cursor cursor →
    R before (after.moveTo cursor)
  register : ∀ {before after} {index : Nat} (label : String), R before after →
    before.source.Reaches before.cursor { before.cursor with index } →
    R before (after.register index label)

namespace Passage

variable {Ready : Machine ν → Prop} {R : Machine ν → Machine ν → Prop} (passage : Passage Ready R)
variable {α β : Type} {parser : Parser ν α} {machine : Machine ν}

include passage

theorem back {before after : Machine ν} (ran : R before after) :
    R before (after.moveTo before.cursor) :=
  passage.moveTo ran (.refl _ _)

theorem leaf {act : Source → Cursor → Move α} (forward : Forward act) (anchored : Anchored act)
    (ready : Ready machine) : R machine (Ending.machine (leaf act machine)) := by
  have moved := passage.moveTo (passage.refl ready) (forward machine.source machine.cursor)
  rw [machine_leaf]
  cases labelled : (act machine.source machine.cursor).label with
  | none => exact moved
  | some label => exact passage.register label.2 moved (anchored _ _ _ _ labelled)

theorem bind {next : α → Parser ν β}
    (runs : ∀ machine, Ready machine → R machine (Ending.machine (parser machine)))
    (continued : ∀ value machine, Ready machine → R machine (Ending.machine (next value machine)))
    (ready : Ready machine) : R machine (Ending.machine ((parser >>= next) machine)) := by
  have first := runs machine ready
  rw [bind_apply]
  cases ending : parser machine with
  | ok value after =>
    rw [ending] at first
    exact passage.trans first (continued value after (passage.ready ready first))
  | error failure after => rwa [ending] at first

theorem branch {found : α → Parser ν β} {missed : Mismatch → Parser ν β}
    (runs : ∀ machine, Ready machine → R machine (Ending.machine (parser machine)))
    (matched : ∀ value machine, Ready machine → R machine (Ending.machine (found value machine)))
    (unmatched : ∀ mismatch machine, Ready machine →
      R machine (Ending.machine (missed mismatch machine)))
    (ready : Ready machine) : R machine (Ending.machine (branch parser found missed machine)) := by
  have first := runs machine ready
  unfold Parser.branch
  cases ending : parser machine with
  | ok value after =>
    rw [ending] at first
    exact passage.trans first (matched value after (passage.ready ready first))
  | error failure after =>
    rw [ending] at first
    by_cases recoverable : failure.recoverable = true
    next =>
      simp only [recoverable, dite_true]
      have back := passage.back first
      exact passage.trans back (unmatched ⟨failure, recoverable⟩ _ (passage.ready ready back))
    next => simpa [recoverable] using first

theorem ahead (runs : ∀ machine, Ready machine → R machine (Ending.machine (parser machine)))
    (ready : Ready machine) : R machine (Ending.machine (ahead parser machine)) := by
  have first := runs machine ready
  unfold Parser.ahead
  cases ending : parser machine with
  | ok value after =>
    rw [ending] at first
    exact passage.back first
  | error failure after =>
    rw [ending] at first
    simp only
    split
    next => exact passage.back first
    next => exact first

theorem sequential : Sequential fun _ parser _ =>
    ∀ machine : Machine ν, Ready machine → R machine (Ending.machine (parser machine)) where
  leaf forward anchored _ := passage.leaf forward anchored
  bind runs continued _ := passage.bind runs continued
  branch runs matched unmatched _ := passage.branch runs matched unmatched

end Passage

/-- A relation from the machine that a run begins on, if that is ready, to the machine that it ends
with, by what the blocks do to a machine. -/
structure Course (Ready : Machine ν → Prop) (R : Machine ν → Machine ν → Prop) : Prop where
  refl : ∀ {machine}, Ready machine → R machine machine
  trans : ∀ {before middle after}, R before middle → R middle after → R before after
  ready : ∀ {before after}, Ready before → R before after → Ready after
  moveTo : ∀ {before after cursor}, R before after → before.source.Reaches before.cursor cursor →
    R before (after.moveTo cursor)
  register : ∀ {before after} (index : Nat) (label : String), R before after →
    R before (after.register index label)
  pushFrame : ∀ {machine} (index : Nat), Ready machine → Ready (machine.pushFrame index)
  dropFrame : ∀ {before after} {index : Nat}, R (before.pushFrame index) after →
    R before after.dropFrame
  setLevel : ∀ {machine} (level : Int32), Ready machine → Ready (machine.setLevel level)
  putBack : ∀ {before after} {level : Int32}, R (before.setLevel level) after →
    R before (after.setLevel before.cursor.level)

namespace Course

variable {Ready : Machine ν → Prop} {R : Machine ν → Machine ν → Prop}

theorem passage (course : Course Ready R) : Passage Ready R where
  refl := course.refl
  trans := course.trans
  ready := course.ready
  moveTo := course.moveTo
  register label ran _ := course.register _ label ran

theorem back (course : Course Ready R) {before after : Machine ν} (ran : R before after) :
    R before (after.moveTo before.cursor) :=
  course.passage.back ran

theorem expect (course : Course Ready R) {before after : Machine ν} (ran : R before after)
    (label : Option (Nat × String)) : R before (after.expect label) := by
  cases label with
  | none => exact ran
  | some label => exact course.register label.1 label.2 ran

theorem closed (course : Course Ready R) : Closed fun _ parser =>
    ∀ machine : Machine ν, Ready machine → R machine (Ending.machine (parser machine)) where
  leaf {_ act} forward machine ready := by
    rw [machine_leaf]
    exact course.expect (course.moveTo (course.refl ready) (forward _ _)) _
  bind runs continued _ := course.passage.bind runs continued
  branch runs matched unmatched _ := course.passage.branch runs matched unmatched
  ahead runs _ := course.passage.ahead runs
  notHere {_ parser} label runs machine ready := by
    have first := runs _ (course.pushFrame machine.cursor.index ready)
    simp only [notHere]
    cases ending : parser (machine.pushFrame machine.cursor.index) with
    | ok value after =>
      rw [ending] at first
      exact course.register _ _ (course.back (course.dropFrame first))
    | error failure after =>
      rw [ending] at first
      simp only
      split <;> exact course.back (course.dropFrame first)
  isolated {_ parser} runs machine ready := by
    have first := runs _ (course.pushFrame machine.cursor.index ready)
    unfold isolated
    cases ending : parser (machine.pushFrame machine.cursor.index) with
    | ok value after =>
      rw [ending] at first
      exact course.dropFrame first
    | error failure after =>
      rw [ending] at first
      simp only
      split
      next => exact course.back (course.dropFrame first)
      next => exact course.dropFrame first
  atLevel {_ parser} level runs machine ready := by
    have first := runs _ (course.setLevel level ready)
    unfold atLevel
    cases ending : parser (machine.setLevel level) with
    | ok value after | error failure after =>
      rw [ending] at first
      exact course.putBack first

end Course

end Parser

namespace Grammar

open Packrat.Parser

theorem Term.related {R : (α : Type) → Parser Stored α → Parser Stored α → Prop}
    (respected : Compositional R) {left right : Grammar}
    {n m : Nat} {args : List Arg} {term : Term} (plain : term.plain = true)
    (parts : ∀ part ∈ term.parts,
      R Value (part.parser left n args) (part.parser right m args))
    (loop : ∀ {α : Type} {first second : Parser Stored α}, R α first second →
      R (List α) (Parser.many first n) (Parser.many second m))
    (call : ∀ shape key argTerms, term = .call shape key argTerms →
      R Value (term.parser left (n + 1) args) (term.parser right (m + 1) args)) :
    R Value (term.parser left (n + 1) args) (term.parser right (m + 1) args) := by
  by_cases anchored : term.anchored = true
  next => exact Term.assembled respected.structural plain anchored parts loop call
  next =>
    cases term <;> simp only [Term.anchored, not_true_eq_false] at anchored
    case registerAt index label => exact respected.register (fun _ _ => index) label Value.null
    case failAt index label => exact respected.miss noMatch (some (index, label))

theorem Term.holds {P : (α : Type) → Parser Stored α → Prop} (closed : Closed P)
    {grammar : Grammar} {n : Nat} {args : List Arg} {term : Term}
    (plain : term.plain = true)
    (parts : ∀ part ∈ term.parts, P Value (part.parser grammar n args))
    (loop : ∀ {α : Type} {parser : Parser Stored α}, P α parser →
      P (List α) (Parser.many parser n))
    (call : ∀ shape key argTerms, term = .call shape key argTerms →
      P Value (term.parser grammar (n + 1) args)) :
    P Value (term.parser grammar (n + 1) args) :=
  @Term.related _ closed.compositional grammar grammar n n _ _ plain parts loop call

section Throughout

variable {P : (α : Type) → Parser Stored α → Prop} (closed : Closed P)
  (stop : ∀ {α : Type}, P α (Parser.fail .exhausted)) {grammar : Grammar}

include closed stop

theorem Term.holds_throughout {Fits : Term → Prop}
    (plain : ∀ {term}, Fits term → term.plain = true)
    (part : ∀ {term part}, Fits term → part ∈ term.parts → Fits part)
    (body : ∀ {shape key argTerms definition}, Fits (.call shape key argTerms) →
      grammar.find? key = some definition → Fits definition.body)
    (call : ∀ {shape key argTerms definition n passed}, Fits (.call shape key argTerms) →
      grammar.find? key = some definition → P Value (definition.body.parser grammar n passed) →
      P Value (invoke (Stored.codec shape) definition.rule passed
        (definition.body.parser grammar n passed) n))
    (n : Nat) (args : List Arg) {term : Term} (fits : Fits term) :
    P Value (term.parser grammar n args) :=
  Term.throughout stop closed.structural.noMatch
    (fun fits parts => Term.holds closed (plain fits) parts fun holds => closed.many stop holds _)
    part body call n args fits

theorem Pure.holds (pure : grammar.Pure)
    (call : ∀ {shape key definition n passed}, grammar.find? key = some definition →
      P Value (definition.body.parser grammar n passed) →
      P Value (invoke (Stored.codec shape) definition.rule passed
        (definition.body.parser grammar n passed) n))
    (n : Nat) (args : List Arg) {term : Term} (termPure : term.Pure) :
    P Value (term.parser grammar n args) :=
  Term.holds_throughout closed stop Term.Pure.plain Term.Pure.part (fun _ => pure.body)
    (fun _ => call) n args termPure

end Throughout

end Grammar

end Packrat
