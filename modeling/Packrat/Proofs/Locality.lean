import Packrat.Proofs.Replay

set_option autoImplicit false

namespace Packrat

variable {ν : Type}

def Signal.enters (watched : Call → Bool) : Signal ν → Bool
  | .step call _ .entering => watched call
  | _ => false

def entries (watched : Call → Bool) (journal : List (Signal ν)) : Nat :=
  journal.countP (Signal.enters watched)

theorem entries_append (watched : Call → Bool) (added journal : List (Signal ν)) :
    entries watched (added ++ journal) = entries watched added + entries watched journal :=
  List.countP_append

theorem entries_cons {watched : Call → Bool} {signal : Signal ν}
    (other : signal.enters watched = false) (journal : List (Signal ν)) :
    entries watched (signal :: journal) = entries watched journal :=
  List.countP_cons_of_neg (by simp [other])

theorem entries_entering {watched : Call → Bool} {call : Call} (looks : watched call = true)
    (index : Nat) (journal : List (Signal ν)) :
    entries watched (.step call index .entering :: journal) = entries watched journal + 1 :=
  List.countP_cons_of_pos looks

def only (call : Call) : Call → Bool :=
  fun other => other = call

def seedIn (activations : List (Activation ν)) (call : Call) : Option (Option (Seed ν)) :=
  (activations.find? fun activation => activation.call = call).map Activation.seed

theorem seedIn_reenter (entered : Call) (activations : List (Activation ν)) (call : Call) :
    seedIn (Activation.reenter entered activations) call = seedIn activations call := by
  unfold seedIn
  induction activations with
  | nil => rfl
  | cons activation outer ih =>
    by_cases same : activation.call = entered <;> by_cases own : activation.call = call <;>
      simp_all [Activation.reenter]

theorem seedIn_append (inner around : List (Activation ν)) (call : Call) :
    seedIn (inner ++ around) call = (seedIn inner call).or (seedIn around call) := by
  unfold seedIn
  rw [List.find?_append]
  cases inner.find? fun activation => activation.call = call <;> rfl

theorem seedIn_of_follows {before after : List (Activation ν)}
    (follows : List.Forall₂ Activation.Follows before after) (call : Call) :
    seedIn after call = seedIn before call := by
  unfold seedIn
  induction follows with
  | nil => rfl
  | @cons activation later _ _ same _ ih =>
    by_cases own : activation.call = call
    next => simp [own, same.call, same.seed]
    next => simpa [own, same.call] using ih

structure Watch where
  watched : Call → Bool
  left : Nat
  right : Nat

/-- Two machines with the same activations up to some of them, around which other activations stand.
The calls that are not watched find the same seeds there. -/
structure Beside (watch : Watch) (framed : Prop) (inner around other : List (Activation ν))
    (left right : Machine ν) : Prop where
  source : right.source = left.source
  cursor : right.cursor = left.cursor
  frame : framed → right.farthest.innermost = left.farthest.innermost
  first : left.active.activations = inner ++ around
  second : right.active.activations = inner ++ other
  seeds : ∀ call, watch.watched call = false → seedIn around call = seedIn other call
  plain : left.config.memoize = false ∧ right.config.memoize = false
  entered : entries watch.watched left.journal = watch.left ∧
    entries watch.watched right.journal = watch.right

namespace Beside

variable {watch : Watch} {framed : Prop} {inner around other : List (Activation ν)}
  {left right : Machine ν}

theorem moveTo (beside : Beside watch framed inner around other left right) (cursor : Cursor) :
    Beside watch framed inner around other (left.moveTo cursor) (right.moveTo cursor) :=
  { beside with cursor := rfl }

theorem setLevel (beside : Beside watch framed inner around other left right) (level : Int32) :
    Beside watch framed inner around other (left.setLevel level) (right.setLevel level) :=
  { beside with cursor := by simp [Machine.setLevel, beside.cursor] }

theorem write (beside : Beside watch framed inner around other left right) (first second : Signal ν)
    (silent : first.enters watch.watched = false) (quiet : second.enters watch.watched = false) :
    Beside watch framed inner around other (left.write first) (right.write second) :=
  { beside with
    entered := ⟨(entries_cons silent _).trans beside.entered.1,
      (entries_cons quiet _).trans beside.entered.2⟩ }

theorem register (beside : Beside watch framed inner around other left right) (index : Nat)
    (label : String) :
    Beside watch framed inner around other (left.register index label)
      (right.register index label) :=
  { beside.write (.expected index label) (.expected index label) rfl rfl with
    frame := fun framed => by
      simp [Machine.register, Farthest.Stack.register, beside.frame framed] }

theorem expect (beside : Beside watch framed inner around other left right)
    (label : Option (Nat × String)) :
    Beside watch framed inner around other (left.expect label) (right.expect label) := by
  cases label with
  | none => exact beside
  | some label => exact beside.register label.1 label.2

theorem pushFrame (beside : Beside watch framed inner around other left right) (index : Nat) :
    Beside watch True inner around other (left.pushFrame index) (right.pushFrame index) :=
  { beside with frame := fun _ => rfl }

theorem dropFrame {index : Nat} {later among third : List (Activation ν)} {after last : Machine ν}
    (beside : Beside watch framed inner around other left right)
    (inside : Beside watch True later among third after last)
    (first : (left.pushFrame index).Later after) (second : (right.pushFrame index).Later last) :
    Beside watch framed later among third after.dropFrame last.dropFrame :=
  { inside with
    frame := fun framed => by
      rw [first.dropFrame.2, second.dropFrame.2]
      exact beside.frame framed }

end Beside

def Met {α : Type} (watch : Watch) (left right : Ending ν α) : Prop :=
  watch.left < entries watch.watched left.machine.journal ∧
    watch.right < entries watch.watched right.machine.journal

inductive Matched {α : Type} (watch : Watch) (framed : Prop) (depth : Nat) :
    Ending ν α → Ending ν α → Prop
  | ok {inner around other : List (Activation ν)} {left right : Machine ν} (value : α)
      (length : inner.length = depth)
      (beside : Beside watch framed inner around other left right) :
      Matched watch framed depth (.ok value left) (.ok value right)
  | error {inner around other : List (Activation ν)} {left right : Machine ν} (failure : Failure)
      (length : inner.length = depth)
      (beside : Beside watch framed inner around other left right) :
      Matched watch framed depth (.error failure left) (.error failure right)

theorem Matched.entered {α : Type} {watch : Watch} {framed : Prop} {depth : Nat}
    {left right : Ending ν α} (matched : Matched watch framed depth left right) :
    entries watch.watched left.machine.journal = watch.left ∧
      entries watch.watched right.machine.journal = watch.right := by
  cases matched with
  | ok _ _ beside => exact beside.entered
  | error _ _ beside => exact beside.entered

theorem entries_later {watched : Call → Bool} {journal later : List (Signal ν)}
    (since : ∃ added, later = added ++ journal) :
    entries watched journal ≤ entries watched later := by
  obtain ⟨added, rfl⟩ := since
  rw [entries_append]
  omega

theorem Met.leads {α β : Type} {watch : Watch} {left right : Ending ν α} {whole other : Ending ν β}
    (met : Met watch left right) (first : left.Leads whole) (second : right.Leads other) :
    Met watch whole other :=
  ⟨Nat.lt_of_lt_of_le met.1 (entries_later first.onward.journal),
    Nat.lt_of_lt_of_le met.2 (entries_later second.onward.journal)⟩

namespace Parser

variable {α : Type}

structure Local (parser : Parser ν α) : Prop where
  orderly : Orderly parser
  alike : ∀ {watch : Watch} {framed : Prop} {inner around other : List (Activation ν)}
    {left right : Machine ν}, Beside watch framed inner around other left right →
      Met watch (parser left) (parser right) ∨
      Matched watch framed inner.length (parser left) (parser right)

theorem Local.stop : Local (fail .exhausted : Parser ν α) :=
  ⟨orderly_stop, fun beside => .inr (.error .exhausted rfl beside)⟩

theorem local_blocks : Closed (ν := ν) fun _ parser => Local parser where
  leaf {_ act} forward :=
    { orderly := orderly_blocks.leaf forward
      alike := by
        intro watch framed inner around other left right beside
        refine .inr ?_
        unfold leaf
        rw [beside.source, beside.cursor]
        generalize act left.source left.cursor = move
        have after := (beside.moveTo move.cursor).expect move.label
        obtain ⟨outcome, cursor, label⟩ := move
        cases outcome with
        | ok value => exact .ok value rfl after
        | error mismatch => exact .error mismatch.val rfl after }
  bind {_ _ parser next} first continued :=
    { orderly := orderly_blocks.bind first.orderly fun value => (continued value).orderly
      alike := by
        intro watch framed inner around other left right beside
        have leads (machine : Machine ν) :
            Ending.Leads (parser machine) ((parser >>= next) machine) :=
          leads_bind (fun value => (continued value).orderly) machine
        rcases first.alike beside with met | matched
        next => exact .inl (met.leads (leads left) (leads right))
        next =>
          rw [bind_apply, bind_apply]
          generalize parser left = ending, parser right = ending' at matched ⊢
          cases matched with
          | ok value length after => exact length ▸ (continued value).alike after
          | error failure length after => exact .inr (.error failure length after) }
  branch {_ _ parser found missed} first matching missing :=
    { orderly := orderly_blocks.branch first.orderly (fun value => (matching value).orderly)
        fun mismatch => (missing mismatch).orderly
      alike := by
        intro watch framed inner around other left right beside
        have leads (machine : Machine ν) :
            Ending.Leads (parser machine) (branch parser found missed machine) :=
          leads_branch (fun value => (matching value).orderly)
            (fun mismatch => (missing mismatch).orderly) machine
        rcases first.alike beside with met | matched
        next => exact .inl (met.leads (leads left) (leads right))
        next =>
          unfold branch
          rw [beside.cursor]
          generalize parser left = ending, parser right = ending' at matched ⊢
          cases matched with
          | ok value length after => exact length ▸ (matching value).alike after
          | error failure length after =>
            by_cases recoverable : failure.recoverable = true
            next =>
              simp only [recoverable, dite_true]
              exact length ▸ (missing ⟨failure, recoverable⟩).alike (after.moveTo _)
            next =>
              simp only [recoverable]
              exact .inr (.error failure length after) }
  ahead {_ parser} first :=
    { orderly := orderly_blocks.ahead first.orderly
      alike := by
        intro watch framed inner around other left right beside
        rcases first.alike beside with met | matched
        next => exact .inl (met.leads (leads_ahead left) (leads_ahead right))
        next =>
          unfold ahead
          rw [beside.cursor]
          generalize parser left = ending, parser right = ending' at matched ⊢
          cases matched with
          | ok value length after => exact .inr (.ok value length (after.moveTo _))
          | error failure length after =>
            simp only
            split
            next => exact .inr (.error failure length (after.moveTo _))
            next => exact .inr (.error failure length after) }
  notHere {_ parser} label first :=
    { orderly := orderly_blocks.notHere label first.orderly
      alike := by
        intro watch framed inner around other left right beside
        have one := first.orderly (left.pushFrame left.cursor.index)
        have two := first.orderly (right.pushFrame right.cursor.index)
        have found := first.alike (beside.pushFrame right.cursor.index)
        have leads := leads_notHere parser label left
        rw [← beside.cursor] at one leads
        rcases found with met | matched
        next => exact .inl (met.leads leads (leads_notHere parser label right))
        next =>
          simp only [notHere]
          rw [← beside.cursor]
          generalize parser (left.pushFrame right.cursor.index) = ending,
            parser (right.pushFrame right.cursor.index) = ending' at matched one two ⊢
          cases matched with
          | ok value length after =>
            have dropped := beside.dropFrame after one two
            exact .inr (.error .noMatch length ((dropped.moveTo _).register _ _))
          | error failure length after =>
            have dropped := beside.dropFrame after one two
            simp only
            split
            next => exact .inr (.ok () length (dropped.moveTo _))
            next => exact .inr (.error failure length (dropped.moveTo _)) }
  isolated {_ parser} first :=
    { orderly := orderly_blocks.isolated first.orderly
      alike := by
        intro watch framed inner around other left right beside
        have one := first.orderly (left.pushFrame left.cursor.index)
        have two := first.orderly (right.pushFrame right.cursor.index)
        have found := first.alike (beside.pushFrame right.cursor.index)
        have leads := leads_isolated parser left
        rw [← beside.cursor] at one leads
        rcases found with met | matched
        next => exact .inl (met.leads leads (leads_isolated parser right))
        next =>
          unfold isolated
          rw [← beside.cursor]
          generalize parser (left.pushFrame right.cursor.index) = ending,
            parser (right.pushFrame right.cursor.index) = ending' at matched one two ⊢
          cases matched with
          | ok value length after =>
            exact .inr (.ok (Except.ok value) length (beside.dropFrame after one two))
          | error failure length after =>
            have dropped := beside.dropFrame after one two
            by_cases recoverable : failure.recoverable = true
            next =>
              simp only [recoverable, dite_true, after.frame trivial]
              exact .inr (.ok _ length (dropped.moveTo _))
            next =>
              simp only [recoverable]
              exact .inr (.error failure length dropped) }
  atLevel {_ parser} level first :=
    { orderly := orderly_blocks.atLevel level first.orderly
      alike := by
        intro watch framed inner around other left right beside
        rcases first.alike (beside.setLevel level) with met | matched
        next => exact .inl (met.leads (leads_atLevel level left) (leads_atLevel level right))
        next =>
          unfold atLevel
          rw [beside.cursor]
          generalize parser (left.setLevel level) = ending,
            parser (right.setLevel level) = ending' at matched ⊢
          cases matched with
          | ok value length after => exact .inr (.ok value length (after.setLevel _))
          | error failure length after => exact .inr (.error failure length (after.setLevel _)) }

end Parser

open Packrat.Parser

theorem entries_settle (watched : Call → Bool) (call : Call) (memoized : Bool)
    (outcome : Except Failure ν) (machine : Machine ν) :
    entries watched (settle call memoized outcome machine).journal =
      entries watched machine.journal := by
  have result := settled call memoized outcome machine
  generalize settle call memoized outcome machine = last at result ⊢
  cases result with
  | withheld => exact entries_cons rfl _
  | stored => exact entries_cons rfl _
  | dropped => rfl

theorem Activation.reenter_append_of_inactive {call : Call} {inner around : List (Activation ν)}
    (inactive : call ∉ inner.map Activation.call) :
    reenter call (inner ++ around) =
      inner.map (fun activation => { activation with tainted := true }) ++ reenter call around := by
  induction inner with
  | nil => rfl
  | cons activation inner ih =>
    simp only [List.map_cons, List.mem_cons, not_or] at inactive
    have different : activation.call ≠ call := Ne.symm inactive.1
    simp [reenter, different, ih inactive.2]

namespace Beside

variable {α : Type} {call : Call} {watch : Watch} {framed : Prop}
  {inner around other : List (Activation ν)} {left right : Machine ν}

theorem replant {activation : Activation ν}
    (beside : Beside watch framed (activation :: inner) around other left right)
    (codec : Codec ν α) (call : Call) (value : α) :
    ∃ planted : Activation ν, Beside watch framed (planted :: inner) around other
      (Parser.replant codec call value left) (Parser.replant codec call value right) := by
  let seed : Seed ν := { value := codec.encode value, cursor := left.cursor }
  have reported := beside.write (.step call left.cursor.index .grew)
    (.step call right.cursor.index .grew) rfl rfl
  refine ⟨{ activation with recursive := false, seed := some seed }, { reported with
    cursor := rfl, first := ?_, second := ?_ }⟩
  next => simp [Parser.replant, Active.plant, beside.first, Activation.plant, seed]
  next =>
    simp [Parser.replant, Active.plant, beside.second, beside.cursor, Activation.plant, seed]

theorem opened (beside : Beside watch framed inner around other left right) (call : Call) :
    Beside watch True ({ call } :: inner) around other (Parser.opened call left)
      (Parser.opened call right) :=
  { beside with
    frame := fun _ => rfl
    first := by simp [Parser.opened, Active.push, beside.first]
    second := by simp [Parser.opened, Active.push, beside.second] }

theorem settle {activation : Activation ν} {rest among third : List (Activation ν)}
    {after last : Machine ν} (beside : Beside watch framed inner around other left right)
    (inside : Beside watch True (activation :: rest) among third after last)
    (one : (Parser.opened call left).Inside after) (two : (Parser.opened call right).Inside last)
    (outcome : Except Failure ν) :
    Beside watch framed rest among third (Parser.settle call false outcome after)
      (Parser.settle call false outcome last) := by
  have first := popped_settle call false outcome after
  have second := popped_settle call false outcome last
  refine ⟨?_, ?_, fun framed => ?_, ?_, ?_, inside.seeds, ?_, ?_⟩
  next => rw [first.source, second.source, inside.source]
  next => rw [first.cursor, second.cursor, inside.cursor]
  next =>
    rw [first.farthest, second.farthest, innermost_popMerge one, innermost_popMerge two,
      beside.frame framed, inside.frame trivial]
  next => simp [first.active, Active.pop, inside.first]
  next => simp [second.active, Active.pop, inside.second]
  next => rw [first.config, second.config]; exact inside.plain
  next => rw [entries_settle, entries_settle]; exact inside.entered

theorem find? (beside : Beside watch framed inner around other left right)
    (unwatched : watch.watched call = false) :
    (left.active.find? call).map Activation.seed = (right.active.find? call).map Activation.seed := by
  rw [Active.find?_eq, Active.find?_eq, beside.first, beside.second]
  change seedIn (inner ++ around) call = seedIn (inner ++ other) call
  rw [seedIn_append, seedIn_append, beside.seeds call unwatched]

theorem reenter (beside : Beside watch framed inner around other left right) (call : Call) :
    ∃ marked among third, List.length marked = inner.length ∧
      Beside watch framed marked among third { left with active := left.active.reenter call }
        { right with active := right.active.reenter call } := by
  by_cases begun : call ∈ inner.map Activation.call
  next =>
    have length := congrArg List.length (Activation.calls_reenter call inner)
    rw [List.length_map, List.length_map] at length
    refine ⟨Activation.reenter call inner, around, other, length, { beside with
      first := ?_, second := ?_ }⟩
    next => simp [Active.reenter, beside.first, Activation.reenter_append begun]
    next => simp [Active.reenter, beside.second, Activation.reenter_append begun]
  next =>
    refine ⟨inner.map fun activation => { activation with tainted := true },
      Activation.reenter call around, Activation.reenter call other, by simp, { beside with
        first := ?_, second := ?_, seeds := ?_ }⟩
    next => simp only [Active.reenter, beside.first, Activation.reenter_append_of_inactive begun]
    next => simp only [Active.reenter, beside.second, Activation.reenter_append_of_inactive begun]
    next =>
      intro third unwatched
      rw [seedIn_reenter, seedIn_reenter]
      exact beside.seeds third unwatched

end Beside

theorem Matched.useSeed {α : Type} {codec : Codec ν α} {call : Call} {watch : Watch} {framed : Prop}
    {inner around other : List (Activation ν)} {left right : Machine ν} {depth : Nat}
    (length : inner.length = depth)
    (beside : Beside watch framed inner around other left right) (seed : Seed ν) :
    Matched watch framed depth (Parser.useSeed codec call seed left)
      (Parser.useSeed codec call seed right) := by
  unfold Parser.useSeed
  have moved := beside.moveTo seed.cursor
  cases codec.read call.rule seed.value with
  | ok value => exact .ok value length moved
  | error failure => exact .error failure length moved

namespace Parser

variable {α : Type}

section Invoke

variable {codec : Codec ν α} {call : Call} {body : Parser ν α} {watch : Watch} {framed : Prop}
  {inner around other : List (Activation ν)} {left right : Machine ν} {n : Nat}

theorem matched_round (codec : Codec ν α) (call : Call) {depth : Nat} {first second : Ending ν α}
    (matched : Matched watch framed (depth + 1) first second) :
    (∃ last final, round codec call first = .done last ∧ round codec call second = .done final ∧
      Matched watch framed (depth + 1) last final) ∨
    ∃ next following inner around other, round codec call first = .again next ∧
      round codec call second = .again following ∧ List.length inner = depth + 1 ∧
      Beside watch framed inner around other next following := by
  have innermost {inner around other : List (Activation ν)} {left right : Machine ν}
      (length : inner.length = depth + 1)
      (beside : Beside watch framed inner around other left right) :
      right.active.innermost? = left.active.innermost? := by
    have begun := List.ne_nil_of_length_eq_add_one length
    unfold Active.innermost?
    rw [beside.first, beside.second, List.head?_append_of_ne_nil _ begun,
      List.head?_append_of_ne_nil _ begun]
  cases matched with
  | @error inner around other left right failure length beside =>
    simp only [round, innermost length beside]
    cases left.active.innermost?.bind Activation.seed with
    | none => exact .inl ⟨_, _, rfl, rfl, .error failure length beside⟩
    | some seed =>
      cases failure.recoverable with
      | true => exact .inl ⟨_, _, rfl, rfl, .useSeed length beside seed⟩
      | false => exact .inl ⟨_, _, rfl, rfl, .error failure length beside⟩
  | @ok inner around other left right value length beside =>
    simp only [round, innermost length beside, beside.cursor]
    cases left.active.innermost? with
    | none => exact .inl ⟨_, _, rfl, rfl, .ok value length beside⟩
    | some activation =>
      simp only
      split
      next => exact .inl ⟨_, _, rfl, rfl, .ok value length beside⟩
      next =>
        split
        next seed _ => exact .inl ⟨_, _, rfl, rfl, .useSeed length beside seed⟩
        next =>
          cases inner with
          | nil => simp at length
          | cons own inner =>
            obtain ⟨planted, after⟩ := beside.replant codec call value
            exact .inr ⟨_, _, _, _, _, rfl, rfl, by simpa using length, after⟩

theorem Local.grow (isLocal : Local body) (codec : Codec ν α) (call : Call) {depth : Nat}
    (length : inner.length = depth + 1)
    (beside : Beside watch framed inner around other left right) :
    Met watch (grow codec call body n left) (grow codec call body n right) ∨
    Matched watch framed (depth + 1) (grow codec call body n left)
      (grow codec call body n right) := by
  induction n generalizing inner around other left right with
  | zero => exact .inr (.error .exhausted length beside)
  | succ n ih =>
    have found := isLocal.alike beside
    rw [length] at found
    rcases found with met | matched
    next =>
      exact .inl (met.leads (leads_grow isLocal.orderly n left) (leads_grow isLocal.orderly n right))
    next =>
      rw [grow_succ, grow_succ]
      rcases matched_round codec call matched with
        ⟨last, final, one, two, same⟩ | ⟨next, following, _, _, _, one, two, size, after⟩
      next =>
        rw [one, two]
        exact .inr same
      next =>
        rw [one, two]
        exact ih size after

theorem matched_close {first second : Ending ν α} (codec : Codec ν α) (call : Call)
    (matched : Matched watch True (inner.length + 1) first second)
    (beside : Beside watch framed inner around other left right)
    (one : (opened call left).Inside first.machine)
    (two : (opened call right).Inside second.machine) :
    Matched watch framed inner.length (close codec call false first)
      (close codec call false second) := by
  cases matched with
  | @ok later _ _ _ _ value length inside =>
    cases later with
    | nil => simp at length
    | cons activation rest =>
      exact .ok value (by simpa using length) (beside.settle inside one two _)
  | @error later _ _ _ _ failure length inside =>
    cases later with
    | nil => simp at length
    | cons activation rest =>
      exact .error failure (by simpa using length)
        (beside.settle (inside.moveTo call.cursor) (one.moveTo _) (two.moveTo _) _)

theorem met_close {first second : Ending ν α} (codec : Codec ν α) (call : Call)
    (met : Met watch first second) :
    Met watch (close codec call false first) (close codec call false second) :=
  ⟨Nat.lt_of_lt_of_le met.1 (entries_later (journal_close codec call false first)),
    Nat.lt_of_lt_of_le met.2 (entries_later (journal_close codec call false second))⟩

theorem matched_reported {depth : Nat} {first second : Ending ν α}
    (matched : Matched watch framed depth first second) :
    Matched watch framed depth (reported codec call first) (reported codec call second) := by
  cases matched with
  | ok value length beside => exact .ok value length (beside.write _ _ rfl rfl)
  | error failure length beside => exact .error failure length (beside.write _ _ rfl rfl)

theorem Local.evaluate (isLocal : Local body)
    (beside : Beside watch framed inner around other left right)
    (unwatched : watch.watched call = false) :
    Met watch (evaluate codec call false body n left) (evaluate codec call false body n right) ∨
    Matched watch framed inner.length (evaluate codec call false body n left)
      (evaluate codec call false body n right) := by
  have seeds := beside.find? unwatched
  unfold Parser.evaluate
  cases one : left.active.find? call with
  | some activation =>
    cases two : right.active.find? call with
    | none => simp [one, two] at seeds
    | some alternative =>
      have seed : activation.seed = alternative.seed := by simpa [one, two] using seeds
      obtain ⟨marked, among, third, length, after⟩ := beside.reenter call
      have reported (seeded : Bool) := after.write
        (.step call left.cursor.index (.reentered seeded))
        (.step call right.cursor.index (.reentered seeded)) rfl rfl
      refine .inr ?_
      simp only [Parser.reenter, ← seed]
      cases activation.seed with
      | none => exact .error .unseeded length (reported false)
      | some seed => exact .useSeed length (reported true) seed
  | none =>
    cases two : right.active.find? call with
    | some alternative => simp [one, two] at seeds
    | none =>
      simp only [activate_eq]
      rcases isLocal.grow codec call rfl (beside.opened call) with met | matched
      next => exact .inl (met_close codec call met)
      next =>
        exact .inr (matched_close codec call matched beside (inside_grow isLocal.orderly n _)
          (inside_grow isLocal.orderly n _))

theorem Local.invoke (isLocal : Local body) (codec : Codec ν α) (rule : Rule) (args : List Arg)
    (n : Nat) : Local (invoke codec rule args body n) where
  orderly := isLocal.orderly.invoke codec rule args n
  alike := by
    intro watch framed inner around other left right beside
    let call := callOf rule args left
    have same : callOf rule args right = call := by simp [call, callOf, beside.cursor]
    rw [invoke_eq, invoke_eq, same, beside.plain.1, beside.plain.2, Bool.and_false]
    have since (machine : Machine ν) : ∃ added, (Ending.machine (reported codec call
        (answer codec call false body n (machine.report call .entering)))).journal =
          added ++ (machine.report call .entering).journal := by
      obtain ⟨added, answered⟩ := (later_answer false isLocal.orderly n :
        (machine.report call .entering).Later (Ending.machine (answer codec call false body n _))).onward.journal
      obtain ⟨more, told⟩ := (leads_reported codec call
        (answer codec call false body n (machine.report call .entering))).onward.journal
      exact ⟨more ++ added, by rw [told, answered, List.append_assoc]⟩
    by_cases looks : watch.watched call = true
    next =>
      -- Both runs enter a watched call.
      have entered (machine : Machine ν) : entries watch.watched machine.journal <
          entries watch.watched (Ending.machine (reported codec call
            (answer codec call false body n (machine.report call .entering)))).journal :=
        Nat.lt_of_lt_of_le
          (Nat.lt_of_lt_of_eq (Nat.lt_succ_self _) (entries_entering looks _ _).symm)
          (entries_later (since machine))
      exact .inl ⟨beside.entered.1 ▸ entered left, beside.entered.2 ▸ entered right⟩
    next =>
      have unwatched : watch.watched call = false := by simpa using looks
      have entered := beside.write (.step call left.cursor.index .entering)
        (.step call right.cursor.index .entering) unwatched unwatched
      rcases @Local.evaluate _ _ codec _ _ _ _ _ _ _ _ _ n isLocal entered unwatched with met | matched
      next => exact .inl (met.leads (leads_reported _ _ _) (leads_reported _ _ _))
      next => exact .inr (matched_reported matched)

end Invoke

end Parser

namespace Grammar

open Packrat.Parser

theorem Pure.isLocal {grammar : Grammar} (pure : grammar.Pure) (n : Nat) (args : List Arg)
    {term : Term} (termPure : term.Pure) : Local (term.parser grammar n args) :=
  pure.holds local_blocks .stop (fun _ isLocal => isLocal.invoke _ _ _ _) n args termPure

end Grammar

end Packrat
