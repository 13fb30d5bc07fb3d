import Packrat.Proofs.Scanning
import Packrat.Proofs.Attendance

set_option autoImplicit false

namespace Packrat.Calculator

open Packrat.Parser

def Rank.depth : Rank → Nat
  | .sum => 0
  | .product => 1
  | .factor => 2

theorem Next.depth {rank next : Rank} (tier : Next rank next) : next.depth = rank.depth + 1 := by
  cases tier <;> rfl

theorem Rank.depth_le (rank : Rank) : rank.depth ≤ 2 := by
  cases rank <;> decide

def Opens (rank : Rank) (machine : Machine Expr) : Prop :=
  -- Indices count before ranks, of which there are three.
  ∀ activation ∈ machine.active.activations, ∃ (other : Rank) (cursor : Cursor),
    activation.call = other.call cursor ∧
      3 * cursor.index + other.depth < 3 * machine.cursor.index + rank.depth

theorem Opens.ne {rank : Rank} {machine : Machine Expr} (opens : Opens rank machine)
    {activation : Activation Expr} (member : activation ∈ machine.active.activations) :
    activation.call ≠ rank.call machine.cursor := by
  intro same
  obtain ⟨other, cursor, call, before⟩ := opens activation member
  obtain ⟨rfl, rfl⟩ := call_inj (call.symm.trans same)
  omega

/-- A machine while an activation is the innermost one. What has been asked for since the activation
was opened is in a frame of its own. -/
structure Inside (outer : Machine Expr) (activation : Activation Expr) (machine : Machine Expr)
    (beyond : Nat) : Prop where
  source : machine.source = outer.source
  config : machine.config = outer.config
  active : machine.active.activations = activation :: outer.active.activations
  faithful : Faithful machine
  marked : (outer.farthest.push outer.cursor.index).Marked machine.farthest
    (outer.source.size + 1 - beyond)

namespace Inside

variable {outer machine after : Machine Expr} {activation : Activation Expr} {rank other : Rank}
  {near far : Nat}

theorem kept (inside : Inside outer activation machine near) (kept : Kept machine after far) :
    Inside outer activation after (min near far) where
  source := kept.source.trans inside.source
  config := kept.config.trans inside.config
  active := kept.active ▸ inside.active
  faithful := kept.faithful
  marked := by
    have reach : outer.source.size + 1 - min near far =
        max (outer.source.size + 1 - near) (machine.source.size + 1 - far) := by
      rw [inside.source]
      omega
    rw [reach]
    exact inside.marked.trans kept.marked

theorem quiet (inside : Inside outer activation machine near)
    (kept : Kept machine after (machine.source.size + 1)) :
    Inside outer activation after near := by
  have reach : outer.source.size + 1 - min near (machine.source.size + 1) =
      outer.source.size + 1 - near := by
    rw [inside.source]
    omega
  have within := inside.kept kept
  exact { within with marked := reach ▸ within.marked }

theorem innermost? (inside : Inside outer activation machine near) :
    machine.active.innermost? = some activation := by
  rw [Active.innermost?, inside.active]
  rfl

theorem opens (inside : Inside outer activation machine near)
    (call : activation.call = rank.call outer.cursor) (opens : Opens rank outer)
    (later : 3 * outer.cursor.index + rank.depth < 3 * machine.cursor.index + other.depth) :
    Opens other machine := by
  intro running member
  rw [inside.active] at member
  rcases List.mem_cons.mp member with rfl | member
  next => exact ⟨rank, outer.cursor, call, later⟩
  next =>
    obtain ⟨former, cursor, same, before⟩ := opens running member
    exact ⟨former, cursor, same, by omega⟩

theorem stands {rest : List Char} (inside : Inside outer activation machine near)
    (ahead : machine.source.Ahead machine.cursor rest)
    (later : outer.cursor.index ≤ machine.cursor.index) : Stands machine rest where
  ahead := ahead
  within := inside.marked.within fun _ => later

end Inside

section Calls

variable {machine : Machine Expr} {rank : Rank} {text : List Char} {beyond : Nat}

abbrev Answers (machine : Machine Expr) (rank : Rank) (text : List Char) :
    Ending Expr Expr → Prop :=
  Yields machine (fun value rest => Reads (.operand rank) text (some (value, rest)))
    (Reads (.operand rank) text none)

def Concludes (outer : Machine Expr) (rank : Rank) (text : List Char)
    (ending : Ending Expr Expr) : Prop :=
  ∃ activation middle near, Inside outer activation middle near ∧
    Yields middle
      (fun value rest far => Reads (.operand rank) text (some (value, rest)) (min near far))
      (fun far => Reads (.operand rank) text none (min near far)) ending

theorem kept_settle {outer : Machine Expr} {activation : Activation Expr}
    {outcome : Except Failure Expr} {memoized : Bool}
    (inside : Inside outer activation machine beyond) (opens : Opens rank outer)
    (stands : Stands outer text) (some : beyond ≤ Text.size text)
    (tells : Tells outer.source rank text
      { outcome, cursor := machine.cursor, frame := machine.farthest.innermost }) :
    Kept outer (settle (rank.call outer.cursor) memoized outcome machine) beyond := by
  have active : machine.active.pop = outer.active := by
    apply Active.eq_of_activations
    simp [Active.pop, inside.active]
  have faithful : Faithful (popped machine) :=
    { memo := inside.faithful.memo
      pending := by
        intro memoize running member
        have present : running ∈ machine.active.activations := List.mem_of_mem_tail member
        exact inside.faithful.pending memoize running present }
  have marked : outer.farthest.Marked machine.farthest.popMerge.2
      (outer.source.size + 1 - beyond) := by
    have total := stands.ahead.index_add
    exact inside.marked.popMerge (by omega) stands.within
  have result := settled (rank.call outer.cursor) memoized outcome machine
  generalize settle (rank.call outer.cursor) memoized outcome machine = last at result ⊢
  cases result with
  | withheld => exact ⟨inside.source, inside.config, active, { faithful with }, marked⟩
  | dropped => exact ⟨inside.source, inside.config, active, faithful, marked⟩
  | stored =>
    refine ⟨inside.source, inside.config, active, ⟨?_, ?_⟩, marked⟩
    next =>
      intro other cursor text' verdict ahead' found
      change machine.source.Ahead cursor text' at ahead'
      change (machine.memo.insert _ _).find? _ = _ at found
      change Tells machine.source _ _ _
      -- The verdict that has just been stored is the outcome, and all others were there before.
      by_cases same : other.call cursor = rank.call outer.cursor
      next =>
        obtain ⟨rfl, rfl⟩ := call_inj same
        rw [MemoTable.find?_insert_self] at found
        cases found
        rw [inside.source] at ahead' ⊢
        cases stands.ahead.symm.trans ahead'
        exact tells
      next =>
        rw [MemoTable.find?_insert_of_ne _ _ same] at found
        exact inside.faithful.memo ahead' found
    next =>
      intro memoize running member
      change (machine.memo.insert _ _).find? _ = _
      have present : running ∈ outer.active.activations := by
        rw [← active]
        exact member
      rw [MemoTable.find?_insert_of_ne _ _ (opens.ne present)]
      exact faithful.pending memoize running member

theorem Reads.later {outer after : Machine Expr} {value : Expr} {rest : List Char}
    (reads : Reads (.operand rank) text (some (value, rest)) beyond) (stands : Stands outer text)
    (source : after.source = outer.source) (ahead : after.source.Ahead after.cursor rest) :
    outer.cursor.index ≤ after.cursor.index := by
  obtain ⟨taken, rfl, -⟩ := reads.sound
  rw [source] at ahead
  exact stands.ahead.index_le ahead

theorem close_answers {outer : Machine Expr} {ending : Ending Expr Expr} {memoized : Bool}
    (opens : Opens rank outer) (stands : Stands outer text)
    (concludes : Concludes outer rank text ending) :
    Answers outer rank text (close (.identity Expr) (rank.call outer.cursor) memoized ending) := by
  obtain ⟨activation, middle, near, inside, answers⟩ := concludes
  cases answers with
  | @found value after rest far kept stands' reads =>
    have within := inside.kept kept
    have ahead := stands'.ahead
    rw [within.source] at ahead
    have settles : Kept outer (settle (rank.call outer.cursor) memoized (.ok value) after)
        (min near far) :=
      kept_settle within opens stands reads.beyond_le
        (.matched ahead reads within.marked.reach_pushed)
    have popped := popped_settle (rank.call outer.cursor) memoized (.ok value) after
    refine .found settles (settles.stands stands ?_ ?_) reads
    next =>
      rw [popped.source, popped.cursor]
      exact stands'.ahead
    next =>
      rw [popped.cursor]
      exact reads.later stands within.source stands'.ahead
  | missed kept recoverable reads =>
    have within := inside.kept (kept.moveTo outer.cursor)
    exact .missed (kept_settle within opens stands reads.beyond_le
      (.missed recoverable reads within.marked.reach_pushed)) recoverable reads

theorem reported_answers {ending : Ending Expr Expr} (call : Call)
    (answers : Answers machine rank text ending) :
    Answers machine rank text (reported (.identity Expr) call ending) := by
  cases answers with
  | found kept stands reads => exact .found (kept.report call _) ⟨stands.ahead, stands.within⟩ reads
  | missed kept recoverable reads => exact .missed (kept.report call _) recoverable reads

theorem replay_answers {asked : Machine Expr} {verdict : Verdict Expr}
    (stands : Stands machine text) (kept : Kept machine asked (machine.source.size + 1))
    (tells : Tells machine.source rank text verdict) :
    Answers machine rank text
      (replay (.identity Expr) (rank.call machine.cursor) verdict asked) := by
  have total := stands.ahead.index_add
  have replayed : ∀ (stop : Cursor) {frame : Farthest.Frame} {beyond : Nat},
      beyond ≤ Text.size text → frame.reach = machine.source.size + 1 - beyond →
        Kept machine { asked with cursor := stop, farthest := asked.farthest.merge frame }
          beyond := by
    intro stop frame beyond some reach
    have farther : machine.cursor.index ≤ frame.position := by
      have reached : frame.reach = frame.position + 1 := Farthest.Frame.reach_of_pos (by omega)
      omega
    have within : asked.farthest.innermost.Within frame.position :=
      (kept.marked.within stands.within).mono farther
    have merged := kept.marked.trans (.merge within)
    have sum : max (machine.source.size + 1 - (machine.source.size + 1)) frame.reach =
        machine.source.size + 1 - beyond := by omega
    rw [sum] at merged
    exact { kept with faithful := kept.faithful.of_calls rfl rfl rfl rfl, marked := merged }
  cases tells with
  | @matched _ stop _ _ _ ahead reads reach =>
    have kept' := replayed stop reads.beyond_le reach
    rw [← kept.source] at ahead
    exact .found kept' (kept'.stands stands ahead (reads.later stands kept.source ahead)) reads
  | @missed _ stop _ _ recoverable reads reach =>
    exact .missed (replayed stop reads.beyond_le reach) recoverable reads

theorem evaluate_answers {asked : Machine Expr} {body : Parser Expr Expr} {budget : Nat}
    {memoized : Bool} (opens : Opens rank machine) (stands : Stands machine text)
    (kept : Kept machine asked (machine.source.size + 1)) (same : asked.farthest = machine.farthest)
    (cursor : asked.cursor = machine.cursor)
    (unknown : asked.config.memoize = true →
      asked.memo.find? (rank.call machine.cursor) = none)
    (runs : ∀ {inner},
      Inside machine { call := rank.call machine.cursor } inner (machine.source.size + 1) →
        inner.cursor = machine.cursor → Concludes machine rank text
          (grow (.identity Expr) (rank.call machine.cursor) body budget inner)) :
    Answers machine rank text
      (evaluate (.identity Expr) (rank.call machine.cursor) memoized body budget asked) := by
  have idle : asked.active.find? (rank.call machine.cursor) = none := by
    rw [kept.active, Active.find?_eq, List.find?_eq_none]
    intro activation member
    simpa using opens.ne member
  -- The call joins the running ones, and the table does not have it.
  have inside : Inside machine { call := rank.call machine.cursor }
      (opened (rank.call machine.cursor) asked) (machine.source.size + 1) :=
    { source := kept.source
      config := kept.config
      active := by
        rw [← kept.active]
        rfl
      faithful :=
        { memo := kept.faithful.memo
          pending := by
            intro memoize running member
            rcases List.mem_cons.mp member with rfl | member
            next => exact unknown memoize
            next => exact kept.faithful.pending memoize running member }
      marked := by
        rw [Nat.sub_self, ← same]
        exact .refl _ }
  simp only [evaluate, idle, activate_eq]
  exact close_answers opens stands (runs inside cursor)

theorem invoke_answers {body : Parser Expr Expr} {budget : Nat} (faithful : Faithful machine)
    (opens : Opens rank machine) (stands : Stands machine text)
    (runs : ∀ {inner},
      Inside machine { call := rank.call machine.cursor } inner (machine.source.size + 1) →
        inner.cursor = machine.cursor → Concludes machine rank text
          (grow (.identity Expr) (rank.call machine.cursor) body budget inner)) :
    Answers machine rank text (invoke (.identity Expr) rank.rule rank.args body budget machine) := by
  have entered := (Kept.refl faithful).report (rank.call machine.cursor) .entering
  rw [invoke_eq]
  apply reported_answers
  change Answers machine rank text (answer _ (rank.call machine.cursor) _ _ _ _)
  unfold answer
  split_ifs with memoized
  next =>
    split
    next verdict found =>
      exact replay_answers stands (entered.report _ _) (faithful.memo stands.ahead found)
    next unknown =>
      exact evaluate_answers opens stands (entered.report _ _) rfl rfl (fun _ => unknown) runs
  next =>
    refine evaluate_answers opens stands entered rfl rfl (fun memoize => ?_) runs
    -- Both rules are memoized, so the table is in use if the settings say so.
    have off : (rank.rule.memoized && machine.config.memoize) = machine.config.memoize := by
      cases rank <;> rfl
    rw [off] at memoized
    exact absurd memoize memoized

theorem answer_running {outer : Machine Expr} {activation : Activation Expr}
    (inside : Inside outer activation machine beyond) (rank : Rank) (body : Parser Expr Expr)
    (budget : Nat) (step : Step Expr) :
    ∃ asked, Kept machine asked (machine.source.size + 1) ∧
      answer (.identity Expr) activation.call (rank.rule.memoized && machine.config.memoize) body
          budget (machine.report activation.call step) =
        reenter (.identity Expr) activation.call activation asked := by
  have entered := (Kept.refl inside.faithful).report activation.call step
  have running : ∀ {memoized asked}, Kept machine asked (machine.source.size + 1) →
      evaluate (.identity Expr) activation.call memoized body budget asked =
        reenter (.identity Expr) activation.call activation asked := by
    intro memoized asked kept
    have found : asked.active.find? activation.call = some activation := by
      rw [kept.active, Active.find?_eq, inside.active]
      simp
    simp only [evaluate, found]
  unfold answer
  split_ifs with memoized
  next =>
    -- The table has nothing of calls that are running.
    have unknown : (machine.report activation.call step).memo.find? activation.call = none := by
      apply inside.faithful.pending (Bool.and_eq_true_iff.mp memoized).2
      simp [inside.active]
    rw [unknown]
    exact ⟨_, entered.report _ _, running (entered.report _ _)⟩
  next => exact ⟨_, entered, running entered⟩

theorem Inside.reenter {outer : Machine Expr} {activation : Activation Expr}
    (inside : Inside outer activation machine beyond) :
    Inside outer { activation with recursive := true }
      { machine with active := machine.active.reenter activation.call } beyond where
  source := inside.source
  config := inside.config
  active := by simp [Active.reenter, inside.active, Activation.reenter]
  faithful := by
    refine inside.faithful.of_calls rfl rfl rfl ?_
    exact Activation.calls_reenter activation.call machine.active.activations
  marked := inside.marked

theorem invoke_running {outer : Machine Expr} {seed : Option (Seed Expr)}
    (inside : Inside outer { call := rank.call outer.cursor, seed } machine beyond)
    (cursor : machine.cursor = outer.cursor) (body : Parser Expr Expr) (budget : Nat) :
    ∃ middle,
      Inside outer { call := rank.call outer.cursor, seed, recursive := true } middle beyond ∧
        match seed with
        | some seed => middle.cursor = seed.cursor ∧
            invoke (.identity Expr) rank.rule rank.args body budget machine = .ok seed.value middle
        | none =>
          invoke (.identity Expr) rank.rule rank.args body budget machine =
            .error .unseeded middle := by
  obtain ⟨asked, kept, answered⟩ := answer_running inside rank body budget .entering
  have call : callOf rank.rule rank.args machine = rank.call outer.cursor := by
    rw [← cursor]
    rfl
  have marked := (inside.quiet kept).reenter
  have resumed := Kept.refl marked.faithful
  rw [invoke_eq, call, answered]
  cases seed with
  | none => exact ⟨_, marked.quiet ((resumed.report _ _).report _ _), rfl⟩
  | some seed =>
    exact ⟨_, marked.quiet (((resumed.report _ _).moveTo seed.cursor).report _ _), rfl, rfl⟩

end Calls

section Operands

variable {machine outer : Machine Expr} {rank next : Rank} {text : List Char} {beyond : Nat}

def extension (rank : Rank) (parser : Parser Expr Expr) (left : Expr) : Parser Expr Expr := do
  blanks
  let op ← operator rank
  blanks
  return .binary op left (← parser)

theorem joined_eq (rank : Rank) (same parser : Parser Expr Expr) :
    joined rank same parser = same >>= extension rank parser := rfl

theorem extension_yields {parser : Parser Expr Expr} (left : Expr) (tier : Next rank next)
    (faithful : Faithful machine) (stands : Stands machine text)
    (later : ∀ {after near taken rest}, Kept machine after near → Stands after rest →
      text = taken ++ rest → taken ≠ [] → Answers after next rest (parser after)) :
    Yields machine
      (fun value rest near => (∃ taken, text = taken ++ rest ∧ taken ≠ []) ∧
        ∀ {result far}, Reads (.more rank value) rest result far →
          Reads (.more rank left) text result (min near far))
      (Reads (.more rank left) text (some (left, text)))
      (extension rank parser left machine) := by
  obtain ⟨before, -, spaced⟩ := exists_blank text
  refine (blanks_yields faithful stands).bind ?_ False.elim
  rintro - _ - first keptFirst stands ⟨rfl, rfl⟩
  refine (operator_yields rank keptFirst.faithful stands).bind ?_ ?_
  next =>
    rintro op rest near second keptSecond stands ⟨⟨sign, joins, found⟩, quiet⟩
    obtain ⟨after, -, spacedAfter⟩ := exists_blank rest
    refine (blanks_yields keptSecond.faithful stands).bind ?_ False.elim
    rintro - _ - third keptThird stands ⟨rfl, rfl⟩
    -- What follows the operator is shorter than the text, whatever white space there is.
    have split : text = (before ++ sign :: after) ++ skip rest := by
      rw [List.append_assoc, List.cons_append, ← spacedAfter, ← found, ← spaced]
    have kept := (keptFirst.trans keptSecond).trans keptThird
    have shorter : Text.size (skip rest) ≤ Text.size (skip text) := by
      have inside := size_skip_le rest
      rw [found, Text.size_cons]
      omega
    -- The operand asks for something at its start, if not farther.
    have farthest : ∀ {far}, far ≤ Text.size (skip rest) →
        min (Text.size (skip text)) (min near (min (Text.size (skip rest)) far)) = far := by omega
    refine (later kept stands split (by simp)).map ?_ ?_
    next =>
      intro right last far reads
      obtain ⟨taken, splitLast, -⟩ := reads.sound
      rw [farthest reads.beyond_le]
      refine ⟨⟨before ++ sign :: after ++ taken, ?_, by simp⟩, ?_⟩
      next => rw [List.append_assoc, ← splitLast, ← split]
      next => exact fun others => .step tier found joins reads others
    next =>
      intro far none
      rw [farthest none.beyond_le]
      exact .dangling tier found joins none
  next =>
    rintro near ⟨unjoined, quiet⟩
    rw [min_eq_left quiet]
    exact .stop unjoined

def tierBody (budget : Nat) (rank next : Rank) : Parser Expr Expr :=
  Parser.choice [joined rank (operand budget rank) (operand budget next), operand budget next]

theorem operand_succ (tier : Next rank next) (budget : Nat) :
    operand (budget + 1) rank =
      invoke (.identity Expr) rank.rule rank.args (tierBody budget rank next) budget := by
  cases tier <;> rfl

def Serves (outer : Machine Expr) (rank next : Rank) (text : List Char)
    (parser : Parser Expr Expr) : Prop :=
  ∀ {activation inner beyond taken rest}, activation.call = rank.call outer.cursor →
    Inside outer activation inner beyond → Stands inner rest → text = taken ++ rest →
      Answers inner next rest (parser inner)

theorem unseeded_answers {budget : Nat} (tier : Next rank next) (stands : Stands outer text)
    (serves : Serves outer rank next text (operand (budget + 1) next))
    (inside : Inside outer { call := rank.call outer.cursor } machine beyond)
    (cursor : machine.cursor = outer.cursor) :
    ∃ middle, Inside outer { call := rank.call outer.cursor, recursive := true } middle beyond ∧
      Answers middle next text (tierBody (budget + 1) rank next machine) := by
  obtain ⟨middle, marked, missing⟩ :=
    invoke_running inside cursor (tierBody budget rank next) budget
  have back := marked.quiet ((Kept.refl marked.faithful).moveTo machine.cursor)
  refine ⟨_, back, ?_⟩
  -- The first alternative calls the rank again and finds no seed.
  have first : joined rank (operand (budget + 1) rank) (operand (budget + 1) next) machine =
      .error .unseeded middle := by
    rw [joined_eq, bind_apply, operand_succ tier, missing]
  rw [tierBody, choice_cons, branch, first]
  have ahead : (middle.moveTo machine.cursor).source.Ahead machine.cursor text := by
    rw [back.source, cursor]
    exact stands.ahead
  have here := back.stands ahead (by rw [← cursor]; exact le_refl _)
  exact (serves rfl back here (List.nil_append text).symm).last

theorem seeded_yields {budget : Nat} {seed : Seed Expr} {taken left : List Char}
    (tier : Next rank next) (stands : Stands outer text)
    (serves : Serves outer rank next text (operand (budget + 1) next))
    (inside : Inside outer { call := rank.call outer.cursor, seed := some seed } machine beyond)
    (cursor : machine.cursor = outer.cursor) (split : text = taken ++ left)
    (planted : outer.source.Ahead seed.cursor left) :
    ∃ middle,
      Inside outer { call := rank.call outer.cursor, seed := some seed, recursive := true } middle
          beyond ∧
        Yields middle
          (fun value rest near =>
            ((∃ taken, left = taken ++ rest ∧ taken ≠ []) ∧ ∀ {result far},
              Reads (.more rank value) rest result far →
                Reads (.more rank seed.value) left result (min near far)) ∨
            ∃ last again, Reads (.more rank seed.value) left (some (seed.value, left)) last ∧
              Reads (.operand next) text (some (value, rest)) again ∧ near = min last again)
          (fun _ => ∃ again, Reads (.operand next) text none again)
          (tierBody (budget + 1) rank next machine) := by
  obtain ⟨middle, marked, place, answered⟩ :=
    invoke_running inside cursor (tierBody budget rank next) budget
  refine ⟨middle, marked, ?_⟩
  have later : outer.cursor.index ≤ seed.cursor.index := by
    rw [split] at stands
    exact stands.ahead.index_le planted
  have here : Stands middle left := by
    apply marked.stands
    next =>
      rw [marked.source, place]
      exact planted
    next => rwa [place]
  have extended := extension_yields seed.value tier marked.faithful here
    fun kept stands' split' _ =>
      serves rfl (marked.kept kept) stands' (by rw [split, split', ← List.append_assoc])
  -- The first alternative begins with the seed.
  have first : joined rank (operand (budget + 1) rank) (operand (budget + 1) next) machine =
      extension rank (operand (budget + 1) next) seed.value middle := by
    rw [joined_eq, bind_apply, operand_succ tier, answered]
  rw [tierBody, choice_cons, branch, first]
  generalize extension rank (operand (budget + 1) next) seed.value middle = ending at extended
  cases extended with
  | found kept stands' longer => exact .found kept stands' (.inl longer)
  | @missed failure after last kept recoverable stop =>
    have back := kept.moveTo machine.cursor
    have ahead : (after.moveTo machine.cursor).source.Ahead machine.cursor text := by
      rw [(marked.kept back).source, cursor]
      exact stands.ahead
    have again := (marked.kept back).stands ahead (by rw [← cursor]; exact le_refl _)
    simp only [recoverable, dif_pos]
    have served := (serves rfl (marked.kept back) again (List.nil_append text).symm).last
    refine .after back (served.imp ?_ ?_)
    next => exact fun reads => .inr ⟨_, _, stop, reads, rfl⟩
    next => exact fun none => ⟨_, none⟩

theorem Inside.replant {activation : Activation Expr}
    (inside : Inside outer activation machine beyond) (value : Expr) :
    Inside outer
      { activation with recursive := false, seed := some { value, cursor := machine.cursor } }
      (Parser.replant (.identity Expr) (rank.call outer.cursor) value machine) beyond where
  source := inside.source
  config := inside.config
  active := by
    simp only [Parser.replant, Active.plant, inside.active]
    rfl
  faithful := by
    refine inside.faithful.of_calls rfl rfl rfl ?_
    exact Activation.calls_plant _ machine.active.activations
  marked := inside.marked

theorem grow_seeded {budget rounds start : Nat} {seed : Seed Expr} {first : Expr}
    {rest taken left : List Char} (tier : Next rank next) (stands : Stands outer text)
    (serves : Serves outer rank next text (operand (budget + 1) next))
    (reads : Reads (.operand next) text (some (first, rest)) start)
    (inside : Inside outer { call := rank.call outer.cursor, seed := some seed } machine beyond)
    (asked : beyond ≤ start) (cursor : machine.cursor = outer.cursor) (split : rest = taken ++ left)
    (planted : outer.source.Ahead seed.cursor left) (enough : left.length < rounds) :
    ∃ activation middle near, Inside outer activation middle near ∧
      Yields middle
        (fun value last far => ∃ more,
          Reads (.more rank seed.value) left (some (value, last)) more ∧
            min near far = min beyond more)
        (fun _ => False)
        (grow (.identity Expr) (rank.call outer.cursor) (tierBody (budget + 1) rank next) rounds
          machine) := by
  -- The seed is what has been joined so far: reading on after it is what is left to do, and each
  -- round but the last leaves a shorter text after the seed.
  induction rounds generalizing machine seed taken left beyond with
  | zero => cases enough
  | succ rounds ih =>
    obtain ⟨before, whole, -⟩ := reads.sound
    have prior : text = (before ++ taken) ++ left := by
      rw [whole, split, List.append_assoc]
    obtain ⟨middle, marked, yields⟩ :=
      seeded_yields tier stands serves inside cursor prior planted
    rw [grow_succ]
    generalize tierBody (budget + 1) rank next machine = ending at yields
    cases yields with
    | missed kept recoverable none =>
      obtain ⟨again, none⟩ := none
      cases (reads.eq none).1
    | @found value after last near kept stands' fits =>
      have within := marked.kept kept
      have ahead := stands'.ahead
      rw [within.source] at ahead
      rcases fits with ⟨⟨more, longer, some⟩, continued⟩ | ⟨last, again, stop, repeated, total⟩
      next =>
        subst longer
        have farther : ¬ after.cursor.index ≤ seed.cursor.index :=
          Nat.not_le_of_lt (planted.index_lt ahead some)
        simp only [Parser.round, within.innermost?, Bool.not_true, Bool.false_eq_true, if_false,
          Option.filter_some, farther, decide_false]
        have shorter : last.length < rounds := by
          have positive := List.length_pos_iff.mpr some
          rw [List.length_append] at enough
          omega
        obtain ⟨activation, final, past, inner, result⟩ := ih (within.replant value)
          ((min_le_left _ _).trans asked) rfl (by rw [split, List.append_assoc]) ahead shorter
        refine ⟨activation, final, past, inner, result.imp ?_ id⟩
        rintro value last far ⟨more, others, sum⟩
        exact ⟨_, continued others, by rw [sum, min_assoc]⟩
      next =>
        -- The second alternative finds the first operand again, which ends no later than the seed.
        obtain ⟨⟨⟩, rfl⟩ := reads.eq repeated
        have nearer : after.cursor.index ≤ seed.cursor.index := by
          rw [split] at ahead
          exact ahead.index_le planted
        have behind : outer.cursor.index ≤ seed.cursor.index := by
          rw [prior] at stands
          exact stands.ahead.index_le planted
        refine ⟨_, middle, beyond, marked, ?_⟩
        simp only [Parser.round, within.innermost?, Bool.not_true, Bool.false_eq_true, if_false,
          Option.filter_some, nearer, decide_true, if_true]
        have here : Stands (after.moveTo seed.cursor) left := by
          refine (marked.kept (kept.moveTo seed.cursor)).stands ?_ behind
          change after.source.Ahead seed.cursor left
          rw [within.source]
          exact planted
        exact .found (kept.moveTo seed.cursor) here ⟨last, stop, by omega⟩

theorem grow_concludes {budget rounds : Nat} (tier : Next rank next) (stands : Stands outer text)
    (serves : Serves outer rank next text (operand (budget + 1) next))
    (inside : Inside outer { call := rank.call outer.cursor } machine (outer.source.size + 1))
    (cursor : machine.cursor = outer.cursor) (enough : text.length + 1 < rounds) :
    Concludes outer rank text
      (grow (.identity Expr) (rank.call outer.cursor) (tierBody (budget + 1) rank next) rounds
        machine) := by
  obtain ⟨rounds, rfl⟩ : ∃ fewer, rounds = fewer + 1 := ⟨rounds - 1, by omega⟩
  obtain ⟨middle, marked, answers⟩ := unseeded_answers tier stands serves inside cursor
  have fits := stands.size_le
  rw [grow_succ]
  generalize tierBody (budget + 1) rank next machine = ending at answers
  cases answers with
  | @missed failure after start kept recoverable none =>
    have asked := none.beyond_le
    refine ⟨_, middle, _, marked, ?_⟩
    simp only [Parser.round, (marked.kept kept).innermost?, Option.bind_some]
    refine .missed kept recoverable ?_
    rw [min_eq_right (by omega)]
    exact .missed tier none
  | @found value after rest start kept stands' reads =>
    have asked := reads.beyond_le
    have within := marked.kept kept
    rw [min_eq_right (by omega)] at within
    have ahead := stands'.ahead
    rw [within.source] at ahead
    obtain ⟨taken, split, -⟩ := reads.sound
    have shorter : rest.length < rounds := by
      rw [split, List.length_append] at enough
      omega
    simp only [Parser.round, within.innermost?, Bool.not_true, Bool.false_eq_true, if_false,
      Option.filter_none]
    obtain ⟨activation, final, near, inner, result⟩ := grow_seeded tier stands serves reads
      (within.replant value) (le_refl start) rfl (List.nil_append rest).symm ahead shorter
    refine ⟨activation, final, near, inner, result.imp ?_ False.elim⟩
    rintro value last far ⟨more, others, total⟩
    rw [total]
    exact .begun tier reads others

def Continues (machine : Machine Expr) (rank : Rank) (text : List Char)
    (parser : Parser Expr Expr) : Prop :=
  ∀ {after beyond taken rest}, Kept machine after beyond → Stands after rest →
    text = taken ++ rest → taken ≠ [] → Answers after rank rest (parser after)

theorem Continues.kept {after : Machine Expr} {parser : Parser Expr Expr}
    (continues : Continues machine rank text parser) (kept : Kept machine after beyond) :
    Continues after rank text parser :=
  fun kept' => continues (kept.trans kept')

inductive Unopened (sign : Char) (text : List Char) : Nat → Prop
  | other (absent : text.head? ≠ some sign) : Unopened sign text (Text.size text)
  | opened {beyond : Nat} (present : text.head? = some sign)
      (reads : Reads (.operand .factor) text none beyond) : Unopened sign text beyond

theorem unopened_of_ne {sign : Char} (absent : ∀ rest, text ≠ sign :: rest) :
    Unopened sign text (Text.size text) := by
  refine .other fun present => ?_
  obtain ⟨rest, found⟩ := List.head?_eq_some_iff.mp present
  exact absent rest found

theorem negation_yields {parser : Parser Expr Expr} (faithful : Faithful machine)
    (stands : Stands machine text) (continues : Continues machine .factor text parser) :
    Yields machine (fun value rest => Reads (.operand .factor) text (some (value, rest)))
      (Unopened '-' text) (negation parser machine) := by
  refine opening_yields "-" '-' rfl faithful stands ?_ unopened_of_ne
  intro inner taken first near opened split begun quiet keptFirst standsFirst
  refine (continues keptFirst standsFirst split begun).map ?_ ?_
  next =>
    intro value last far reads
    rw [min_eq_right (reads.beyond_le.trans quiet), opened]
    exact .negated reads
  next =>
    intro far none
    rw [min_eq_right (none.beyond_le.trans quiet), opened]
    exact .opened rfl (.negated none)

theorem group_yields {parser : Parser Expr Expr} (faithful : Faithful machine)
    (stands : Stands machine text) (continues : Continues machine .sum text parser) :
    Yields machine (fun value rest => Reads (.operand .factor) text (some (value, rest)))
      (Unopened '(' text) (group parser machine) := by
  refine opening_yields "(" '(' rfl faithful stands ?_ unopened_of_ne
  intro inner taken first near opened split begun quiet keptFirst standsFirst
  refine (continues keptFirst standsFirst split begun).bind ?_ ?_
  next =>
    intro value last far second keptSecond standsSecond reads
    have whole := Reads.group reads
    have asked := reads.beyond_le
    rw [← opened, Option.bind_some] at whole
    refine (blanks_yields keptSecond.faithful standsSecond).bind ?_ False.elim
    rintro - _ - third keptThird standsThird ⟨rfl, rfl⟩
    have total : ∀ {past}, Text.size (skip last) ≤ past →
        min near (min far (min (Text.size (skip last)) past)) =
          trailing far (some (value, last)) := by
      intro past quiet'
      simp only [trailing]
      omega
    refine (literal_yields keptThird.faithful standsThird ")").map ?_ ?_
    next =>
      rintro - after past ⟨found, quiet'⟩
      have shut : closed (value, last) = some (value, after) := by
        simp only [closed, found]
        rfl
      rw [total quiet', ← shut]
      exact whole
    next =>
      rintro past ⟨absent, rfl⟩
      have unshut : closed (value, last) = none := by
        simp only [closed]
        split
        next after found => exact absurd found (absent after)
        next => rfl
      rw [total (le_refl _)]
      rw [unshut] at whole
      exact .opened (by rw [opened]; rfl) whole
  next =>
    intro far none
    rw [min_eq_right (none.beyond_le.trans quiet), opened]
    exact .opened rfl (.group none)

theorem factor_answers {factor sum : Parser Expr Expr} (faithful : Faithful machine)
    (stands : Stands machine text) (factors : Continues machine .factor text factor)
    (sums : Continues machine .sum text sum) :
    Answers machine .factor text
      (Parser.choice [negation factor, number, group sum] machine) := by
  refine (negation_yields faithful stands factors).choice id ?_
  intro second near keptSecond cursorSecond unsigned
  have standsSecond := keptSecond.back stands cursorSecond
  refine (number_yields keptSecond.faithful standsSecond).choice ?_ ?_
  next =>
    rintro value rest far ⟨found, quiet⟩
    obtain ⟨digits, rfl, some, all, -⟩ := numberAt_eq_some_iff.mp found
    have reads := @reads_number _ rest some all
    rw [found] at reads
    cases unsigned with
    | other => rwa [min_eq_left quiet]
    | opened _ none => cases (reads.eq none).1
  next =>
    rintro third far keptThird cursorThird ⟨notNumber, rfl⟩
    have standsThird := keptThird.back standsSecond cursorThird
    have kept := keptSecond.trans keptThird
    refine (group_yields keptThird.faithful standsThird (sums.kept kept)).last.imp ?_ ?_
    next =>
      intro value rest past reads
      cases unsigned with
      | other =>
        have asked := reads.beyond_le
        rwa [min_eq_right asked, min_eq_right asked]
      | opened _ none => cases (reads.eq none).1
    next =>
      intro past ungrouped
      -- The alternatives have failed, each for its own first character.
      cases unsigned with
      | opened signed none =>
        have asked := none.beyond_le
        cases ungrouped with
        | other => rwa [min_self, min_eq_left asked]
        | opened grouped => cases signed.symm.trans grouped
      | other unsigned =>
        cases ungrouped with
        | other ungrouped =>
          rw [min_self, min_self, ← notNumber]
          exact .number unsigned ungrouped
        | opened _ none =>
          have asked := none.beyond_le
          rwa [min_eq_right asked, min_eq_right asked]

theorem grow_direct {rounds : Nat} {activation : Activation Expr} {body : Parser Expr Expr}
    (inside : Inside outer activation machine beyond) (single : activation.recursive = false)
    (fresh : activation.seed = none) (answers : Answers machine rank text (body machine))
    (call : Call) :
    grow (.identity Expr) call body (rounds + 1) machine = body machine := by
  rw [grow_succ]
  generalize body machine = ending at answers
  cases answers with
  | found kept => simp [Parser.round, (inside.kept kept).innermost?, single]
  | missed kept => simp [Parser.round, (inside.kept kept).innermost?, fresh]

theorem Rank.factor_or_next (rank : Rank) : rank = .factor ∨ ∃ next, Next rank next := by
  cases rank
  next => exact .inr ⟨_, .sum⟩
  next => exact .inr ⟨_, .product⟩
  next => exact .inl rfl

theorem operand_answers {budget : Nat} (faithful : Faithful machine) (opens : Opens rank machine)
    (stands : Stands machine text) (enough : 4 * text.length + 4 ≤ budget + rank.depth) :
    Answers machine rank text (operand budget rank machine) := by
  -- A rank spends one unit of budget on the next rank and so does each factor on what is inside it,
  -- where the text is shorter by a character at least.
  induction budget generalizing machine rank text with
  | zero =>
    have bounded := rank.depth_le
    omega
  | succ budget ih =>
    obtain ⟨budget, rfl⟩ : ∃ fewer, budget = fewer + 1 := by
      have bounded := rank.depth_le
      exact ⟨budget - 1, by omega⟩
    rcases rank.factor_or_next with rfl | ⟨next, tier⟩
    next =>
      refine invoke_answers faithful opens stands fun {inner} inside cursor => ?_
      -- What a factor has inside it begins after its first character.
      have continues : ∀ rank, Continues inner rank text (operand (budget + 1) rank) := by
        intro rank after near taken rest kept stands' split some
        have within := inside.kept kept
        rw [split] at stands
        have farther := stands.ahead.index_lt (within.source ▸ stands'.ahead) some
        have positive := List.length_pos_iff.mpr some
        rw [split, List.length_append] at enough
        simp only [Rank.depth] at enough
        refine ih kept.faithful (within.opens rfl opens ?_) stands' (by omega)
        simp only [Rank.depth]
        omega
      have ahead : inner.source.Ahead inner.cursor text := by
        rw [inside.source, cursor]
        exact stands.ahead
      have here := inside.stands ahead (by rw [cursor])
      have answers := factor_answers inside.faithful here (continues .factor) (continues .sum)
      refine ⟨_, inner, _, inside, ?_⟩
      rw [grow_direct inside rfl rfl answers]
      have fits := stands.size_le
      refine answers.imp (fun reads => ?_) fun none => ?_
      next => rwa [min_eq_right (reads.beyond_le.trans (by omega))]
      next => rwa [min_eq_right (none.beyond_le.trans (by omega))]
    next =>
      have deeper := tier.depth
      have bounded := next.depth_le
      rw [operand_succ tier]
      refine invoke_answers faithful opens stands fun inside cursor => ?_
      refine grow_concludes tier stands ?_ inside cursor (by omega)
      intro activation inner near taken rest call within stands' split
      rw [split] at stands
      have reached := stands.ahead.index_le (within.source ▸ stands'.ahead)
      rw [split, List.length_append] at enough
      exact ih within.faithful (within.opens call opens (by omega)) stands' (by omega)

end Operands

-- Whole expressions.

theorem Spells.eq {text : List Char} {value other : Expr} (spells : Spells text value)
    (spells' : Spells text other) : value = other := by
  obtain ⟨rest, _, reads, -⟩ := spells_iff.mp spells
  obtain ⟨rest', _, reads', -⟩ := spells_iff.mp spells'
  cases (reads.eq reads').1
  rfl

theorem expression_eq (machine : Machine Expr) :
    expression machine = (blanks >>= fun _ => operand (budgetFor machine.source) .sum >>= fun value =>
      blanks >>= fun _ => endOfInput >>= fun _ => pure value : Parser Expr Expr) machine :=
  rfl

theorem expression_yields (source : Source) (config : Config) :
    Yields { source, config } (fun value _ _ => Spells source.chars value)
      (Rejects source.chars) (expression { source, config }) := by
  have faithful : Faithful { source, config } :=
    { memo := fun _ found => by simp [MemoTable.find?_eq, MemoTable.entries] at found
      pending := by simp }
  have stands : Stands { source, config } source.chars :=
    ⟨Text.suffix?_zero source.chars, fun _ => le_refl 0⟩
  rw [expression_eq]
  refine (blanks_yields faithful stands).bind ?_ False.elim
  rintro - _ - first keptFirst standsFirst ⟨rfl, rfl⟩
  have opens : Opens .sum first := by
    rw [Opens, keptFirst.active]
    simp
  have enough : 4 * (skip source.chars).length + 4 ≤ budgetFor source + Rank.sum.depth := by
    have shorter := (List.dropWhile_sublist CharSet.blank.contains (l := source.chars)).length_le
    simp only [skip, budgetFor, Rank.depth]
    omega
  refine (operand_answers keptFirst.faithful opens standsFirst enough).bind ?_ ?_
  next =>
    intro value rest near second keptSecond standsSecond reads
    have asked := reads.beyond_le
    refine (blanks_yields keptSecond.faithful standsSecond).bind ?_ False.elim
    rintro - _ - third keptThird standsThird ⟨rfl, rfl⟩
    refine (endOfInput_yields keptThird.faithful standsThird).map ?_ ?_
    next =>
      intro _ _ _ nothing
      exact spells_iff.mpr ⟨rest, _, reads, nothing⟩
    next =>
      rintro - ⟨more, rfl⟩
      have total : min (Text.size (skip source.chars)) (min near (min (Text.size (skip rest))
          (Text.size (skip rest)))) = trailing near (some (value, rest)) := by
        simp only [trailing]
        omega
      rw [total]
      refine .failed reads ?_
      rintro read ⟨⟩
      exact more
  next =>
    intro near none
    rw [min_eq_right none.beyond_le]
    exact .failed none (by simp)

theorem parse_eq_ok_iff (text : String) (config : Config) (value : Expr) :
    ((Session.start (.ofString text) config).parse expression).1 = .ok value ↔
      Spells text.toList value := by
  have yields := expression_yields (.ofString text) config
  simp only [parse_eq, Session.start, Machine.start, ParserTo.parse]
  generalize (expression { source := .ofString text, config } : Ending Expr Expr) = ending
    at yields ⊢
  cases yields with
  | @found found after rest beyond kept stands spells =>
    simp only [Except.ok.injEq]
    constructor
    next =>
      rintro rfl
      exact spells
    next => exact fun spells' => spells.eq spells'
  | missed kept recoverable rejects =>
    simp only [recoverable, if_true, reduceCtorEq, false_iff]
    exact rejects.not_spells

/-- A text is accepted with an expression exactly if it spells the expression in the grammar, and
it spells at most one. -/
theorem expression_accepts_grammar (text : String) (config : Config) :
    (∀ value, ((Session.start (.ofString text) config).parse expression).1 = .ok value ↔
        Spells text.toList value) ∧
      {value | Spells text.toList value}.Subsingleton :=
  ⟨parse_eq_ok_iff text config, fun _ spells _ spells' => spells.eq spells'⟩

-- Operators of one rank group to the left, and parentheses leave no node.
example : ((Session.start (.ofString "8 - 2-(1)")).parse expression).1.toOption =
    some (.binary .sub (.binary .sub (.number 8) (.number 2)) (.number 1)) := by
  decide +kernel

end Packrat.Calculator
