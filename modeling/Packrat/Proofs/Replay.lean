import Packrat.Proofs.Simulation

set_option autoImplicit false

namespace Packrat

open Ending (Exhausted)
open Packrat.Parser

variable {ν γ : Type}

namespace Activation

variable {call : Call} {inner outer : List (Activation ν)}

theorem reenter_append (active : call ∈ inner.map Activation.call) :
    reenter call (inner ++ outer) = reenter call inner ++ outer := by
  induction inner with
  | nil => simp at active
  | cons activation inner ih =>
    by_cases same : activation.call = call
    next => simp [reenter, same]
    next =>
      have inside : call ∈ inner.map Activation.call := by
        simpa [Ne.symm same] using active
      simp [reenter, same, ih inside]

theorem tainted_reenter (inactive : call ∉ inner.map Activation.call) :
    Tainted inner.length (reenter call (inner ++ outer)) := by
  induction inner with
  | nil => simp [Tainted]
  | cons activation inner ih =>
    simp only [List.map_cons, List.mem_cons, not_or] at inactive
    have different : activation.call ≠ call := Ne.symm inactive.1
    have rest := ih inactive.2
    simpa [reenter, different, Tainted] using rest

theorem tainted_one {activation : Activation ν} :
    Tainted 1 (activation :: outer) ↔ activation.tainted = true := by
  simp [Tainted]

end Activation

theorem running_of_inside {call : Call} {start last : Machine ν}
    (inside : (opened call start).Inside last) : last.active.activations ≠ [] := by
  intro none
  have calls := inside.calls
  simp [Machine.calls, none, opened, Active.push] at calls

namespace Aligned

variable {looked : Call → Prop} {setting : Setting ν} {inner : List (Activation ν)}
  {cached plain : Machine ν}

theorem innermost (aligned : Aligned looked setting inner cached plain) (begun : inner ≠ []) :
    plain.active.innermost? = cached.active.innermost? := by
  unfold Active.innermost?
  rw [aligned.left, aligned.right, List.head?_append_of_ne_nil _ begun,
    List.head?_append_of_ne_nil _ begun]

theorem conclude {depth : Nat} (aligned : Aligned looked setting inner cached plain)
    (length : inner.length = depth) (outcome : Except Failure γ) :
    Agreed looked setting depth (conclude outcome cached) (conclude outcome plain) := by
  cases outcome with
  | ok value => exact .ok value length aligned
  | error failure => exact .error failure length aligned

theorem useSeed {depth : Nat} (aligned : Aligned looked setting inner cached plain)
    (length : inner.length = depth) (codec : Codec ν γ) (call : Call) (seed : Seed ν) :
    Agreed looked setting depth (useSeed codec call seed cached) (useSeed codec call seed plain) :=
  (aligned.moveTo seed.cursor).conclude length _

theorem replant (aligned : Aligned looked setting inner cached plain) (begun : inner ≠ [])
    (codec : Codec ν γ) (call : Call) (value : γ) :
    ∃ planted : List (Activation ν), planted.length = inner.length ∧
      Aligned looked setting planted (replant codec call value cached)
        (replant codec call value plain) := by
  cases inner with
  | nil => exact absurd rfl begun
  | cons activation inner =>
    let seed : Seed ν := { value := codec.encode value, cursor := cached.cursor }
    refine ⟨{ activation with recursive := false, seed := some seed } :: inner, rfl, ?_⟩
    refine { aligned with cursor := rfl, left := ?_, right := ?_, absent := ?_ }
    next => simp [Parser.replant, Active.plant, aligned.left, Activation.plant, seed]
    next =>
      simp [Parser.replant, Active.plant, aligned.right, aligned.cursor, Activation.plant, seed]
    next =>
      intro other member looks memoize
      rcases List.mem_cons.mp member with rfl | member
      next => exact aligned.absent activation List.mem_cons_self looks memoize
      next => exact aligned.absent other (List.mem_cons_of_mem _ member) looks memoize

theorem opened {call : Call} (aligned : Aligned looked setting inner cached plain)
    (missing : looked call → cached.config.memoize = true → cached.memo.find? call = none) :
    Aligned looked { setting with framed := True } ({ call } :: inner) (opened call cached)
      (opened call plain) :=
  { aligned with
    frame := fun _ => rfl
    left := by simp [Parser.opened, Active.push, aligned.left]
    right := by simp [Parser.opened, Active.push, aligned.right]
    absent := by
      intro activation member looks memoize
      rcases List.mem_cons.mp member with rfl | member
      next => exact missing looks memoize
      next => exact aligned.absent activation member looks memoize }

theorem settle {call : Call} {activation : Activation ν} {rest : List (Activation ν)}
    {after other : Machine ν} {memoized : Bool}
    (aligned : Aligned looked setting inner cached plain)
    (inside : Aligned looked { setting with framed := True } (activation :: rest) after other)
    (length : rest.length = inner.length) (left : (Parser.opened call cached).Inside after)
    (right : (Parser.opened call plain).Inside other)
    (inactive : call ∉ inner.map Activation.call) (outcome : Except Failure ν) :
    Aligned looked setting rest (settle call memoized outcome after)
      (settle call false outcome other) := by
  have first := popped_settle call memoized outcome after
  have second := popped_settle call false outcome other
  have calls : rest.map Activation.call = inner.map Activation.call := by
    have same := left.calls
    simp only [Machine.calls, inside.left, Parser.opened, Active.push, aligned.left] at same
    simp only [List.cons_append, List.map_cons, List.map_append, List.cons.injEq] at same
    exact List.append_inj_left same.2 (by simpa using length)
  refine ⟨?_, ?_, fun framed => ?_, ?_, ?_, ?_, ?_⟩
  next => rw [first.source, second.source, inside.source]
  next => rw [first.cursor, second.cursor, inside.cursor]
  next =>
    rw [first.farthest, second.farthest, innermost_popMerge left, innermost_popMerge right,
      aligned.frame framed, inside.frame trivial]
  next => simp [first.active, Active.pop, inside.left]
  next => simp [second.active, Active.pop, inside.right]
  next => rw [second.config, inside.unmemoized]
  next =>
    intro present member looks memoize
    rw [first.config] at memoize
    have absent := inside.absent present (List.mem_cons_of_mem _ member) looks memoize
    have different : present.call ≠ call := by
      rintro rfl
      exact inactive (calls ▸ List.mem_map_of_mem member)
    -- Only the call itself may have been stored, and it is not among the calls begun before it.
    have result := settled call memoized outcome after
    generalize Parser.settle call memoized outcome after = last at result ⊢
    cases result with
    | withheld => exact absent
    | dropped => exact absent
    | stored =>
      simp only [Machine.report, Machine.write, stashed]
      rw [MemoTable.find?_insert_of_ne _ _ different]
      exact absent

end Aligned

namespace Parser

variable {codec : Codec ν γ} {call : Call} {looked : Call → Prop} {setting : Setting ν}

theorem agreed_round (codec : Codec ν γ) (call : Call) {depth : Nat} {cached plain : Ending ν γ}
    (agreed : Agreed looked setting (depth + 1) cached plain) :
    (∃ last other, round codec call cached = .done last ∧ round codec call plain = .done other ∧
      Agreed looked setting (depth + 1) last other) ∨
    ∃ next other inner, round codec call cached = .again next ∧
      round codec call plain = .again other ∧ List.length inner = depth + 1 ∧
      Aligned looked setting inner next other := by
  cases agreed with
  | @error inner cached plain failure length aligned =>
    have same := aligned.innermost (List.ne_nil_of_length_eq_add_one length)
    simp only [round, same]
    cases cached.active.innermost?.bind Activation.seed with
    | none => exact .inl ⟨_, _, rfl, rfl, .error failure length aligned⟩
    | some seed =>
      cases failure.recoverable with
      | true => exact .inl ⟨_, _, rfl, rfl, aligned.useSeed length codec call seed⟩
      | false => exact .inl ⟨_, _, rfl, rfl, .error failure length aligned⟩
  | @ok inner cached plain value length aligned =>
    have begun := List.ne_nil_of_length_eq_add_one length
    have same := aligned.innermost begun
    simp only [round, same, aligned.cursor]
    cases cached.active.innermost? with
    | none => exact .inl ⟨_, _, rfl, rfl, .ok value length aligned⟩
    | some activation =>
      simp only
      split
      next => exact .inl ⟨_, _, rfl, rfl, .ok value length aligned⟩
      next =>
        split
        next seed _ => exact .inl ⟨_, _, rfl, rfl, aligned.useSeed length codec call seed⟩
        next =>
          obtain ⟨planted, kept, after⟩ := aligned.replant begun codec call value
          exact .inr ⟨_, _, planted, rfl, rfl, kept.trans length, after⟩

theorem memo_close {ending : Ending ν γ} (codec : Codec ν γ) (call : Call) (memoized : Bool)
    {other : Call} (stored : ending.machine.memo.find? other ≠ none) :
    (close codec call memoized ending).machine.memo.find? other ≠ none := by
  have result := settled call memoized (ending.outcome.map codec.encode) (rewound call ending)
  rw [machine_close]
  generalize settle call memoized _ (rewound call ending) = last at result ⊢
  cases result with
  | withheld => simpa [Machine.report, Machine.write, popped] using stored
  | dropped => simpa [popped] using stored
  | stored =>
    simp only [Machine.report, Machine.write, stashed, memo_rewound]
    by_cases same : other = call
    next =>
      subst same
      simp [MemoTable.find?_insert_self]
    next => rwa [MemoTable.find?_insert_of_ne _ _ same]

theorem withheld_close {ending : Ending ν γ} (codec : Codec ν γ) (call : Call) (memoized : Bool)
    (running : ending.machine.active.activations ≠ [])
    (tainted : Activation.Tainted 1 ending.machine.active.activations) :
    Withheld (close codec call memoized ending).machine.journal call := by
  have flag : (rewound call ending).active.innermost?.any Activation.tainted = true := by
    rw [active_rewound, Active.innermost?]
    generalize ending.machine.active.activations = activations at running tainted ⊢
    cases activations with
    | nil => exact absurd rfl running
    | cons activation outer => simpa [Activation.tainted_one] using tainted
  have result := settled call memoized (ending.outcome.map codec.encode) (rewound call ending)
  rw [machine_close]
  generalize settle call memoized _ (rewound call ending) = last at result ⊢
  cases result with
  | withheld => exact ⟨_, List.mem_cons_self⟩
  | stored untainted => exact absurd (flag.symm.trans untainted) (by simp)
  | dropped untainted => exact absurd (flag.symm.trans untainted) (by simp)

theorem diverged_close {depth : Nat} {cached plain : Ending ν γ} (codec : Codec ν γ) (call : Call)
    (memoized : Bool) (diverged : Diverged setting (depth + 1) cached plain) :
    Diverged setting depth (close codec call memoized cached) (close codec call false plain) := by
  -- Of the activations that are tainted, the innermost one is popped.
  have popped {activations : List (Activation ν)}
      (tainted : Activation.Tainted (depth + 1) activations) :
      Activation.Tainted depth activations.tail := by
    cases activations with
    | nil => simp [Activation.Tainted]
    | cons activation outer => exact fun other member => tainted other (List.mem_cons_of_mem _ member)
  rcases diverged with exhausted | exhausted | lost
  next => exact .inl ((exhausted_close _ _ _ _).mpr exhausted)
  next => exact .inr (.inl ((exhausted_close _ _ _ _).mpr exhausted))
  next =>
    refine .inr (.inr ?_)
    unfold Lost
    rw [activations_close, activations_close]
    rcases lost with ⟨around, tainted⟩ | ⟨around, tainted⟩ | ⟨other, withheld, stored⟩
    next => exact .inl ⟨around, popped tainted⟩
    next => exact .inr (.inl ⟨around, popped tainted⟩)
    next =>
      obtain ⟨added, same⟩ := journal_close codec call false plain
      exact .inr (.inr ⟨other, same ▸ withheld.append added, memo_close codec call memoized stored⟩)

theorem agreed_close {inner : List (Activation ν)} {cached plain : Machine ν}
    {ending other : Ending ν γ} (codec : Codec ν γ) (call : Call) (memoized : Bool)
    (agreed : Agreed looked { setting with framed := True } (inner.length + 1) ending other)
    (aligned : Aligned looked setting inner cached plain)
    (left : (opened call cached).Inside ending.machine)
    (right : (opened call plain).Inside other.machine)
    (inactive : call ∉ inner.map Activation.call) :
    Agreed looked setting inner.length (close codec call memoized ending)
      (close codec call false other) := by
  cases agreed with
  | @ok later _ _ value length inside =>
    cases later with
    | nil => simp at length
    | cons activation rest =>
      have size : rest.length = inner.length := by simpa using length
      exact .ok value size (aligned.settle inside size left right inactive _)
  | @error later _ _ failure length inside =>
    cases later with
    | nil => simp at length
    | cons activation rest =>
      have size : rest.length = inner.length := by simpa using length
      exact .error failure size (aligned.settle (inside.moveTo call.cursor) size
        (left.moveTo _) (right.moveTo _) inactive _)

theorem leads_reported (codec : Codec ν γ) (call : Call) (ending : Ending ν γ) :
    ending.Leads (reported codec call ending) where
  exhausted := (exhausted_reported codec call ending).mpr
  onward := by
    have stays := (Machine.Later.refl ending.machine).onward
    cases ending <;> exact { stays with journal := ⟨[_], rfl⟩ }

theorem agreed_reported {depth : Nat} {cached plain : Ending ν γ}
    (agreed : Agreed looked setting depth cached plain) (codec : Codec ν γ) (call : Call) :
    Agreed looked setting depth (reported codec call cached) (reported codec call plain) := by
  cases agreed with
  | ok value length aligned => exact .ok value length (aligned.write _ _)
  | error failure length aligned => exact .error failure length (aligned.write _ _)

theorem leads_grow {body : Parser ν γ} (orderly : Orderly body) (n : Nat) (machine : Machine ν) :
    Ending.Leads (body machine) (grow codec call body (n + 1) machine) := by
  have inside := inside_round codec call (body machine)
  rw [grow_succ]
  refine ⟨fun exhausted => ?_, ?_⟩
  next =>
    obtain ⟨after, cut⟩ := Ending.exhausted_iff.mp exhausted
    rw [cut]
    simp only [round]
    cases after.active.innermost?.bind Activation.seed <;> simp [Failure.recoverable]
  next =>
    cases result : round codec call (body machine) with
    | done ending =>
      rw [result] at inside
      exact inside.onward
    | again next =>
      rw [result] at inside
      exact (inside.trans (inside_grow orderly n next)).onward

end Parser

namespace Book

variable {book : Book ν γ} {setting : Setting ν} {call : Call} {body other : Parser ν γ}

theorem honest_round {ending : Ending ν γ} (codec : Codec ν γ) (call : Call)
    (honest : book.Honest ending.machine) : book.Honest (round codec call ending).machine := by
  cases ending with
  | error failure after =>
    simp only [Parser.round]
    repeat' split
    all_goals first | exact honest | (rw [Round.machine, machine_useSeed]; exact honest)
  | ok value after =>
    simp only [Parser.round]
    repeat' split
    all_goals first | exact honest | (rw [Round.machine, machine_useSeed]; exact honest)

theorem Keeps.grow (keeps : book.Keeps body) (codec : Codec ν γ) (call : Call) (n : Nat) :
    book.Keeps (grow codec call body n) := by
  induction n with
  | zero => exact fun _ => id
  | succ n ih =>
    intro machine honest
    have after := honest_round codec call (keeps machine honest)
    rw [grow_succ]
    cases result : round codec call (body machine) with
    | done ending => rwa [result] at after
    | again next =>
      rw [result] at after
      exact ih next after

theorem Simulates.grow (simulates : book.Simulates body other) (codec : Codec ν γ) (call : Call)
    {n m depth : Nat} (within : n ≤ m) {inner : List (Activation ν)} {cached plain : Machine ν}
    (length : inner.length = depth + 1) (aligned : Aligned book.Looked setting inner cached plain)
    (honest : book.Honest cached) :
    Diverged setting (depth + 1) (grow codec call body n cached)
      (grow codec call other m plain) ∨
    Agreed book.Looked setting (depth + 1) (grow codec call body n cached)
      (grow codec call other m plain) := by
  induction n generalizing m inner cached plain with
  | zero => exact .inl (.inl (by simp [Parser.grow, fail]))
  | succ n ih =>
    obtain ⟨m, rfl⟩ : ∃ less, m = less + 1 := ⟨m - 1, by omega⟩
    have found := simulates.agrees aligned honest
    rw [length] at found
    rcases found with diverged | agreed
    next =>
      exact .inl (diverged.leads (leads_grow simulates.left n cached)
        (leads_grow simulates.right m plain))
    next =>
      have kept := honest_round codec call (simulates.keeps cached honest)
      rw [grow_succ, grow_succ]
      rcases agreed_round codec call agreed with
        ⟨last, plainLast, left, right, same⟩ | ⟨next, plainNext, begun, left, right, size, after⟩
      next =>
        rw [left, right]
        exact .inr same
      next =>
        rw [left] at kept ⊢
        rw [right]
        exact ih (by omega) size after kept

theorem honest_close {ending : Ending ν γ} {memoized : Bool} (codec : Codec ν γ)
    (honest : book.Honest ending.machine) (running : ending.machine.active.activations ≠ [])
    (valid : memoized = true → ¬ ending.Exhausted →
      ¬ Activation.Tainted 1 ending.machine.active.activations →
      book.Valid ending.machine.source
        (ending.machine.memo.insert call (verdictOf codec call ending)) call
        (verdictOf codec call ending)) :
    book.Honest (close codec call memoized ending).machine := by
  have result := settled call memoized (ending.outcome.map codec.encode) (rewound call ending)
  rw [machine_close]
  generalize settle call memoized _ (rewound call ending) = last at result ⊢
  have kept : book.Honest (rewound call ending) := by
    intro other verdict found
    rw [source_rewound, memo_rewound]
    exact honest other verdict (memo_rewound call ending ▸ found)
  cases result with
  | withheld => exact kept
  | dropped => exact kept
  | stored untainted memoize final =>
    have whole : ¬ ending.Exhausted := by
      intro exhausted
      obtain ⟨after, rfl⟩ := Ending.exhausted_iff.mp exhausted
      cases final .exhausted rfl
    have clean : ¬ Activation.Tainted 1 ending.machine.active.activations := by
      rw [active_rewound] at untainted
      unfold Active.innermost? at untainted
      generalize ending.machine.active.activations = activations at untainted running ⊢
      cases activations with
      | nil => exact absurd rfl running
      | cons activation outer => simpa [Activation.tainted_one] using untainted
    have own := valid memoize whole clean
    have inserted : (stashed call (ending.outcome.map codec.encode) (rewound call ending)).memo =
        ending.machine.memo.insert call (verdictOf codec call ending) := by
      cases ending <;> rfl
    intro other verdict found
    simp only [Machine.report, Machine.write, inserted] at found ⊢
    rw [show (stashed call _ (rewound call ending)).source = _ from source_rewound call ending]
    by_cases same : other = call
    next =>
      subst same
      rw [MemoTable.find?_insert_self] at found
      cases found
      exact own
    next =>
      rw [MemoTable.find?_insert_of_ne _ _ same] at found
      -- A verdict stored earlier says less now, since one more call is in the table.
      refine (honest other verdict found).mono fun third missing => ?_
      by_cases itself : third = call
      next =>
        subst itself
        rw [MemoTable.find?_insert_self] at missing
        cases missing
      next => rwa [MemoTable.find?_insert_of_ne _ _ itself] at missing

structure Enacts (book : Book ν γ) (n : Nat) (call : Call) (body : Parser ν γ) : Prop where
  simulates : ∀ {plain : Nat → Parser ν γ}, book.Body call plain → ∀ {m}, n ≤ m →
    book.Simulates body (plain m)
  prolongs : ∀ {plain : Nat → Parser ν γ}, book.Body call plain → ∀ {k m}, k ≤ m →
    Prolongs (plain k) (plain m)

variable {n : Nat} {cached : Machine ν}

theorem Enacts.valid (enacts : book.Enacts n call body) (honest : book.Honest cached)
    (origin : cached.cursor = call.cursor)
    (missing : book.Looked call → cached.config.memoize = true → cached.memo.find? call = none)
    {ending : Ending ν γ}
    (rounds : grow (book.codec call.rule) call body n (opened call cached) = ending)
    (whole : ¬ ending.Exhausted)
    (untainted : ¬ Activation.Tainted 1 ending.machine.active.activations) :
    book.Valid cached.source
      (ending.machine.memo.insert call (verdictOf (book.codec call.rule) call ending)) call
      (verdictOf (book.codec call.rule) call ending) := by
  intro plainBody k plain other runs unmemoized source start inactive plainRounds plainWhole
    plainUntainted apart
  let codec := book.codec call.rule
  let most := max k n
  -- More budget for the plain rounds changes nothing, and lets them last at least as long.
  have prolongs : Prolongs (grow codec call (plainBody k) k) (grow codec call (plainBody most) most) :=
    (enacts.prolongs runs (Nat.le_max_left k n)).grow (Nat.le_max_left k n)
  have longer : grow codec call (plainBody most) most (opened call plain) = other := by
    have same := prolongs (opened call plain)
    rw [plainRounds] at same
    exact (same.resolve_left plainWhole).symm
  -- Nothing around the two activations counts, and neither does what was expected before.
  have aligned : Aligned book.Looked
      { cached := cached.active.activations, plain := plain.active.activations, framed := False } []
      cached plain :=
    ⟨source, start.trans origin.symm, False.elim, rfl, rfl, unmemoized, by simp⟩
  have found := (enacts.simulates runs (Nat.le_max_right k n)).grow codec call
    (Nat.le_max_right k n) rfl (aligned.opened missing) honest
  rw [rounds, longer] at found
  rcases found with diverged | agreed
  next =>
    rcases diverged with exhausted | exhausted | ⟨_, tainted⟩ | ⟨_, tainted⟩ |
      ⟨third, withheld, stored⟩
    next => exact absurd exhausted whole
    next => exact absurd exhausted plainWhole
    next => exact absurd tainted untainted
    next => exact absurd tainted plainUntainted
    next =>
      -- Here a call is both withheld by the plain rounds and stored by the others.
      have absent := apart third withheld
      by_cases same : third = call
      next =>
        subst same
        simp [MemoTable.find?_insert_self] at absent
      next =>
        rw [MemoTable.find?_insert_of_ne _ _ same] at absent
        exact absurd absent stored
  next =>
    cases agreed with
    | ok value _ after => simp [verdictOf, after.cursor, after.frame trivial]
    | error failure _ after => simp [verdictOf, after.frame trivial]

variable {m : Nat} {inner : List (Activation ν)} {plain : Machine ν}

theorem agrees_begun (codec : Codec ν γ) (memoized : Bool)
    (aligned : Aligned book.Looked setting inner cached plain)
    (begun : call ∈ inner.map Activation.call) :
    Agreed book.Looked setting inner.length (evaluate codec call memoized body n cached)
      (evaluate codec call false other m plain) := by
  obtain ⟨activation, found⟩ :
      ∃ activation, inner.find? (fun activation => activation.call = call) = some activation := by
    rw [← Option.isSome_iff_exists, List.find?_isSome]
    obtain ⟨activation, member, same⟩ := List.mem_map.mp begun
    exact ⟨activation, member, by simpa using same⟩
  have left : cached.active.find? call = some activation := by
    simp [Active.find?_eq, aligned.left, List.find?_append, found]
  have right : plain.active.find? call = some activation := by
    simp [Active.find?_eq, aligned.right, List.find?_append, found]
  have length : (Activation.reenter call inner).length = inner.length := by
    have calls := congrArg List.length (Activation.calls_reenter call inner)
    rwa [List.length_map, List.length_map] at calls
  have marked : Aligned book.Looked setting (Activation.reenter call inner)
      { cached with active := cached.active.reenter call }
      { plain with active := plain.active.reenter call } :=
    { aligned with
      left := by simp [Active.reenter, aligned.left, Activation.reenter_append begun]
      right := by simp [Active.reenter, aligned.right, Activation.reenter_append begun]
      absent := by
        intro present member looks memoize
        have inside := List.mem_map_of_mem (f := Activation.call) member
        rw [Activation.calls_reenter] at inside
        obtain ⟨former, member, same⟩ := List.mem_map.mp inside
        rw [← same] at looks ⊢
        exact aligned.absent former member looks memoize }
  simp only [evaluate, left, right, Parser.reenter]
  cases activation.seed with
  | none => exact .error .unseeded length (marked.write _ _)
  | some seed => exact Aligned.useSeed (marked.write _ _) length codec call seed

theorem tainted_evaluate {machine : Machine ν} {outer : List (Activation ν)} (codec : Codec ν γ)
    (memoized : Bool) (activations : machine.active.activations = inner ++ outer)
    (unbegun : call ∉ inner.map Activation.call) (active : call ∈ machine.calls) :
    outer ≠ [] ∧ Activation.Tainted inner.length
      (Ending.machine (evaluate codec call memoized body n machine)).active.activations := by
  refine ⟨?_, ?_⟩
  next =>
    rintro rfl
    rw [List.append_nil] at activations
    rw [Machine.calls, activations] at active
    exact unbegun active
  next =>
    cases found : machine.active.find? call with
    | none => exact absurd active (inactive_of_find? found)
    | some activation =>
      have marked : Activation.Tainted inner.length (Activation.reenter call (inner ++ outer)) :=
        Activation.tainted_reenter unbegun
      rw [← activations] at marked
      simp only [evaluate, found, Parser.reenter]
      cases activation.seed with
      | none => exact marked
      | some seed =>
        simp only [machine_useSeed]
        exact marked

theorem find?_of_inactive {machine : Machine ν} (inactive : call ∉ machine.calls) :
    machine.active.find? call = none := by
  rw [Active.find?_eq, List.find?_eq_none]
  intro activation member same
  simp only [decide_eq_true_eq] at same
  exact inactive (same ▸ List.mem_map_of_mem member)

theorem Simulates.evaluate (simulates : book.Simulates body other) (within : n ≤ m)
    (codec : Codec ν γ) {memoized : Bool}
    (aligned : Aligned book.Looked setting inner cached plain) (honest : book.Honest cached)
    (missing : book.Looked call → cached.config.memoize = true → cached.memo.find? call = none) :
    Diverged setting inner.length (evaluate codec call memoized body n cached)
      (evaluate codec call false other m plain) ∨
    Agreed book.Looked setting inner.length (evaluate codec call memoized body n cached)
      (evaluate codec call false other m plain) := by
  by_cases begun : call ∈ inner.map Activation.call
  next => exact .inr (agrees_begun codec memoized aligned begun)
  next =>
    by_cases left : call ∈ cached.calls
    next =>
      -- The call is active outside the stretch that is compared.
      exact .inl (.inr (.inr (.inl (tainted_evaluate codec memoized aligned.left begun left))))
    next =>
      by_cases right : call ∈ plain.calls
      next =>
        exact .inl (.inr (.inr (.inr (.inl (tainted_evaluate codec false aligned.right begun right)))))
      next =>
        simp only [Parser.evaluate, find?_of_inactive left, find?_of_inactive right, activate_eq]
        rcases simulates.grow codec call within rfl (aligned.opened missing) honest with
          diverged | agreed
        next => exact .inl (diverged_close codec call memoized diverged)
        next =>
          exact .inr (agreed_close codec call memoized agreed aligned
            (inside_grow simulates.left n _) (inside_grow simulates.right m _) begun)

theorem aligned_replayed {after : Machine ν}
    (aligned : Aligned book.Looked setting inner cached plain)
    (inside : (opened call plain).Inside after)
    (untainted : ¬ Activation.Tainted 1 after.active.activations) (outcome : Except Failure ν) :
    Aligned book.Looked setting inner
      { cached with
        cursor := after.cursor
        farthest := cached.farthest.merge after.farthest.innermost }
      (settle call false outcome after) := by
  have closed := popped_settle call false outcome after
  -- An activation that is not tainted has changed nothing around it.
  have kept : after.active.activations.tail = plain.active.activations := by
    have beyond := (inside.active.beyond 0).resolve_left untainted
    simpa [opened, Active.push] using beyond
  refine { aligned with
    source := ?_, cursor := closed.cursor, frame := fun framed => ?_, right := ?_, unmemoized := ?_ }
  next => rw [closed.source, inside.source]; exact aligned.source
  next =>
    rw [closed.farthest, innermost_popMerge inside, aligned.frame framed]
    rfl
  next => rw [closed.active]; exact kept.trans aligned.right
  next => rw [closed.config, inside.config]; exact aligned.unmemoized

theorem agrees_replay {plainBody : Nat → Parser ν γ} {verdict : Verdict ν}
    (aligned : Aligned book.Looked setting inner cached plain) (honest : book.Honest cached)
    (runs : book.Body call plainBody) (orderly : Orderly (plainBody m)) (looks : book.Looked call)
    (memoize : cached.config.memoize = true) (origin : cached.cursor = call.cursor)
    (found : cached.memo.find? call = some verdict) :
    Diverged setting inner.length (replay (book.codec call.rule) call verdict cached)
      (evaluate (book.codec call.rule) call false (plainBody m) m plain) ∨
    Agreed book.Looked setting inner.length (replay (book.codec call.rule) call verdict cached)
      (evaluate (book.codec call.rule) call false (plainBody m) m plain) := by
  -- A call that the stretch has begun would not be in the table.
  have unbegun : call ∉ inner.map Activation.call := by
    intro begun
    obtain ⟨activation, member, rfl⟩ := List.mem_map.mp begun
    simp [aligned.absent activation member looks memoize] at found
  by_cases active : call ∈ plain.calls
  next =>
    exact .inl (.inr (.inr (.inr (.inl (tainted_evaluate _ false aligned.right unbegun active)))))
  next =>
    simp only [Parser.evaluate, find?_of_inactive active, activate_eq]
    generalize rounds :
      grow (book.codec call.rule) call (plainBody m) m (opened call plain) = ending
    have inside : (opened call plain).Inside (Ending.machine ending) :=
      rounds ▸ inside_grow orderly m _
    have running := running_of_inside inside
    have clash {third : Call} (withheld : Withheld
          (Ending.machine (close (book.codec call.rule) call false ending)).journal third)
        (stored : cached.memo.find? third ≠ none) :
        Diverged setting inner.length (replay (book.codec call.rule) call verdict cached)
          (close (book.codec call.rule) call false ending) := by
      refine .inr (.inr (.inr (.inr ⟨third, withheld, ?_⟩)))
      rwa [machine_replay]
    by_cases exhausted : Exhausted ending
    next => exact .inl (.inr (.inl ((exhausted_close _ _ _ _).mpr exhausted)))
    next =>
      by_cases tainted : Activation.Tainted 1 (Ending.machine ending).active.activations
      next =>
        -- The plain run withholds what the table has.
        exact .inl (clash (withheld_close _ call false running tainted) (by simp [found]))
      next =>
        by_cases apart : ∀ third, Withheld (Ending.machine ending).journal third →
            cached.memo.find? third = none
        next =>
          refine .inr ?_
          have same := honest call verdict found plainBody m plain ending runs aligned.unmemoized
            aligned.source (aligned.cursor.trans origin) active rounds exhausted tainted apart
          subst same
          cases ending with
          | ok value after =>
            simp only [replay, verdictOf, Except.bind, Codec.read, Codec.decode_encode, conclude]
            exact .ok value rfl (aligned_replayed aligned inside tainted _)
          | error failure after =>
            exact .error failure rfl (aligned_replayed aligned (inside.moveTo call.cursor) tainted _)
        next =>
          simp only [not_forall] at apart
          obtain ⟨third, withheld, stored⟩ := apart
          obtain ⟨added, journal⟩ := journal_close (book.codec call.rule) call false ending
          exact .inl (clash (journal ▸ withheld.append added) stored)

theorem Enacts.keeps_evaluate (enacts : book.Enacts n call body) (orderly : Orderly body)
    (keeps : book.Keeps body) {memoized : Bool} (honest : book.Honest cached)
    (origin : cached.cursor = call.cursor)
    (missing : book.Looked call → cached.config.memoize = true → cached.memo.find? call = none) :
    book.Honest (Ending.machine
      (evaluate (book.codec call.rule) call memoized body n cached)) := by
  unfold evaluate
  cases cached.active.find? call with
  | some activation =>
    obtain ⟨cursor, ran⟩ := machine_reenter (book.codec call.rule) call activation cached
    simp only [ran]
    exact honest
  | none =>
    simp only [activate_eq]
    generalize rounds :
      grow (book.codec call.rule) call body n (opened call cached) = ending
    have inside : (opened call cached).Inside (Ending.machine ending) :=
      rounds ▸ inside_grow orderly n _
    have kept : book.Honest (Ending.machine ending) :=
      rounds ▸ keeps.grow (book.codec call.rule) call n (opened call cached) honest
    refine honest_close _ kept (running_of_inside inside) fun _ whole untainted => ?_
    rw [inside.source]
    exact enacts.valid honest origin missing rounds whole untainted

theorem Enacts.agrees_answer {plainBody : Nat → Parser ν γ} (enacts : book.Enacts n call body)
    (runs : book.Body call plainBody) (within : n ≤ m) {memoized : Bool}
    (aligned : Aligned book.Looked setting inner cached plain) (honest : book.Honest cached)
    (origin : cached.cursor = call.cursor)
    (switch : memoized = true ↔ book.Looked call ∧ cached.config.memoize = true) :
    Diverged setting inner.length (answer (book.codec call.rule) call memoized body n cached)
      (answer (book.codec call.rule) call false (plainBody m) m plain) ∨
    Agreed book.Looked setting inner.length
      (answer (book.codec call.rule) call memoized body n cached)
      (answer (book.codec call.rule) call false (plainBody m) m plain) := by
  have simulates := enacts.simulates runs within
  have checked (hit : Bool) : Aligned book.Looked setting inner
      (cached.report call (.checked hit)) plain :=
    { aligned with }
  unfold answer
  cases memoized with
  | false =>
    refine simulates.evaluate within _ aligned honest fun looks memoize => ?_
    exact absurd (switch.mpr ⟨looks, memoize⟩) Bool.false_ne_true
  | true =>
    obtain ⟨looks, memoize⟩ := switch.mp rfl
    simp only [if_true, Bool.false_eq_true, if_false]
    cases found : cached.memo.find? call with
    | some verdict =>
      exact agrees_replay (checked true) honest runs simulates.right looks memoize origin found
    | none => exact simulates.evaluate within _ (checked false) honest fun _ _ => found

theorem Enacts.keeps_answer (enacts : book.Enacts n call body) (orderly : Orderly body)
    (keeps : book.Keeps body) {memoized : Bool} (honest : book.Honest cached)
    (origin : cached.cursor = call.cursor)
    (switch : memoized = true ↔ book.Looked call ∧ cached.config.memoize = true) :
    book.Honest (Ending.machine (answer (book.codec call.rule) call memoized body n cached)) := by
  unfold answer
  cases memoized with
  | false =>
    refine enacts.keeps_evaluate orderly keeps honest origin fun looks memoize => ?_
    exact absurd (switch.mpr ⟨looks, memoize⟩) Bool.false_ne_true
  | true =>
    simp only [if_true]
    cases found : cached.memo.find? call with
    | some verdict =>
      simp only [machine_replay]
      exact honest
    | none =>
      have checked : book.Honest (cached.report call (.checked false)) := honest
      exact enacts.keeps_evaluate orderly keeps checked origin fun _ _ => found

theorem Enacts.invoke {rule plainRule : Rule} {args : List Arg} {plainBody : Nat → Parser ν γ}
    (enacts : ∀ cursor, book.Enacts n { cursor, rule := rule.name, args } body)
    (runs : ∀ cursor, book.Body { cursor, rule := rule.name, args } plainBody)
    (keeps : book.Keeps body) (orderly : Orderly body) (plainOrderly : Orderly (plainBody m))
    (within : n ≤ m) (flag : book.memoized rule.name = rule.memoized)
    (name : plainRule.name = rule.name) :
    book.Simulates (invoke (book.codec rule.name) rule args body n)
      (invoke (book.codec rule.name) plainRule args (plainBody m) m) where
  left := orderly.invoke _ _ _ _
  right := plainOrderly.invoke _ _ _ _
  keeps := by
    intro cached honest
    have entered : book.Honest (cached.report (callOf rule args cached) .entering) := honest
    have switch : (rule.memoized && cached.config.memoize) = true ↔
        book.Looked (callOf rule args cached) ∧ cached.config.memoize = true := by
      simp [Looked, callOf, flag]
    have answered := (enacts cached.cursor).keeps_answer orderly keeps entered rfl switch
    rw [invoke_eq]
    unfold callOf at answered ⊢
    generalize answer _ _ _ body n _ = ending at answered ⊢
    cases ending <;> exact answered
  agrees := by
    intro setting inner cached plain aligned honest
    have call : callOf plainRule args plain = callOf rule args cached := by
      simp [callOf, aligned.cursor, name]
    have switch : (rule.memoized && cached.config.memoize) = true ↔
        book.Looked (callOf rule args cached) ∧ cached.config.memoize = true := by
      simp [Looked, callOf, flag]
    have entered := aligned.write (.step (callOf rule args cached) cached.cursor.index .entering)
      (.step (callOf rule args cached) plain.cursor.index .entering)
    have answered := (enacts cached.cursor).agrees_answer (runs cached.cursor) within entered
      honest rfl switch
    rw [invoke_eq, invoke_eq, call, aligned.unmemoized, Bool.and_false]
    unfold callOf at answered ⊢
    simp only [Machine.report]
    generalize answer _ _ _ body n _ = ending, answer _ _ _ (plainBody m) m _ = plainEnding
      at answered ⊢
    exact answered.imp (fun diverged => diverged.leads (leads_reported _ _ _) (leads_reported _ _ _))
      fun agreed => agreed_reported agreed _ _

end Book

end Packrat
