import Packrat.Proofs.Advance

set_option autoImplicit false

namespace Packrat

open Ending (Exhausted)

variable {ν : Type}

structure Machine.Within (source : Source) (limit : Nat) (calls : List Call)
    (machine : Machine ν) : Prop where
  sound : machine.Sound
  source : machine.source = source
  index : machine.cursor.index ≤ limit
  calls : machine.calls = calls

def Source.room (source : Source) (index : Nat) : Nat :=
  -- A cursor beyond the end can come back to the end, once.
  if index ≤ source.size then source.size - index else source.size + 1

theorem Source.room_le (source : Source) (index : Nat) : source.room index ≤ source.size + 1 := by
  unfold room
  split <;> omega

theorem Source.Reaches.room_lt {source : Source} {start stop : Cursor}
    (reaches : source.Reaches start stop) (moved : stop.index ≠ start.index) :
    source.room stop.index < source.room start.index := by
  have := reaches.index
  unfold Source.room
  split <;> split <;> omega

namespace Parser

variable {α β : Type} {source : Source} {limit : Nat} {calls : List Call}

structure Halts (source : Source) (limit : Nat) (calls : List Call) (parser : Parser ν α) :
    Prop where
  orderly : Orderly parser
  advances : Advances parser
  ends : ∀ machine : Machine ν, machine.Within source limit calls → ¬ Exhausted (parser machine)

theorem Halts.after {parser : Parser ν α} {machine : Machine ν}
    (halts : Halts source limit calls parser) (size : source.size ≤ limit)
    (within : machine.Within source limit calls) :
    (Ending.machine (parser machine)).Within source limit calls := by
  have advanced := halts.advances machine within.sound
  refine ⟨advanced.sound, advanced.source.trans within.source, ?_, ?_⟩
  next => exact (within.source ▸ advanced.reaches).le_of_le size within.index
  next => exact (halts.orderly machine).calls.trans within.calls

theorem halts_blocks (size : source.size ≤ limit) :
    Closed (ν := ν) fun _ parser => Halts source limit calls parser where
  leaf {_ act} forward :=
    { orderly := orderly_blocks.leaf forward
      advances := advances_blocks.leaf forward
      ends := by
        intro machine _
        rw [Exhausted, outcome_leaf]
        cases (act machine.source machine.cursor).outcome with
        | ok value =>
          intro cut
          cases cut
        | error mismatch => exact fun cut => mismatch.ne_exhausted (Except.error.inj cut) }
  bind {_ _ parser next} halts continued :=
    { orderly := orderly_blocks.bind halts.orderly fun value => (continued value).orderly
      advances := advances_blocks.bind halts.advances fun value => (continued value).advances
      ends := by
        intro machine within
        have ends := halts.ends machine within
        have after := halts.after size within
        rw [bind_apply]
        cases ending : parser machine with
        | ok value middle =>
          rw [ending] at after
          exact (continued value).ends middle after
        | error failure middle =>
          rw [ending] at ends
          simpa using ends }
  branch {_ _ parser found missed} halts matched unmatched :=
    { orderly := orderly_blocks.branch halts.orderly (fun value => (matched value).orderly)
        fun mismatch => (unmatched mismatch).orderly
      advances := advances_blocks.branch halts.advances (fun value => (matched value).advances)
        fun mismatch => (unmatched mismatch).advances
      ends := by
        intro machine within
        have ends := halts.ends machine within
        have after := halts.after size within
        unfold branch
        cases ending : parser machine with
        | ok value middle =>
          rw [ending] at after
          exact (matched value).ends middle after
        | error failure middle =>
          rw [ending] at ends after
          by_cases recoverable : failure.recoverable = true
          next =>
            simp only [recoverable, dite_true]
            exact (unmatched ⟨failure, recoverable⟩).ends _
              ⟨{ after.sound with }, after.source, within.index, after.calls⟩
          next => simpa [recoverable] using ends }
  ahead {_ parser} halts :=
    { orderly := orderly_blocks.ahead halts.orderly
      advances := advances_blocks.ahead halts.advances
      ends := by
        intro machine within
        have ends := halts.ends machine within
        unfold ahead
        cases ending : parser machine with
        | ok value middle => simp
        | error failure middle =>
          rw [ending] at ends
          by_cases recoverable : failure.recoverable = true <;> simpa [recoverable] using ends }
  notHere {_ parser} label halts :=
    { orderly := orderly_blocks.notHere label halts.orderly
      advances := advances_blocks.notHere label halts.advances
      ends := by
        intro machine within
        have ends := halts.ends (machine.pushFrame machine.cursor.index)
          { within with sound := { within.sound with } }
        simp only [notHere]
        cases ending : parser (machine.pushFrame machine.cursor.index) with
        | ok value middle => simp [failAt]
        | error failure middle =>
          rw [ending] at ends
          by_cases recoverable : failure.recoverable = true <;> simp_all }
  isolated {_ parser} halts :=
    { orderly := orderly_blocks.isolated halts.orderly
      advances := advances_blocks.isolated halts.advances
      ends := by
        intro machine within
        have ends := halts.ends (machine.pushFrame machine.cursor.index)
          { within with sound := { within.sound with } }
        unfold isolated
        cases ending : parser (machine.pushFrame machine.cursor.index) with
        | ok value middle => simp
        | error failure middle =>
          rw [ending] at ends
          by_cases recoverable : failure.recoverable = true <;> simp_all }
  atLevel {_ parser} level halts :=
    { orderly := orderly_blocks.atLevel level halts.orderly
      advances := advances_blocks.atLevel level halts.advances
      ends := by
        intro machine within
        have ends := halts.ends (machine.setLevel level)
          { within with sound := { within.sound with } }
        unfold atLevel
        cases ending : parser (machine.setLevel level) with
        | ok value middle => simp
        | error failure middle =>
          rw [ending] at ends
          simpa using ends }

theorem ends_many {parser : Parser ν α} (size : source.size ≤ limit)
    (halts : Halts source limit calls parser) {n : Nat} {machine : Machine ν}
    (within : machine.Within source limit calls) (enough : source.room machine.cursor.index < n) :
    ¬ Exhausted (many parser n machine) := by
  induction n generalizing machine with
  | zero => omega
  | succ n ih =>
    have ends := halts.ends machine within
    have after := halts.after size within
    have advanced := halts.advances machine within.sound
    rw [many_succ, bind_look]
    unfold branch
    cases ending : parser machine with
    | ok value middle =>
      rw [ending] at after advanced
      simp only [bind_look]
      split
      next => exact Ending.not_exhausted_ok _ _
      next moved =>
        -- The round got farther, so that there is less room for the next one.
        have closer := (within.source ▸ advanced.reaches).room_lt moved
        have rest := ih after (by omega)
        rw [bind_apply]
        cases others : many parser n middle with
        | ok values last => exact Ending.not_exhausted_ok _ _
        | error failure last =>
          simp only [Ending.machine_ok, others] at rest
          exact rest
    | error failure middle =>
      rw [ending] at ends
      by_cases recoverable : failure.recoverable = true
      next =>
        simp only [recoverable, dite_true]
        exact Ending.not_exhausted_ok _ _
      next => simpa [recoverable] using ends

theorem Halts.many {parser : Parser ν α} (halts : Halts source limit calls parser)
    (size : source.size ≤ limit) {n : Nat} (enough : limit + 2 ≤ n) :
    Halts source limit calls (many parser n) where
  orderly := orderly_blocks.many orderly_stop halts.orderly n
  advances := advances_blocks.many advances_stop halts.advances n
  ends machine within := by
    have room := source.room_le machine.cursor.index
    exact ends_many size halts within (by omega)

section Invoke

variable {codec : Codec ν α} {call : Call} {body : Parser ν α}

def growth (limit : Nat) (machine : Machine ν) : Nat :=
  match machine.active.innermost?.bind Activation.seed with
  | none => limit + 2
  | some seed => limit + 1 - seed.cursor.index

theorem growth_le (limit : Nat) (machine : Machine ν) : growth limit machine ≤ limit + 2 := by
  unfold growth
  split <;> omega

theorem growth_later {before after : Machine ν} (later : before.Later after) :
    growth limit after = growth limit before := by
  -- A run of the body leaves the seeds as they are.
  have active := later.active.follows
  unfold growth Active.innermost?
  generalize before.active.activations = former, after.active.activations = present at active ⊢
  cases active with
  | nil => rfl
  | cons follows _ => simp [follows.seed]

theorem growth_again {ending : Ending ν α} {next : Machine ν}
    (again : round codec call ending = .again next)
    (within : ending.machine.cursor.index ≤ limit) :
    growth limit next < growth limit ending.machine := by
  obtain ⟨value, after, activation, rfl, rfl, innermost, farther⟩ := round_again again
  -- The new seed ends where the run did, which is farther than the old seed.
  have planted : growth limit (replant codec call value after) = limit + 1 - after.cursor.index := by
    cases active : after.active.activations with
    | nil => simp [Active.innermost?, active] at innermost
    | cons activation outer =>
      simp [growth, replant, Active.innermost?, Active.plant, Activation.plant, active]
  simp only [Ending.machine_ok] at within
  rw [planted]
  simp only [growth, Ending.machine_ok, innermost, Option.bind_some]
  cases seeded : activation.seed with
  | none => simp only; omega
  | some seed =>
    have closer := farther seed seeded
    simp only
    omega

theorem not_exhausted_useSeed (seed : Seed ν) (machine : Machine ν) :
    ¬ Exhausted (useSeed codec call seed machine) := by
  unfold useSeed Codec.read
  cases codec.decode seed.value <;> simp [conclude]

theorem not_exhausted_done {ending last : Ending ν α} (whole : ¬ ending.Exhausted)
    (done : round codec call ending = .done last) : ¬ last.Exhausted := by
  cases ending with
  | error failure after =>
    simp only [round] at done
    repeat' split at done
    all_goals cases done
    next => exact not_exhausted_useSeed _ _
    next => exact whole
    next => exact whole
  | ok value after =>
    simp only [round] at done
    repeat' split at done
    all_goals cases done
    next => simp
    next => simp
    next => exact not_exhausted_useSeed _ _

theorem ends_grow (size : source.size ≤ limit) (halts : Halts source limit (call :: calls) body)
    {n : Nat} {machine : Machine ν} (within : machine.Within source limit (call :: calls))
    (origin : machine.cursor = call.cursor) (enough : growth limit machine < n) :
    ¬ Exhausted (grow codec call body n machine) := by
  induction n generalizing machine with
  | zero => omega
  | succ n ih =>
    have ran := halts.after size within
    have own : (Ending.machine (body machine)).calls.head? = some call := by rw [ran.calls]; rfl
    have rounded := advanced_round codec (halts.advances machine within.sound) origin own
    have inside := inside_round codec call (body machine)
    rw [grow_succ]
    cases result : round codec call (body machine) with
    | done ending => exact not_exhausted_done (halts.ends machine within) result
    | again next =>
      rw [result] at rounded inside
      have start := cursor_of_again result
      have next : next.Within source limit (call :: calls) :=
        ⟨rounded.sound, rounded.source.trans within.source,
          start ▸ origin ▸ within.index, inside.calls.trans ran.calls⟩
      have fewer := growth_again result ran.index
      rw [growth_later (halts.orderly machine)] at fewer
      exact ih next start (by omega)

theorem not_exhausted_replay {machine : Machine ν} {verdict : Verdict ν} (sound : machine.Sound)
    (found : machine.memo.find? call = some verdict) (start : Machine ν) :
    ¬ Exhausted (replay codec call verdict start) := by
  have final := sound.final found
  unfold replay
  cases ending : verdict.outcome with
  | error failure =>
    rw [ending] at final
    simpa [Except.bind, conclude] using final
  | ok stored =>
    simp only [Except.bind, Codec.read]
    cases codec.decode stored <;> simp [conclude]

theorem not_exhausted_reenter (activation : Activation ν) (machine : Machine ν) :
    ¬ Exhausted (reenter codec call activation machine) := by
  simp only [reenter]
  cases activation.seed with
  | none => simp
  | some seed => exact not_exhausted_useSeed seed _

theorem within_opened {machine : Machine ν} (within : machine.Within source limit calls)
    (call : Call) : (opened call machine).Within source limit (call :: calls) where
  sound := sound_opened within.sound call
  source := within.source
  index := within.index
  calls := congrArg (call :: ·) within.calls

theorem Halts.invoke {rule : Rule} {args : List Arg} {n : Nat} (size : source.size ≤ limit)
    (orderly : Orderly body) (advances : Advances body)
    (halts : ∀ call : Call, call.rule = rule.name → call.args = args →
      call.cursor.index ≤ limit → call ∉ calls → Halts source limit (call :: calls) body)
    (enough : limit + 3 ≤ n) : Halts source limit calls (invoke codec rule args body n) where
  orderly := orderly.invoke codec rule args n
  advances := advances.invoke orderly codec rule args n
  ends machine within := by
    have evaluated (memoized : Bool) (start : Machine ν)
        (within : start.Within source limit calls) (origin : start.cursor = machine.cursor) :
        ¬ Exhausted (evaluate codec (callOf rule args machine) memoized body n start) := by
      unfold evaluate
      split
      next activation _ => exact not_exhausted_reenter activation start
      next missing =>
        have inactive := inactive_of_find? missing
        have index := within.index
        rw [within.calls] at inactive
        rw [origin] at index
        -- A call that is not active joins the active calls, and its body runs among these.
        have runs := halts (callOf rule args machine) rfl rfl index inactive
        have rounds := growth_le limit (opened (callOf rule args machine) start)
        rw [activate_eq, exhausted_close]
        exact ends_grow size runs (within_opened within _) origin (by omega)
    have reported (start : Machine ν) (step : Step ν) (within : start.Within source limit calls) :
        (start.report (callOf rule args machine) step).Within source limit calls :=
      { within with sound := { within.sound with } }
    rw [invoke_eq, exhausted_reported]
    unfold answer
    have entered := reported machine .entering within
    split
    next =>
      split
      next found => exact not_exhausted_replay entered.sound found _
      next => exact evaluated _ _ (reported _ _ entered) rfl
    next => exact evaluated _ _ entered rfl

end Invoke

end Parser

end Packrat
