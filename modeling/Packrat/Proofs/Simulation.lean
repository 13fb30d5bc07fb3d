import Packrat.Proofs.Alignment

set_option autoImplicit false

namespace Packrat

open Ending (Exhausted)
open Packrat.Parser

variable {ν γ : Type}

structure Book (ν γ : Type) where
  memoized : RuleName → Bool
  codec : RuleName → Codec ν γ
  Body : Call → (Nat → Parser ν γ) → Prop

def verdictOf (codec : Codec ν γ) (call : Call) : Ending ν γ → Verdict ν
  | .ok value after =>
    { outcome := .ok (codec.encode value), cursor := after.cursor, frame := after.farthest.innermost }
  | .error failure after =>
    { outcome := .error failure, cursor := call.cursor, frame := after.farthest.innermost }

namespace Book

variable (book : Book ν γ)

def Looked (call : Call) : Prop :=
  book.memoized call.rule = true

def Valid (source : Source) (memo : MemoTable ν) (call : Call) (verdict : Verdict ν) : Prop :=
  ∀ (body : Nat → Parser ν γ) (n : Nat) (machine : Machine ν) (ending : Ending ν γ),
    book.Body call body → machine.config.memoize = false → machine.source = source →
    machine.cursor = call.cursor → call ∉ machine.calls →
    grow (book.codec call.rule) call (body n) n (opened call machine) = ending →
    ¬ ending.Exhausted → ¬ Activation.Tainted 1 ending.machine.active.activations →
    (∀ other, Withheld ending.machine.journal other → memo.find? other = none) →
    verdict = verdictOf (book.codec call.rule) call ending

def Honest (machine : Machine ν) : Prop :=
  ∀ call verdict, machine.memo.find? call = some verdict →
    book.Valid machine.source machine.memo call verdict

variable {α : Type}

def Keeps (parser : Parser ν α) : Prop :=
  ∀ machine : Machine ν, book.Honest machine → book.Honest (Ending.machine (parser machine))

/-- The first parser, with a memo table, and the second one without. -/
structure Simulates (first second : Parser ν α) : Prop where
  left : Orderly first
  right : Orderly second
  keeps : book.Keeps first
  -- Whatever stands around the two parsers, they agree or the comparison is lost.
  agrees : ∀ {setting : Setting ν} {inner : List (Activation ν)} {cached plain : Machine ν},
    Aligned book.Looked setting inner cached plain → book.Honest cached →
      Diverged setting inner.length (first cached) (second plain) ∨
      Agreed book.Looked setting inner.length (first cached) (second plain)

variable {book}

theorem Valid.mono {source : Source} {memo larger : MemoTable ν} {call : Call}
    {verdict : Verdict ν} (valid : book.Valid source memo call verdict)
    (kept : ∀ other, larger.find? other = none → memo.find? other = none) :
    book.Valid source larger call verdict := by
  -- The more calls are in the table, the fewer plain runs a verdict has to agree with.
  intro body n machine ending runs unmemoized same origin inactive rounds whole untainted apart
  exact valid body n machine ending runs unmemoized same origin inactive rounds whole untainted
    fun other withheld => kept other (apart other withheld)

theorem keeps_blocks : Closed (ν := ν) fun _ parser => book.Keeps parser where
  leaf {_ act} _ machine honest := by
    rw [machine_leaf]
    cases (act machine.source machine.cursor).label <;> exact honest
  bind {_ _ parser next} keeps continued machine honest := by
    have after := keeps machine honest
    rw [bind_apply]
    cases ending : parser machine with
    | ok value middle =>
      rw [ending] at after
      exact continued value middle after
    | error failure middle => rwa [ending] at after
  branch {_ _ parser found missed} keeps matched unmatched machine honest := by
    have after := keeps machine honest
    unfold branch
    cases ending : parser machine with
    | ok value middle =>
      rw [ending] at after
      exact matched value middle after
    | error failure middle =>
      rw [ending] at after
      by_cases recoverable : failure.recoverable = true
      next =>
        simp only [recoverable, dite_true]
        exact unmatched ⟨failure, recoverable⟩ (middle.moveTo machine.cursor) after
      next => simpa [recoverable] using after
  ahead {_ parser} keeps machine honest := by
    have after := keeps machine honest
    unfold ahead
    cases ending : parser machine with
    | ok value middle =>
      rw [ending] at after
      exact after
    | error failure middle =>
      rw [ending] at after
      simp only
      split <;> exact after
  notHere {_ parser} label keeps machine honest := by
    have after := keeps (machine.pushFrame machine.cursor.index) honest
    simp only [notHere]
    cases ending : parser (machine.pushFrame machine.cursor.index) with
    | ok value middle =>
      rw [ending] at after
      exact after
    | error failure middle =>
      rw [ending] at after
      simp only
      split <;> exact after
  isolated {_ parser} keeps machine honest := by
    have after := keeps (machine.pushFrame machine.cursor.index) honest
    unfold isolated
    cases ending : parser (machine.pushFrame machine.cursor.index) with
    | ok value middle =>
      rw [ending] at after
      exact after
    | error failure middle =>
      rw [ending] at after
      simp only
      split <;> exact after
  atLevel {_ parser} level keeps machine honest := by
    have after := keeps (machine.setLevel level) honest
    unfold atLevel
    cases ending : parser (machine.setLevel level) with
    | ok value middle | error failure middle =>
      rw [ending] at after
      exact after

theorem simulates_stop (parser : Parser ν α) (orderly : Orderly parser) :
    book.Simulates (fail .exhausted) parser where
  left := orderly_stop
  right := orderly
  keeps _ := id
  agrees _ _ := .inl (.inl (by simp [fail]))

theorem simulates_blocks :
    Compositional (ν := ν) fun _ first second => book.Simulates first second where
  leaf {_ act} forward :=
    { left := orderly_blocks.leaf forward
      right := orderly_blocks.leaf forward
      keeps := keeps_blocks.leaf forward
      agrees := by
        intro setting inner cached plain aligned _
        refine .inr ?_
        unfold leaf
        rw [aligned.source, aligned.cursor]
        generalize act cached.source cached.cursor = move
        have after := (aligned.moveTo move.cursor).expect move.label
        obtain ⟨outcome, cursor, label⟩ := move
        cases outcome with
        | ok value => exact .ok value rfl after
        | error mismatch => exact .error mismatch.val rfl after }
  bind {_ _ first second next other} simulates continued :=
    { left := orderly_blocks.bind simulates.left fun value => (continued value).left
      right := orderly_blocks.bind simulates.right fun value => (continued value).right
      keeps := keeps_blocks.bind simulates.keeps fun value => (continued value).keeps
      agrees := by
        intro setting inner cached plain aligned honest
        have kept := simulates.keeps cached honest
        rcases simulates.agrees aligned honest with diverged | agreed
        next =>
          exact .inl (diverged.leads (leads_bind (fun value => (continued value).left) cached)
            (leads_bind (fun value => (continued value).right) plain))
        next =>
          rw [bind_apply, bind_apply]
          generalize first cached = ending, second plain = plainEnding at agreed kept ⊢
          cases agreed with
          | ok value length after => exact length ▸ (continued value).agrees after kept
          | error failure length after => exact .inr (.error failure length after) }
  branch {_ _ first second found other missed lost} simulates matched unmatched :=
    { left := orderly_blocks.branch simulates.left (fun value => (matched value).left)
        fun mismatch => (unmatched mismatch).left
      right := orderly_blocks.branch simulates.right (fun value => (matched value).right)
        fun mismatch => (unmatched mismatch).right
      keeps := keeps_blocks.branch simulates.keeps (fun value => (matched value).keeps)
        fun mismatch => (unmatched mismatch).keeps
      agrees := by
        intro setting inner cached plain aligned honest
        have kept := simulates.keeps cached honest
        rcases simulates.agrees aligned honest with diverged | agreed
        next =>
          exact .inl (diverged.leads
            (leads_branch (fun value => (matched value).left)
              (fun mismatch => (unmatched mismatch).left) cached)
            (leads_branch (fun value => (matched value).right)
              (fun mismatch => (unmatched mismatch).right) plain))
        next =>
          unfold branch
          rw [aligned.cursor]
          generalize first cached = ending, second plain = plainEnding at agreed kept ⊢
          cases agreed with
          | ok value length after => exact length ▸ (matched value).agrees after kept
          | error failure length after =>
            by_cases recoverable : failure.recoverable = true
            next =>
              simp only [recoverable, dite_true]
              exact length ▸ (unmatched ⟨failure, recoverable⟩).agrees (after.moveTo _) kept
            next =>
              simp only [recoverable]
              exact .inr (.error failure length after) }
  ahead {_ first second} simulates :=
    { left := orderly_blocks.ahead simulates.left
      right := orderly_blocks.ahead simulates.right
      keeps := keeps_blocks.ahead simulates.keeps
      agrees := by
        intro setting inner cached plain aligned honest
        rcases simulates.agrees aligned honest with diverged | agreed
        next => exact .inl (diverged.leads (leads_ahead cached) (leads_ahead plain))
        next =>
          unfold ahead
          rw [aligned.cursor]
          generalize first cached = ending, second plain = plainEnding at agreed ⊢
          cases agreed with
          | ok value length after => exact .inr (.ok value length (after.moveTo _))
          | error failure length after =>
            simp only
            split
            next => exact .inr (.error failure length (after.moveTo _))
            next => exact .inr (.error failure length after) }
  notHere {_ first second} label simulates :=
    { left := orderly_blocks.notHere label simulates.left
      right := orderly_blocks.notHere label simulates.right
      keeps := keeps_blocks.notHere label simulates.keeps
      agrees := by
        intro setting inner cached plain aligned honest
        have left := simulates.left (cached.pushFrame cached.cursor.index)
        have right := simulates.right (plain.pushFrame plain.cursor.index)
        have pushed := aligned.pushFrame cached.cursor.index
        have found := simulates.agrees pushed honest
        rw [← aligned.cursor] at found
        rcases found with diverged | agreed
        next =>
          have leads := leads_notHere first label cached
          rw [← aligned.cursor] at leads
          exact .inl (Diverged.leads diverged leads (leads_notHere second label plain))
        next =>
          simp only [notHere]
          rw [← aligned.cursor] at left ⊢
          generalize first (cached.pushFrame plain.cursor.index) = ending,
            second (plain.pushFrame plain.cursor.index) = plainEnding at agreed left right ⊢
          cases agreed with
          | ok value length after =>
            have dropped := aligned.dropFrame after left right
            exact .inr (.error .noMatch length ((dropped.moveTo _).register _ _))
          | error failure length after =>
            have dropped := aligned.dropFrame after left right
            simp only
            split
            next => exact .inr (.ok () length (dropped.moveTo _))
            next => exact .inr (.error failure length (dropped.moveTo _)) }
  isolated {_ first second} simulates :=
    { left := orderly_blocks.isolated simulates.left
      right := orderly_blocks.isolated simulates.right
      keeps := keeps_blocks.isolated simulates.keeps
      agrees := by
        intro setting inner cached plain aligned honest
        have left := simulates.left (cached.pushFrame cached.cursor.index)
        have right := simulates.right (plain.pushFrame plain.cursor.index)
        have pushed := aligned.pushFrame cached.cursor.index
        have found := simulates.agrees pushed honest
        rw [← aligned.cursor] at found
        rcases found with diverged | agreed
        next =>
          have leads := leads_isolated first cached
          rw [← aligned.cursor] at leads
          exact .inl (Diverged.leads diverged leads (leads_isolated second plain))
        next =>
          unfold isolated
          rw [← aligned.cursor] at left ⊢
          generalize first (cached.pushFrame plain.cursor.index) = ending,
            second (plain.pushFrame plain.cursor.index) = plainEnding at agreed left right ⊢
          cases agreed with
          | ok value length after =>
            exact .inr (.ok (Except.ok value) length (aligned.dropFrame after left right))
          | error failure length after =>
            have dropped := aligned.dropFrame after left right
            by_cases recoverable : failure.recoverable = true
            next =>
              simp only [recoverable, dite_true, after.frame trivial]
              exact .inr (.ok _ length (dropped.moveTo _))
            next =>
              simp only [recoverable]
              exact .inr (.error failure length dropped) }
  atLevel {_ first second} level simulates :=
    { left := orderly_blocks.atLevel level simulates.left
      right := orderly_blocks.atLevel level simulates.right
      keeps := keeps_blocks.atLevel level simulates.keeps
      agrees := by
        intro setting inner cached plain aligned honest
        rcases simulates.agrees (aligned.setLevel level) honest with diverged | agreed
        next =>
          exact .inl (Diverged.leads diverged (leads_atLevel level cached)
            (leads_atLevel level plain))
        next =>
          unfold atLevel
          rw [aligned.cursor]
          generalize first (cached.setLevel level) = ending,
            second (plain.setLevel level) = plainEnding at agreed ⊢
          cases agreed with
          | ok value length after => exact .inr (.ok value length (after.setLevel _))
          | error failure length after => exact .inr (.error failure length (after.setLevel _)) }

end Book

end Packrat
