import Packrat.Catalog
import Packrat.Failure
import Packrat.Farthest.Stack

set_option autoImplicit false

namespace Packrat

/-- How an activation ended: its outcome, the cursor to go on from and what it expected. Results
are stored as `ν`. -/
structure Verdict (ν : Type) where
  outcome : Except Failure ν
  cursor : Cursor
  frame : Farthest.Frame

/-- Verdicts by call, at most one for each, filed by where the call starts. -/
structure MemoTable (ν : Type) where
  catalog : Catalog (Call × Verdict ν) (·.1.cursor.index) := {}

namespace MemoTable

variable {ν : Type}

def entries (table : MemoTable ν) : List (Call × Verdict ν) :=
  table.catalog.items

def find? (table : MemoTable ν) (call : Call) : Option (Verdict ν) :=
  (table.catalog.shelf call.cursor.index).lookup call

def size (table : MemoTable ν) : Nat :=
  table.entries.length

def insert (table : MemoTable ν) (call : Call) (verdict : Verdict ν) : MemoTable ν :=
  match table.find? call with
  | none => { catalog := table.catalog.push (call, verdict) }
  | some _ => { catalog := .ofList ((call, verdict) :: table.entries.filter (·.1 ≠ call)) }

theorem lookup_filter (test : Call → Bool) {call : Call} (passes : test call = true)
    (entries : List (Call × Verdict ν)) :
    (entries.filter (test ·.1)).lookup call = entries.lookup call := by
  induction entries with
  | nil => rfl
  | cons entry rest ih =>
    obtain ⟨key, verdict⟩ := entry
    by_cases same : call = key
    next =>
      subst same
      simp [passes]
    next =>
      have skip : (call == key) = false := beq_false_of_ne same
      cases kept : test key <;> simp [kept, List.lookup_cons, skip, ih]

theorem find?_eq (table : MemoTable ν) (call : Call) :
    table.find? call = table.entries.lookup call := by
  rw [find?, Catalog.shelf_eq]
  exact lookup_filter (fun key => key.cursor.index = call.cursor.index) (by simp) table.entries

theorem entries_insert (table : MemoTable ν) (call : Call) (verdict : Verdict ν) :
    (table.insert call verdict).entries =
      (call, verdict) :: table.entries.filter (·.1 ≠ call) := by
  unfold insert
  split
  next missing =>
    rw [find?_eq, List.lookup_eq_none_iff] at missing
    have absent : ∀ entry ∈ table.entries, decide (entry.1 ≠ call) = true := by
      intro entry member
      have different := missing entry member
      simp only [bne_iff_ne, ne_eq] at different
      simpa using Ne.symm different
    rw [List.filter_eq_self.mpr absent]
    rfl
  next => simp [entries]

theorem find?_insert_self (table : MemoTable ν) (call : Call) (verdict : Verdict ν) :
    (table.insert call verdict).find? call = some verdict := by
  simp [find?_eq, entries_insert]

theorem find?_insert_of_ne (table : MemoTable ν) {call other : Call} (verdict : Verdict ν)
    (different : other ≠ call) :
    (table.insert call verdict).find? other = table.find? other := by
  have skip : (other == call) = false := beq_false_of_ne different
  rw [find?_eq, find?_eq, entries_insert, List.lookup_cons, skip]
  exact lookup_filter (fun key => key ≠ call) (by simpa using different) table.entries

theorem of_find?_insert {table : MemoTable ν} {call other : Call} {verdict found : Verdict ν}
    (stored : (table.insert call verdict).find? other = some found) :
    other = call ∧ found = verdict ∨ table.find? other = some found := by
  by_cases own : other = call
  next =>
    subst own
    rw [find?_insert_self] at stored
    exact .inl ⟨rfl, (Option.some.inj stored).symm⟩
  next =>
    rw [find?_insert_of_ne _ _ own] at stored
    exact .inr stored

end MemoTable

end Packrat
