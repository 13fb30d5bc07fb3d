set_option autoImplicit false

namespace Packrat.Text

def size : List Char → Nat
  | [] => 0
  | c :: rest => c.utf8Size + size rest

def suffix? : List Char → Nat → Option (List Char)
  | text, 0 => some text
  | [], _ + 1 => none
  | c :: rest, n + 1 =>
    if n + 1 < c.utf8Size then none else suffix? rest (n + 1 - c.utf8Size)

def suffixes : List Char → List (List Char)
  | [] => [[]]
  | c :: rest => (c :: rest) :: (List.replicate (c.utf8Size - 1) [] ++ suffixes rest)

def take? : List Char → Nat → Option (List Char)
  | _, 0 => some []
  | [], _ + 1 => none
  | c :: rest, n + 1 =>
    if n + 1 < c.utf8Size then none else (take? rest (n + 1 - c.utf8Size)).map (c :: ·)

def slice? (text : List Char) (start stop : Nat) : Option (List Char) :=
  if stop < start then none else (suffix? text start).bind (take? · (stop - start))

def split : List Char → Nat → List Char × List Char
  | [], _ => ([], [])
  | c :: rest, offset =>
    if offset < c.utf8Size then ([], c :: rest)
    else
      let halves := split rest (offset - c.utf8Size)
      (c :: halves.1, halves.2)

def floor (text : List Char) (offset : Nat) : Nat :=
  size (split text offset).1

/-- An offset that stands between two characters, or at one of the text's ends. -/
def Boundary (text : List Char) (offset : Nat) : Prop :=
  (suffix? text offset).isSome

@[simp] theorem size_nil : size [] = 0 := rfl

@[simp] theorem size_cons (c : Char) (rest : List Char) :
    size (c :: rest) = c.utf8Size + size rest := rfl

@[simp] theorem size_append (first second : List Char) :
    size (first ++ second) = size first + size second := by
  induction first with
  | nil => simp
  | cons c rest ih => simp [ih, Nat.add_assoc]

theorem suffixes_getD (text : List Char) (offset : Nat) :
    (suffixes text)[offset]?.getD [] = (suffix? text offset).getD [] := by
  induction text generalizing offset with
  | nil => cases offset <;> simp [suffixes, suffix?]
  | cons c rest ih =>
    have positive := c.utf8Size_pos
    cases offset with
    | zero => rfl
    | succ n =>
      by_cases inside : n + 1 < c.utf8Size
      next =>
        have within : n < c.utf8Size - 1 := by omega
        simp [suffixes, suffix?, inside, List.getElem?_append, within]
      next =>
        have beyond : ¬ n < c.utf8Size - 1 := by omega
        have shifted : n - (c.utf8Size - 1) = n + 1 - c.utf8Size := by omega
        simp [suffixes, suffix?, inside, List.getElem?_append, beyond, shifted, ih]

theorem split_append (text : List Char) (offset : Nat) :
    (split text offset).1 ++ (split text offset).2 = text := by
  induction text generalizing offset with
  | nil => rfl
  | cons c rest ih =>
    by_cases inside : offset < c.utf8Size
    next => simp [split, inside]
    next => simp [split, inside, ih]

end Packrat.Text
