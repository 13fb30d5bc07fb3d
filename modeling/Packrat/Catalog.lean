import Std.Data.ExtTreeMap

set_option autoImplicit false

namespace Packrat

namespace Catalog

variable {α : Type}

def nonempty? : List α → Option (List α)
  | [] => none
  | first :: others => some (first :: others)

@[simp] theorem nonempty?_getD (items : List α) : (nonempty? items).getD [] = items := by
  cases items <;> rfl

def file (shelves : Std.ExtTreeMap Nat (List α)) (n : Nat) :
    List α → Std.ExtTreeMap Nat (List α)
  | [] => shelves.erase n
  | first :: others => shelves.insert n (first :: others)

theorem getElem?_file (shelves : Std.ExtTreeMap Nat (List α)) (n m : Nat) (items : List α) :
    (file shelves n items)[m]? = if n = m then nonempty? items else shelves[m]? := by
  cases items with
  | nil => simp [file, nonempty?, Std.ExtTreeMap.getElem?_erase]
  | cons first others => simp [file, nonempty?, Std.ExtTreeMap.getElem?_insert]

end Catalog

structure Catalog (α : Type) (number : α → Nat) where
  items : List α := []
  shelves : Std.ExtTreeMap Nat (List α) := ∅
  shelves_eq : ∀ n, shelves[n]? = Catalog.nonempty? (items.filter (number · = n)) := by
    intro n; simp [Catalog.nonempty?]

namespace Catalog

variable {α : Type} {number : α → Nat}

def shelf (catalog : Catalog α number) (n : Nat) : List α :=
  catalog.shelves[n]?.getD []

theorem shelf_eq (catalog : Catalog α number) (n : Nat) :
    catalog.shelf n = catalog.items.filter (number · = n) := by
  rw [shelf, catalog.shelves_eq, nonempty?_getD]

theorem eq_of_items {first second : Catalog α number} (same : first.items = second.items) :
    first = second := by
  have shelves : first.shelves = second.shelves := by
    apply Std.ExtTreeMap.ext_getElem?
    intro n
    rw [first.shelves_eq, second.shelves_eq, same]
  cases first
  cases second
  simp_all

def push (catalog : Catalog α number) (item : α) : Catalog α number where
  items := item :: catalog.items
  shelves := file catalog.shelves (number item) (item :: catalog.shelf (number item))
  shelves_eq n := by
    rw [getElem?_file]
    by_cases same : number item = n <;> simp [same, shelf_eq, catalog.shelves_eq]

def pop (catalog : Catalog α number) : Catalog α number :=
  match found : catalog.items with
  | [] => catalog
  | item :: rest =>
    { items := rest
      shelves := file catalog.shelves (number item) (catalog.shelf (number item)).tail
      shelves_eq := by
        intro n
        rw [getElem?_file]
        by_cases same : number item = n <;> simp [same, shelf_eq, catalog.shelves_eq, found] }

def ofList : List α → Catalog α number
  | [] => {}
  | item :: rest => (ofList rest).push item

@[simp] theorem items_push (catalog : Catalog α number) (item : α) :
    (catalog.push item).items = item :: catalog.items := rfl

@[simp] theorem items_pop (catalog : Catalog α number) :
    catalog.pop.items = catalog.items.tail := by
  unfold pop
  split
  next found => simp [found]
  next found => simp [found]

@[simp] theorem items_ofList (items : List α) :
    (ofList items : Catalog α number).items = items := by
  induction items with
  | nil => rfl
  | cons item rest ih => simp [ofList, ih]

end Catalog

end Packrat
