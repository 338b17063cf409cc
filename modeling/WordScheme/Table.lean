import WordScheme.Text.Quoted

/-!
# Tables

A table grows at its end, and a row keeps the index under which it was added.
-/

namespace WordScheme

/-- Rows in the order of their indices. -/
structure Table (α : Type) where
  rows : List α
deriving DecidableEq, Repr

namespace Table

variable {α : Type}

/-- A table without rows. -/
def empty : Table α :=
  ⟨[]⟩

/-- The number of rows. -/
def size (t : Table α) : Nat :=
  t.rows.length

/-- The index that the next row will get. -/
def nextIndex (t : Table α) : Nat :=
  t.size

/-- Adds a row, and says under which index. -/
def push (t : Table α) (row : α) : Nat × Table α :=
  (t.nextIndex, ⟨t.rows ++ [row]⟩)

/-- The row at an index. -/
def get? (t : Table α) (index : Nat) : Option α :=
  t.rows[index]?

/-- Replaces the row at an index that has one. -/
def set? (t : Table α) (index : Nat) (row : α) : Option (Table α) :=
  if index < t.size then some ⟨t.rows.set index row⟩ else none

/-- Changes the row at an index, if there is one. -/
def update (t : Table α) (index : Nat) (f : α → α) : Table α :=
  ⟨t.rows.modify index f⟩

/-- The rows with their indices. -/
def entries (t : Table α) : List (Nat × α) :=
  t.rows.zipIdx.map fun (row, index) => (index, row)

@[simp]
theorem size_push (t : Table α) (row : α) : (t.push row).2.size = t.size + 1 := by
  simp [push, size]

@[simp]
theorem size_update (t : Table α) (index : Nat) (f : α → α) : (t.update index f).size = t.size := by
  simp [update, size]

/-- A row stays where it was when another is added. -/
theorem get?_push_of_lt (t : Table α) (row : α) {index : Nat} (h : index < t.size) :
    (t.push row).2.get? index = t.get? index :=
  List.getElem?_append_left h

/-- A new row is found under its index. -/
@[simp]
theorem get?_push_self (t : Table α) (row : α) :
    (t.push row).2.get? (t.push row).1 = some row := by
  simp [push, get?, nextIndex, size]

end Table

/-! ### Tables of texts -/

/-- The rows of a table of texts, quoted, in brackets. -/
def Table.listing (t : Table String) : String :=
  "[" ++ ", ".intercalate (t.rows.map quoteText) ++ "]"

end WordScheme
