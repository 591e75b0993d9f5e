import LambdaPi.Symbol

/-!
# Tables by symbol

Finite maps from symbols. What was entered last for a symbol is found (`Table.find?_enter_self`), and
entering something for one symbol leaves the others alone (`Table.find?_enter_of_ne`).
-/

namespace LambdaPi

/-- A finite map from symbols, in the order in which they were first entered. -/
abbrev Table (α : Type) := List (Symbol × α)

namespace Table

variable {α : Type}

/-- What the table says about a symbol. -/
def find? (s : Symbol) : Table α → Option α
  | [] => none
  | (t, a) :: rest => if s = t then some a else find? s rest

/-- Enter something for a symbol, in place of what was there. -/
def enter (s : Symbol) (a : α) : Table α → Table α
  | [] => [(s, a)]
  | (t, b) :: rest => if s = t then (t, a) :: rest else (t, b) :: enter s a rest

@[simp] theorem find?_enter_self (s : Symbol) (a : α) (table : Table α) :
    find? s (enter s a table) = some a := by
  induction table with
  | nil => simp [enter, find?]
  | cons entry rest ih =>
    obtain ⟨t, b⟩ := entry
    by_cases h : s = t <;> simp [enter, find?, h, ih]

theorem find?_enter_of_ne {s t : Symbol} (h : s ≠ t) (a : α) (table : Table α) :
    find? s (enter t a table) = find? s table := by
  induction table with
  | nil => simp [enter, find?, h]
  | cons entry rest ih =>
    obtain ⟨u, b⟩ := entry
    by_cases htu : t = u
    · subst htu
      simp [enter, find?, h]
    · by_cases hsu : s = u <;> simp [enter, find?, htu, hsu, ih]

end Table

end LambdaPi
