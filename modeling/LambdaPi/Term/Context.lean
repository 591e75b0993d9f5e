import LambdaPi.Term.Display
import LambdaPi.Term.Substitution

/-!
# Contexts

A context lists the variables that a term may refer to, the one bound last first, so that the
position of a variable in the list is its number. The type of a variable is stored as it was written,
for the variables bound before it, and is lifted when it is looked up.
-/

namespace LambdaPi

/-- A bound variable with its name and its type, both optional. -/
structure Hypothesis where
  name : Option String
  type : Option Term
deriving Repr

/-- The variables in scope, the innermost first. -/
abbrev Context := List Hypothesis

namespace Context

/-- Bind one more variable, which becomes variable 0. -/
def bind (Γ : Context) (name : Option String) (type : Option Term) : Context :=
  ⟨name, type⟩ :: Γ

/-- Type of the variable `n`, as seen from inside the context. -/
def typeOf? (Γ : Context) (n : Nat) : Option Term := do
  let A ← (← Γ[n]?).type
  return A.lift (n + 1)

/-- Name of the variable `n`. -/
def nameOf? (Γ : Context) (n : Nat) : Option String := do
  (← Γ[n]?).name

end Context

/-- One line: the name, or a star, and the type, or a question mark. -/
def Hypothesis.display (h : Hypothesis) : String :=
  let name := h.name.getD "*"
  let type := (h.type.map Term.display).getD "?"
  s!"{name} : {type}\n"

/-- A heading, then a line for each variable, the outermost first. -/
def Context.display (Γ : Context) : String :=
  "[CONTEXT]\n" ++ String.join (Γ.reverse.map Hypothesis.display)

end LambdaPi
