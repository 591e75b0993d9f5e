import LambdaPi.Rules.DecisionTree
import LambdaPi.Term.Substitution

/-!
# Bindings of meta-variables

When a meta-variable applied to variables of its pattern is matched against a term, the term is kept
together with the number of variables that the pattern binds around it and the position of each of
them among the arguments. Using the meta-variable with other arguments replaces those variables and
moves all others out of the pattern.
-/

namespace LambdaPi

/-- A term bound to a meta-variable: `depth` variables are bound by the pattern around it, and
`positions` says where each of them stands among the arguments of the meta-variable. -/
structure Binding where
  term : Term
  depth : Nat
  positions : List (Option Nat)

namespace Binding

/-- Does the term depend only on those variables of the pattern that are arguments? -/
def valid (b : Binding) : Bool :=
  b.term.allFree (fun x => b.depth ≤ x || (b.positions.getD x none).isSome) 0

/-- What takes the place of a variable of the bound term when the meta-variable is applied to `args`
under `c` binders of the right-hand side. -/
def replacement (b : Binding) (args : List Term) (c : Nat) : Replacement :=
  fun n k x =>
    let loc := n - k
    if loc < b.depth then
      match (b.positions.getD loc none).bind fun i => args[i]? with
      | some arg => arg.lift k
      | none => .bvar n x
    else .bvar (loc - b.depth + c + k) x

/-- The bound term with the meta-variable applied to `args`, under `c` binders of the right-hand
side. -/
def instantiate (b : Binding) (args : List Term) (c : Nat) : Term :=
  if b.depth = 0 then b.term.lift c
  else (b.term.replace (b.replacement args c) 0).result

end Binding

/-- The meta-variables bound so far. -/
abbrev Bindings := List (MetaName × Binding)

namespace Term

mutual

/-- Put the bindings in place of the meta-variables of a term that stands under `c` binders. -/
def fill (bindings : Bindings) (c : Nat) : Term → Term
  | appl f a => appl (f.fill bindings c) (a.fill bindings c)
  | prod x A B => prod x (A.fill bindings c) (B.fill bindings (c + 1))
  | abst x A t => abst x (fillAnn bindings c A) (t.fill bindings (c + 1))
  | mvar m args =>
    match m.bind fun name => bindings.lookup name with
    | some b => b.instantiate (fillArgs bindings c args) c
    | none => mvar m (fillArgs bindings c args)
  | t => t

/-- `Term.fill` for an optional annotation. -/
def fillAnn (bindings : Bindings) (c : Nat) : Option Term → Option Term
  | none => none
  | some A => some (A.fill bindings c)

/-- `Term.fill` for a list of arguments. -/
def fillArgs (bindings : Bindings) (c : Nat) : List Term → List Term
  | [] => []
  | t :: ts => t.fill bindings c :: fillArgs bindings c ts

end

end Term

/-- The right-hand side of a rule with the bindings put in place. Where nothing is bound, it is the
right-hand side as it stands. -/
def Rule.instantiate (rule : Rule) (bindings : Bindings) : Term :=
  if bindings.isEmpty then rule.rhs else rule.rhs.fill bindings 0

end LambdaPi
