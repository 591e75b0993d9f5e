import LambdaPi.Evaluation.Traced

/-!
# The journal

What is written down while a session runs: the report of the events that the current level of detail
admits, and which decision trees were used so far. Neither has an influence on any result.
-/

namespace LambdaPi

/-- The report so far, latest line first, its level of detail, and the decision trees used so far, by
symbol and number of arguments. -/
structure Journal where
  level : Level := .off
  lines : List (Level × String) := []
  consulted : List (Symbol × Nat) := []

namespace Journal

/-- Add a record to the report if its level is admitted. -/
def write (j : Journal) (r : Record) : Journal :=
  if j.level.admits r.level then { j with lines := (r.level, r.text ()) :: j.lines } else j

/-- Take note of an event. That a tree is used is reported the first time only. -/
def observe (j : Journal) (e : Event) : Journal :=
  match e with
  | .consult s arity _ =>
    if (s, arity) ∈ j.consulted then j
    else { e.records.foldl write j with consulted := (s, arity) :: j.consulted }
  | _ => e.records.foldl write j

/-- Take note of all events of a trace. -/
def absorb (j : Journal) (t : Trace) : Journal :=
  t.foldl observe j

/-- A rule was added: of the trees of its head symbol only the one for its own number of arguments
has been used. -/
def ruleAdded (j : Journal) (rule : Rule) : Journal :=
  { j with
    consulted := (rule.head, rule.arity) :: j.consulted.filter fun (s, _) => s ≠ rule.head }

/-- The trees of a symbol that were used so far, from no arguments on. -/
def forest (j : Journal) (σ : Signature) (s : Symbol) : List (Option (Option DecisionTree)) :=
  (σ.trees s).zipIdx.map fun (cell, arity) =>
    if (s, arity) ∈ j.consulted then some (cell.get.toOption.getD none) else none

end Journal

end LambdaPi
