import LambdaPi.Evaluation.Binding
import LambdaPi.Evaluation.Traced

/-!
# Matching

Finding the rule that a decision tree chooses for some columns. Matching reduces the columns it looks
at, normalizes a term that seems to depend on the wrong variables, and compares two terms bound to
one meta-variable; how these are done is given to it as a `Reducer`.
-/

namespace LambdaPi

open Traced

/-- The ways of reducing and comparing terms that matching relies on. -/
structure Reducer where
  whnf : Term → Traced Term
  nf : Term → Traced Term
  convertible : Term → Term → Traced Bool

/-- A term that is being matched, and whether it has been reduced to weak head normal form. -/
structure Column where
  term : Term
  reduced : Bool

namespace Column

/-- A column that was not looked at yet. -/
def unseen (t : Term) : Column :=
  ⟨t, false⟩

/-- The weak head normal form of a column. -/
def whnf (red : Reducer) (c : Column) : Traced Term :=
  if c.reduced then pure c.term else red.whnf c.term

end Column

/-- Do two bindings of a meta-variable with `arity` arguments agree? They are compared with the
meta-variable applied to `arity` new variables. -/
def Binding.agrees (red : Reducer) (b b' : Binding) (arity : Nat) : Traced Bool :=
  let args := (List.range arity).map fun i => .bvar i none
  red.convertible (b.instantiate args arity) (b'.instantiate args arity)

namespace MetaTest

/-- A valid binding of the meta-variable to a term, which is normalized if it is not valid as it
stands: variables it should not depend on may disappear. -/
def settle (red : Reducer) (test : MetaTest) (t : Term) : Traced (Option Binding) :=
  let b : Binding := ⟨t, test.depth, test.positions⟩
  if test.anything || b.valid then pure (some b)
  else do
    let b : Binding := ⟨← red.nf t, test.depth, test.positions⟩
    if b.valid then return some b
    else
      emit (.dependence test.name b.term)
      return none

/-- Bind the meta-variable to its column. If it is bound already, the two bindings must agree, and
the first is kept. -/
def run (red : Reducer) (columns : List Column) (bindings : Bindings) (test : MetaTest) :
    Traced (Option Bindings) :=
  match columns[test.column]? with
  | none => pure none
  | some column => do
    match ← test.settle red column.term with
    | none => return none
    | some b =>
      match bindings.lookup test.name with
      | none => return some (bindings ++ [(test.name, b)])
      | some first =>
        if ← first.agrees red b test.args.length then return some bindings else return none

/-- Bind several meta-variables, in order. -/
def runAll (red : Reducer) (columns : List Column) : List MetaTest → Bindings →
    Traced (Option Bindings)
  | [], bindings => pure (some bindings)
  | test :: tests, bindings => do
    match ← test.run red columns bindings with
    | none => return none
    | some bindings => runAll red columns tests bindings

end MetaTest

mutual

/-- The first rule that matches the columns, with its bindings. A column is reduced when it is first
looked at. -/
def Tree.find (red : Reducer) : Tree → List Column → Traced (Option (Rule × Bindings))
  | .fail, _ => pure none
  | .switch i branches otherwise, columns =>
    match columns[i]? with
    | none => pure none
    | some column => do
      let t ← column.whnf red
      emit (.lookAt i t)
      let seen := columns.set i ⟨t, true⟩
      match t.shape? with
      | none => otherwise.find red seen
      | some (shape, parts) =>
        match branches.find? red shape (seen ++ parts.map .unseen) with
        | some found => found
        | none => otherwise.find red seen
  | .test rule tests otherwise, columns => do
    match ← MetaTest.runAll red columns tests [] with
    | some bindings => return some (rule, bindings)
    | none => otherwise.find red columns

/-- What the branch for a shape finds, if there is one. -/
def Branches.find? (red : Reducer) (shape : Shape) : Branches → List Column →
    Option (Traced (Option (Rule × Bindings)))
  | .nil, _ => none
  | .cons s tree rest, columns =>
    if s = shape then some (tree.find red columns) else rest.find? red shape columns

end

/-- The first rule that matches the columns, none of which was looked at. -/
def DecisionTree.find (red : Reducer) (t : DecisionTree) (columns : List Term) :
    Traced (Option (Rule × Bindings)) :=
  t.root.find red (columns.map .unseen)

end LambdaPi
