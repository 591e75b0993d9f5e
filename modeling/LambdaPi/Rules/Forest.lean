import LambdaPi.Rules.DecisionTree

/-!
# Display of decision trees

Every branch stands two blanks further to the right than the switch or test it belongs to. The trees
of a symbol are displayed together, one for each number of arguments.
-/

namespace LambdaPi

/-- Margin of a line at the given level. -/
def margin (level : Nat) : String :=
  String.join (List.replicate level "  ")

/-- The case that a branch is for. -/
def Shape.display : Shape → String
  | abst => "Lam"
  | symb s nargs => s!"[{s.text}]({nargs} args)"
  | bvar n nargs => s!"#{n}({nargs} args)"

/-- The meta-variable with its arguments, and the column it is bound to. -/
def MetaTest.display (t : MetaTest) : String :=
  let args := ", ".intercalate (t.args.map Term.display)
  s!"{t.name.display}[{args}] = stack[{t.column}]"

mutual

/-- Lines of a tree at the given level. -/
def Tree.display (level : Nat) : Tree → String
  | .fail => margin level ++ "Fail\n"
  | .switch column branches otherwise =>
    margin level ++ s!"Look stack[{column}]:\n" ++ branches.display level
      ++ margin level ++ "Default:\n" ++ otherwise.display (level + 1)
  | .test rule tests otherwise =>
    margin level ++ "Match:\n"
      ++ String.join (tests.map fun t => margin level ++ t.display ++ "\n")
      ++ margin level ++ s!"> Fire rule `{rule.name}`: {rule.rhs.display}\n"
      ++ margin level ++ "Default:\n" ++ otherwise.display (level + 1)

/-- Lines of the branches of a switch at the given level. -/
def Branches.display (level : Nat) : Branches → String
  | .nil => ""
  | .cons shape tree rest =>
    margin level ++ s!"Case {shape.display}:\n" ++ tree.display (level + 1) ++ rest.display level

end

/-- Lines of a decision tree. -/
def DecisionTree.display (t : DecisionTree) : String :=
  t.root.display 0

/-- Lines for the trees of a symbol, from no arguments on: a tree that was not asked for yet is
`none`, and `some none` says that no rule has so few arguments. -/
def displayForest (cells : List (Option (Option DecisionTree))) : String :=
  let cell : Option (Option DecisionTree) × Nat → String := fun (tree, i) =>
    s!"Case {i}:\n" ++
      match tree with
      | none => "  not computed yet...\n"
      | some none => "  Fail\n"
      | some (some t) => t.root.display 1
  "Count arguments:\n" ++ String.join (cells.zipIdx.map cell)

end LambdaPi
