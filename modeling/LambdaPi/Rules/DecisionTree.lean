import LambdaPi.Rules.Pattern
import LambdaPi.Rules.Rule

/-!
# Decision trees

A decision tree tells which of several rules with one head symbol is the first to match some
arguments. It works on a list of columns, which starts out as the arguments, the last one first, and
grows by the parts of what was looked at. A switch looks at one column and branches on its shape; a
test binds the meta-variables of a rule to columns and fires the rule.
-/

namespace LambdaPi

/-- What a switch branches on: an abstraction, or a symbol or variable applied to a number of
arguments. -/
inductive Shape where
  | abst
  | symb (s : Symbol) (nargs : Nat)
  | bvar (n : Nat) (nargs : Nat)
deriving DecidableEq, Repr

namespace Shape

/-- Number of columns that a term of this shape adds. -/
def width : Shape → Nat
  | abst => 1
  | symb _ nargs => nargs
  | bvar _ nargs => nargs

/-- Number of binders around the parts of a term of this shape that stands under `depth` binders. -/
def depthInside (depth : Nat) : Shape → Nat
  | abst => depth + 1
  | _ => depth

/-- Branches are kept in order: abstractions, then symbols, then variables. -/
def before : Shape → Shape → Bool
  | abst, abst => false
  | abst, _ => true
  | symb s m, symb t n => s.before t || (s == t && m < n)
  | symb _ _, bvar _ _ => true
  | bvar x m, bvar y n => x < y || (x == y && m < n)
  | _, _ => false

end Shape

/-- Shape of a term and the columns its parts make: the body of an abstraction, or the arguments, the
last one first. Other terms have no shape. -/
def Term.shape? (t : Term) : Option (Shape × List Term) :=
  match t with
  | .abst _ _ body => some (.abst, [body])
  | _ =>
    match t.unapply with
    | (.symb s, args) => some (.symb s args.length, args.reverse)
    | (.bvar n _, args) => some (.bvar n args.length, args.reverse)
    | _ => none

/-- Instruction to bind the meta-variable `name` applied to `args` to a column. -/
structure MetaTest where
  column : Nat
  name : MetaName
  /-- for each variable that the pattern binds around the column, its position in `args` -/
  positions : List (Option Nat)
  /-- number of variables that the pattern binds around the column -/
  depth : Nat
  args : List Term
  /-- are `args` all the variables bound around the column, in order? -/
  anything : Bool
deriving Repr

mutual

/-- A decision tree. -/
inductive Tree where
  | fail
  | switch (column : Nat) (branches : Branches) (otherwise : Tree)
  | test (rule : Rule) (tests : List MetaTest) (otherwise : Tree)

/-- The branches of a switch. -/
inductive Branches where
  | nil
  | cons (shape : Shape) (tree : Tree) (rest : Branches)

end

/-- A decision tree with the number of arguments it looks at. -/
structure DecisionTree where
  arity : Nat
  root : Tree

namespace Branches

/-- Put a branch where its shape belongs in the order. -/
def insert (shape : Shape) (tree : Tree) : Branches → Branches
  | nil => cons shape tree nil
  | cons s t rest =>
    if shape.before s then cons shape tree (cons s t rest)
    else cons s t (insert shape tree rest)

/-- The given branches, in order. -/
def ofList (branches : List (Shape × Tree)) : Branches :=
  branches.foldr (fun b bs => insert b.1 b.2 bs) nil

end Branches

/-- Why rules have no decision tree. -/
inductive TreeError where
  | noRules
  | headMismatch (actual expected : Symbol)
  /-- the rule has more arguments than the tree looks at -/
  | arityTooSmall (rule : String) (arity : Nat)
  | pattern (e : PatternError)
  /-- no weak head normal form has the shape of this pattern -/
  | unmatchable (pattern : Term)
deriving Repr

/-- Wording of the errors. -/
def TreeError.message : TreeError → String
  | noRules => "Cannot compute decision tree for an empty set of rules."
  | headMismatch actual expected =>
    s!"Head symbol mismatch found: [{actual.text}] != [{expected.text}]."
  | arityTooSmall rule arity => s!"Rule `{rule}` has more than {arity} arguments."
  | pattern e => e.message
  | unmatchable p => s!"Pattern can never be matched: {p.display}"

end LambdaPi
