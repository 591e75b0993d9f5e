import LambdaPi.Term.Display

/-!
# Arguments of meta-variables in patterns

Inside a pattern a meta-variable may be applied to distinct variables that the pattern itself binds,
so that what it matches is determined. `localPositions` accepts such argument lists and computes, for
each variable that the pattern binds, where it stands among the arguments.
-/

namespace LambdaPi

/-- Why the arguments of a meta-variable do not form a pattern. -/
inductive PatternError where
  /-- not a variable that the pattern binds -/
  | nonLocal (arg : Term)
  /-- a variable that occurs a second time -/
  | repeated (arg : Term)
deriving Repr

/-- Wording of the errors. -/
def PatternError.message : PatternError → String
  | nonLocal arg => s!"Expected a locally bound variable, got: {arg.display}"
  | repeated arg => s!"Expected distinct variables, got {arg.display} twice"

/-- Note that the argument at position `i` is `arg`, which must be one of the `depth` variables bound
by the pattern and not be noted yet. -/
def notePosition (depth : Nat) (positions : List (Option Nat)) (arg : Term) (i : Nat) :
    Except PatternError (List (Option Nat)) :=
  match arg with
  | .bvar x _ =>
    if x < depth then
      match positions[x]? with
      | some (some _) => .error (.repeated arg)
      | _ => .ok (positions.set x (some i))
    else .error (.nonLocal arg)
  | _ => .error (.nonLocal arg)

/-- Note the positions of the given arguments, the first of which stands at position `i`. -/
def notePositions (depth : Nat) :
    List Term → Nat → List (Option Nat) → Except PatternError (List (Option Nat))
  | [], _, positions => .ok positions
  | arg :: args, i, positions => do
    notePositions depth args (i + 1) (← notePosition depth positions arg i)

/-- For each of the `depth` variables bound by the pattern, its position among the arguments. The
arguments must be distinct variables among those. -/
def localPositions (args : List Term) (depth : Nat) : Except PatternError (List (Option Nat)) :=
  notePositions depth args 0 (List.replicate depth none)

/-- Are the arguments, counted from `i`, the variables `i`, `i + 1` and so on? -/
def countsFrom : Nat → List Term → Bool
  | _, [] => true
  | i, arg :: args => arg.isVar i && countsFrom (i + 1) args

/-- Are the arguments exactly the `depth` variables bound by the pattern, in order? -/
def isIdentity (args : List Term) (depth : Nat) : Bool :=
  args.length == depth && countsFrom 0 args

end LambdaPi
