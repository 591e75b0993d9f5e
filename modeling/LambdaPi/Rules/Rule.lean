import LambdaPi.Term.Display

/-!
# Rules

A rule reduces a symbol applied to patterns to a right-hand side. `Rule.ofSides` accepts two terms
as the sides of a rule when the left one is headed by a symbol, both are closed, and every
meta-variable on the right occurs on the left with as many arguments. A rule that unfolds the
definition of a symbol is made without these checks.
-/

namespace LambdaPi

/-- A rule: its head symbol, the patterns the symbol is applied to in order, and the
right-hand side. -/
structure Rule where
  name : String
  head : Symbol
  args : List Term
  rhs : Term
deriving Repr

/-- Why two terms are not the sides of a rule. -/
inductive RuleError where
  /-- the left-hand side has no symbol at its head -/
  | notSymbolHeaded (lhs : Term)
  /-- a side has a free variable -/
  | openSide (side : Term)
  /-- the left-hand side does not bind this part of the right-hand side -/
  | unbound (part : Term)
  /-- a meta-variable occurs with two numbers of arguments -/
  | arityMismatch (m : MetaName) (expected actual : Nat)
deriving Repr

/-- Wording of the errors. -/
def RuleError.message : RuleError → String
  | notSymbolHeaded lhs => s!"Left-hand side head is not a symbol: {lhs.display}"
  | openSide side => s!"Rule side is not closed: {side.display}"
  | unbound part => s!"Meta-variable not bound by the left-hand side: {part.display}"
  | arityMismatch m expected actual =>
    s!"Meta-variable {m.display} expects {expected} arguments, but is used with {actual}"

/-- Numbers of arguments that meta-variables occur with. -/
abbrev MetaArities := List (MetaName × Nat)

namespace MetaArities

/-- Take note of an occurrence; unnamed meta-variables are not looked at. -/
def note (known : MetaArities) : Option MetaName × Nat → Except RuleError MetaArities
  | (none, _) => .ok known
  | (some m, n) =>
    match known.lookup m with
    | none => .ok (known ++ [(m, n)])
    | some k => if k = n then .ok known else .error (.arityMismatch m k n)

/-- The numbers of arguments of the named meta-variables of a term. -/
def ofTerm (t : Term) : Except RuleError MetaArities :=
  t.metaVariables.foldlM note []

/-- May this term stand on the right of a rule whose left-hand side has the given meta-variables? It
is looked at without its parts. -/
def allows (known : MetaArities) (t : Term) : Except RuleError Unit :=
  match t with
  | .mvar (some m) args =>
    match known.lookup m with
    | none => .error (.unbound t)
    | some k => if k = args.length then .ok () else .error (.arityMismatch m k args.length)
  | .mvar none _ => .error (.unbound t)
  | .joker => .error (.unbound t)
  | _ => .ok ()

end MetaArities

namespace Rule

/-- The left-hand side. -/
def lhs (r : Rule) : Term :=
  (Term.symb r.head).apply r.args

/-- Number of arguments that the rule consumes. -/
def arity (r : Rule) : Nat :=
  r.args.length

/-- A closed side passes. -/
def closedSide (side : Term) : Except RuleError Unit :=
  if side.closed then .ok () else .error (.openSide side)

/-- Make a rule of two sides. -/
def ofSides (name : String) (lhs rhs : Term) : Except RuleError Rule :=
  match lhs.unapply with
  | (.symb head, args) => do
    closedSide lhs
    closedSide rhs
    let known ← MetaArities.ofTerm lhs
    rhs.subterms.forM known.allows
    return { name, head, args, rhs }
  | _ => .error (.notSymbolHeaded lhs)

/-- The rule that unfolds the definition of a symbol. -/
def ofDefinition (name : String) (head : Symbol) (body : Term) : Rule :=
  { name, head, args := [], rhs := body }

/-- Name and both sides. -/
def display (r : Rule) : String :=
  s!"{r.name}: {r.lhs.display} --> {r.rhs.display}"

end Rule

end LambdaPi
