import LambdaPi.Rules.Matrix
import LambdaPi.Table

/-!
# Signatures

A signature records what is known about symbols: the type of each declared symbol and whether it is
a theorem that still has to be proven, the rules of each symbol with their decision trees,
and whether conversion is to be checked modulo eta.

A symbol with rules has a decision tree for each number of arguments from none up to the longest
rule; the tree for `n` arguments knows the rules with at most `n` arguments. A tree is compiled when
it is first asked for, and adding a rule asks for the one with its own number of arguments.
-/

namespace LambdaPi

/-! ## Entries and rules -/

/-- What is known about a declared symbol: its type, whether it has to be proven, and whether it
was. -/
structure Entry where
  type : Term
  obligation : Bool
  proven : Bool
deriving Repr

/-- A theorem without a proof. -/
def Entry.unproven (e : Entry) : Bool :=
  e.obligation && !e.proven

/-- The tree for some number of arguments, or none if all rules have more; or why there is none. -/
abbrev TreeCell := Except TreeError (Option DecisionTree)

/-- Compile the rules that have at most `arity` arguments. -/
def treeUpTo (rules : List Rule) (arity : Nat) : TreeCell :=
  match rules.filter (·.arity ≤ arity) with
  | [] => .ok none
  | rule :: rest => (DecisionTree.compile (rule :: rest) arity).map some

/-- Number of arguments of the longest rule. -/
def longestArity (rules : List Rule) : Nat :=
  rules.foldl (fun n rule => max n rule.arity) 0

/-- The trees for the numbers of arguments from none up to the longest rule. -/
def treesOf (rules : List Rule) : List (Thunk TreeCell) :=
  (List.range (longestArity rules + 1)).map fun arity => .mk fun _ => treeUpTo rules arity

/-- The rules of a symbol, in the order in which they were added, with their decision trees for each
number of arguments. A constant symbol is never reduced; applications of an injective one may be
compared argument by argument. -/
structure RuleSet where
  rules : List Rule := []
  constant : Bool := false
  injective : Bool := false
  trees : List (Thunk TreeCell) := []

namespace RuleSet

/-- The tree to be used for `nargs` arguments, and how many of them it looks at. -/
def treeFor? (r : RuleSet) (nargs : Nat) : Option (Nat × TreeCell) :=
  let arity := min nargs (r.trees.length - 1)
  r.trees[arity]?.map fun cell => (arity, cell.get)

/-- Add a rule, provided that the tree for its number of arguments can be compiled. -/
def addRule (r : RuleSet) (rule : Rule) : Except TreeError RuleSet :=
  let rules := r.rules ++ [rule]
  let extended := { r with rules, trees := treesOf rules }
  match extended.treeFor? rule.arity with
  | some (_, .error e) => .error e
  | _ => .ok extended

end RuleSet

/-! ## Signatures -/

/-- What is known about symbols. -/
structure Signature where
  entries : Table Entry := []
  ruleSets : Table RuleSet := []
  eta : Bool := false

/-- Why a signature cannot be changed, or is not complete. -/
inductive SignatureError where
  | reintroduction (s : Symbol)
  | undefined (s : Symbol)
  /-- a theorem without a proof -/
  | unproven (s : Symbol) (A : Term)
  | tree (e : TreeError)
deriving Repr

/-- Wording of the errors. -/
def SignatureError.message : SignatureError → String
  | reintroduction s => s!"Already defined reference: [{s.text}]."
  | undefined s => s!"Undefined reference: [{s.text}]."
  | unproven s A => s!"No proof [{s.text}] was provided for theorem: {A.display}"
  | tree e => e.message

namespace Signature

/-- What is known about a declared symbol. -/
def entry? (σ : Signature) (s : Symbol) : Option Entry :=
  σ.entries.find? s

/-- Type of a declared symbol. -/
def typeOf? (σ : Signature) (s : Symbol) : Option Term :=
  (σ.entry? s).map (·.type)

/-- Is the symbol declared? -/
def declares (σ : Signature) (s : Symbol) : Bool :=
  (σ.entry? s).isSome

/-- Rules and flags of a symbol, if it ever had any. -/
def ruleSet? (σ : Signature) (s : Symbol) : Option RuleSet :=
  σ.ruleSets.find? s

/-- Is the symbol never to be reduced by its rules? -/
def isConstant (σ : Signature) (s : Symbol) : Bool :=
  ((σ.ruleSet? s).getD {}).constant

/-- May applications of the symbol be compared argument by argument? -/
def isInjective (σ : Signature) (s : Symbol) : Bool :=
  ((σ.ruleSet? s).getD {}).injective

/-- Declare a symbol. -/
def declare (σ : Signature) (s : Symbol) (A : Term) (obligation : Bool) :
    Except SignatureError Signature :=
  if σ.declares s then .error (.reintroduction s)
  else .ok { σ with entries := σ.entries.enter s { type := A, obligation, proven := false } }

/-- Mark a symbol as proven. -/
def setProven (σ : Signature) (s : Symbol) : Except SignatureError Signature :=
  match σ.entry? s with
  | none => .error (.undefined s)
  | some e => .ok { σ with entries := σ.entries.enter s { e with proven := true } }

/-- The theorems directly inside a space that lack a proof. -/
def unprovenIn (σ : Signature) (space : String) : List Symbol :=
  (σ.entries.filter fun (s, e) => e.unproven && s.space == space).map (·.1)

/-- Is every theorem directly inside the space proven? If not, the one with the smallest name is
reported. -/
def allProven (σ : Signature) (space : String) : Except SignatureError Unit :=
  match Symbol.smallest? (σ.unprovenIn space) with
  | none => .ok ()
  | some s =>
    match σ.typeOf? s with
    | none => .ok ()
    | some A => .error (.unproven s A)

/-- From now on the symbol is not reduced by its rules. It need not be declared. -/
def declareConstant (σ : Signature) (s : Symbol) : Signature :=
  let r := (σ.ruleSet? s).getD {}
  { σ with ruleSets := σ.ruleSets.enter s { r with constant := true } }

/-- From now on applications of the symbol are compared argument by argument. It need not be
declared. -/
def declareInjective (σ : Signature) (s : Symbol) : Signature :=
  let r := (σ.ruleSet? s).getD {}
  { σ with ruleSets := σ.ruleSets.enter s { r with injective := true } }

/-- Add a rule to a declared symbol. -/
def addRule (σ : Signature) (rule : Rule) : Except SignatureError Signature :=
  if σ.declares rule.head then
    match ((σ.ruleSet? rule.head).getD {}).addRule rule with
    | .error e => .error (.tree e)
    | .ok r => .ok { σ with ruleSets := σ.ruleSets.enter rule.head r }
  else .error (.undefined rule.head)

/-- The tree for a symbol applied to `nargs` arguments, and how many of them it looks at.
Constants and symbols without rules have none. -/
def treeFor? (σ : Signature) (s : Symbol) (nargs : Nat) : Option (Nat × TreeCell) :=
  match σ.ruleSet? s with
  | none => none
  | some r => if r.constant then none else r.treeFor? nargs

/-- All trees of a symbol, from no arguments on. -/
def trees (σ : Signature) (s : Symbol) : List (Thunk TreeCell) :=
  ((σ.ruleSet? s).getD {}).trees

end Signature

end LambdaPi
