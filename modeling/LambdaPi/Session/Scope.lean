import LambdaPi.Rules.Signature
import LambdaPi.Session.Instruction

/-!
# Scoping

A module is checked inside a space. Symbols it introduces get the space put in front of their names,
and a reference means the symbol of that name in the space if there is one, otherwise the symbol as
it is written. In the left-hand sides of rules each joker becomes a meta-variable of its own, applied
to all variables bound around it. An annotation that is only a joker is left out.
-/

namespace LambdaPi

/-- The symbols declared so far, and the space that names are relative to. -/
structure Scope where
  signature : Signature
  space : String

namespace Scope

/-- Name of a symbol introduced in the space. -/
def qualify (sc : Scope) (name : String) : String :=
  (Symbol.qualify sc.space name).text

/-- The symbol that a reference means. -/
def resolve (sc : Scope) (s : Symbol) : Symbol :=
  if sc.space = "" then s
  else
    let inside := Symbol.qualify sc.space s.text
    if sc.signature.declares inside then inside else s

mutual

/-- Resolve the references of a term. -/
def term (sc : Scope) : Term → Term
  | .symb s => .symb (sc.resolve s)
  | .appl f a => .appl (sc.term f) (sc.term a)
  | .prod x A B => .prod x (sc.term A) (sc.term B)
  | .abst x ann t => .abst x (sc.ann ann) (sc.term t)
  | .mvar m args => .mvar m (sc.terms args)
  | t => t

/-- Resolve the references of an optional annotation. -/
def ann (sc : Scope) : Option Term → Option Term
  | none => none
  | some .joker => none
  | some A => some (sc.term A)

/-- Resolve the references of a list of arguments. -/
def terms (sc : Scope) : List Term → List Term
  | [] => []
  | t :: ts => sc.term t :: sc.terms ts

end

/-- The meta-variable with the next number, applied to the `depth` variables bound around it. -/
def nextMeta (depth : Nat) : StateM Nat Term := do
  let number ← get
  set (number + 1)
  return .mvar (some (.fresh number)) ((List.range depth).map fun i => .bvar i none)

mutual

/-- Resolve the references of a pattern under `depth` binders, and number its jokers from left to
right. -/
def pattern (sc : Scope) (depth : Nat) : Term → StateM Nat Term
  | .symb s => return .symb (sc.resolve s)
  | .joker => nextMeta depth
  | .appl f a => do
    let f ← sc.pattern depth f
    let a ← sc.pattern depth a
    return .appl f a
  | .prod x A B => do
    let A ← sc.pattern depth A
    let B ← sc.pattern (depth + 1) B
    return .prod x A B
  | .abst x ann t => do
    let ann ← sc.patternAnn depth ann
    let t ← sc.pattern (depth + 1) t
    return .abst x ann t
  | .mvar m args => do
    let args ← sc.patterns depth args
    return .mvar m args
  | t => return t

/-- `Scope.pattern` for an optional annotation. -/
def patternAnn (sc : Scope) (depth : Nat) : Option Term → StateM Nat (Option Term)
  | none => return none
  | some .joker => return none
  | some A => do
    let A ← sc.pattern depth A
    return some A

/-- `Scope.pattern` for a list of arguments. -/
def patterns (sc : Scope) (depth : Nat) : List Term → StateM Nat (List Term)
  | [] => return []
  | t :: ts => do
    let t ← sc.pattern depth t
    let ts ← sc.patterns depth ts
    return t :: ts

end

/-- Resolve the references of a context. -/
def context (sc : Scope) (Γ : Context) : Context :=
  Γ.map fun h => { h with type := h.type.map sc.term }

/-- Resolve the references of a command and qualify the names it introduces. The number of the next
meta-variable is kept along the way. -/
def command (sc : Scope) : Command → StateM Nat Command
  | .declare d =>
    return .declare
      { d with name := sc.qualify d.name, type := d.type.map sc.term, body := d.body.map sc.term }
  | .constant name => return .constant (sc.qualify name)
  | .injective name => return .injective (sc.qualify name)
  | .trees name => return .trees (sc.qualify name)
  | .rule name lhs rhs => do
    let lhs ← sc.pattern 0 lhs
    return .rule (sc.qualify name) lhs (sc.term rhs)
  | .eval Γ t => return .eval (sc.context Γ) (sc.term t)
  | .infer Γ t => return .infer (sc.context Γ) (sc.term t)
  | .check Γ t A => return .check (sc.context Γ) (sc.term t) (sc.term A)
  | .compare Γ t u convertible =>
    return .compare (sc.context Γ) (sc.term t) (sc.term u) convertible
  | .print t => return .print (sc.term t)
  | .clock => return .clock
  | .require moduleName localName => return .require moduleName localName
  | .debugOn => return .debugOn
  | .debugOff => return .debugOff

end Scope

end LambdaPi
