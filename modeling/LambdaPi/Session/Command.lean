import LambdaPi.Rules.Forest
import LambdaPi.Session.State

/-!
# Commands

Carrying out the commands that act on a session by themselves, and what is said when they succeed.
Declarations and rules are checked before anything is changed.
-/

namespace LambdaPi

namespace Session

open Attempt

/-- The type that a declaration gives its symbol: the stated one, which must be a type or a kind and
must be the type of the definition, or the type of the definition. -/
def declaredType (host : Host) (d : Declaration) : Attempt Error Term := do
  let σ ← Run.signature
  match d.type, d.body with
  | some A, none =>
    let _ ← typing (σ.sort host.budget A)
    return A
  | some A, some t =>
    let _ ← typing (σ.sort host.budget A)
    typing (σ.check host.budget [] t A)
    return A
  | none, some t =>
    let A ← typing (σ.infer host.budget [] t)
    let _ ← typing (σ.sort host.budget A)
    return A
  | none, none => throw (.emptyDeclaration d.name)

/-- Declare a symbol. A constant is not given a rule even if it has a definition. -/
def declare (host : Host) (d : Declaration) : Attempt Error Message := do
  let A ← declaredType host d
  let s : Symbol := ⟨d.name⟩
  change (·.declare s A (d.isTheorem && d.body.isNone))
  if d.constant then
    change fun σ => .ok (σ.declareConstant s)
    return ⟨.ok, "Constant symbol declared", s!"`{d.name}` with type {A.display}", []⟩
  match d.body with
  | some t =>
    Attempt.addRule (.ofDefinition (d.name ++ "_def") s t)
    if d.isTheorem then
      return ⟨.ok, "Theorem proven", s!"`{d.name}` proves {A.display}", []⟩
    else return ⟨.ok, "Symbol defined", s!"`{d.name}` as {t.display}", []⟩
  | none =>
    if d.isTheorem then
      return ⟨.ok, "Proof required", s!"`{d.name}` for theorem {A.display}", []⟩
    else return ⟨.ok, "Symbol declared", s!"`{d.name}` with type {A.display}", []⟩

/-- The theorem that a rule is to prove, with what it states: its head symbol, if that still lacks a
proof and the rule reduces it without arguments. -/
def theoremOf? (σ : Signature) (rule : Rule) : Option Term :=
  match σ.entry? rule.head with
  | some e => if rule.args.isEmpty && e.unproven then some e.type else none
  | none => none

/-- Add a rule. A rule that proves a theorem must have the right type. -/
def introduceRule (host : Host) (name : String) (lhs rhs : Term) : Attempt Error Message := do
  let rule ← match Rule.ofSides name lhs rhs with
    | .ok rule => pure rule
    | .error e => throw (.rule e)
  let σ ← Run.signature
  match theoremOf? σ rule with
  | some A =>
    typing (σ.check host.budget [] rule.rhs A)
    Attempt.addRule rule
    change (·.setProven rule.head)
    return ⟨.ok, "Theorem proven", s!"`{rule.head.text}`", []⟩
  | none =>
    Attempt.addRule rule
    let body := s!"{rule.lhs.display} --> {rule.rhs.display}"
    return ⟨.ok, "Rewrite rule added", body, []⟩

/-- Compare two terms and say whether they are related as expected. -/
def compare (host : Host) (t u : Term) (expected : Bool) : Run Message := do
  let σ ← Run.signature
  let actual ← Run.compute (σ.convertible host.budget t u)
  let negation := if actual then "" else "not "
  if actual = expected then
    let body := s!"{t.display} is indeed {negation}convertible with {u.display}"
    return ⟨.ok, "CheckConv", body, []⟩
  else
    Run.tell (.unexpected t u)
    let body := s!"{t.display} is in fact {negation}convertible with {u.display}"
    return ⟨.warning, "CheckConv", body, []⟩

/-- Carry out a command other than the loading of a module. Switching debugging on and off is not
reported. -/
def command (host : Host) (c : Command) : Attempt Error (Option Message) := do
  let σ ← Run.signature
  match c with
  | .declare d => return some (← declare host d)
  | .constant name =>
    change fun σ => .ok (σ.declareConstant ⟨name⟩)
    return some ⟨.ok, "Symbol declared constant", s!"`{name}`", []⟩
  | .injective name =>
    change fun σ => .ok (σ.declareInjective ⟨name⟩)
    return some ⟨.ok, "Symbol declared injective", s!"`{name}` (no check)", []⟩
  | .rule name lhs rhs => return some (← introduceRule host name lhs rhs)
  | .eval Γ t =>
    let u ← compute (σ.nf host.budget t)
    return some ⟨.info, "Eval", s!"{u.display}\n{Γ.display}", []⟩
  | .infer Γ t =>
    let A ← typing (σ.infer host.budget Γ t)
    return some ⟨.info, "Infer", s!"{A.display}\n{Γ.display}", []⟩
  | .check Γ t A =>
    typing (σ.check host.budget Γ t A)
    let body := s!"{t.display} has indeed type {A.display}\n{Γ.display}"
    return some ⟨.ok, "CheckType", body, []⟩
  | .compare _ t u expected => return some (← compare host t u expected)
  | .print t => return some ⟨.info, "Show", t.display, []⟩
  | .trees name =>
    let forest := displayForest ((← get).journal.forest σ ⟨name⟩)
    return some ⟨.info, "DTree", s!"Decision tree for symbol `{name}`:\n{forest}", []⟩
  | .clock => return some ⟨.info, "Time", s!"{host.elapsed}ms since last clock", []⟩
  | .require _ _ => throw (.load .unsupported)
  | .debugOn =>
    let w ← get
    Run.setLevel .trace (some (w.session.savedLevel.getD w.journal.level))
    return none
  | .debugOff =>
    match (← get).session.savedLevel with
    | some level =>
      Run.setLevel level none
      return none
    | none => return none

end Session

end LambdaPi
