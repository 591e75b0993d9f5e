import LambdaPi.Rules.Signature
import LambdaPi.Term.Context

/-!
# Events

What can be told about a computation while it runs. Each event has a level, which says how detailed
the report must be for the event to be part of it, and a text.
-/

namespace LambdaPi

/-- Levels of detail, from nothing to everything. -/
inductive Level where
  | off
  | error
  | warn
  | info
  | debug
  | trace
deriving DecidableEq, Repr

namespace Level

/-- Position of a level in the order. -/
def rank : Level → Nat
  | off => 0
  | error => 1
  | warn => 2
  | info => 3
  | debug => 4
  | trace => 5

/-- Name of a level in a report. -/
def display : Level → String
  | off => "OFF"
  | error => "ERROR"
  | warn => "WARN"
  | info => "INFO"
  | debug => "DEBUG"
  | trace => "TRACE"

/-- Does a report at this level contain what happens at the other one? -/
def admits (limit level : Level) : Bool :=
  level.rank ≤ limit.rank

end Level

/-- What can happen. -/
inductive Event where
  /-- weak head reduction has reached this head, with some arguments waiting -/
  | head (t : Term) (nargs : Nat)
  /-- matching looks at a column -/
  | lookAt (column : Nat) (t : Term)
  /-- a meta-variable would have to depend on a variable it is not applied to -/
  | dependence (m : MetaName) (t : Term)
  /-- a rule fires -/
  | fire (rule : Rule)
  /-- two terms are compared up to conversion -/
  | compare (t u : Term)
  /-- the tree of a symbol for some number of arguments is used; if it could not be compiled, why -/
  | consult (s : Symbol) (arity : Nat) (failure : Option TreeError)
  /-- the type of a term is asked for -/
  | infer (t : Term)
  /-- a term is checked against a type -/
  | check (t A : Term) (Γ : Context)
  /-- an inferred type is compared with the expected one -/
  | compareTypes (inferred expected : Term)
  /-- an instruction is begun -/
  | instruction (line : Nat)
  /-- a module is loaded into a space -/
  | require (moduleName space : String)
  /-- two terms turn out not to be related as the user said -/
  | unexpected (t u : Term)

/-- A line of a report, whose text is worked out only if the report contains it. -/
structure Record where
  level : Level
  text : Unit → String

/-- The lines that an event leaves in a report. -/
def Event.records : Event → List Record
  | head t nargs => [⟨.trace, fun _ => s!"whnf: {t.display} applied to {nargs} arguments"⟩]
  | lookAt column t => [⟨.trace, fun _ => s!"look at stack[{column}]: {t.display}"⟩]
  | dependence m t => [⟨.trace, fun _ => s!"{m.display} cannot depend on {t.display}"⟩]
  | fire rule => [⟨.trace, fun _ => s!"rewrite with {rule.display}"⟩]
  | compare t u => [⟨.trace, fun _ => s!"convertible: {t.display} ~? {u.display}"⟩]
  | consult _ arity failure =>
    ⟨.debug, fun _ => s!"compile decision tree for {arity} arguments"⟩ ::
      match failure with
      | none => []
      | some e => [⟨.warn, fun _ => s!"decision tree compilation failed: {e.message}"⟩]
  | infer t => [⟨.debug, fun _ => s!"infer type of {t.display}"⟩]
  | check t A Γ =>
    [⟨.debug, fun _ => s!"check {t.display} is of type {A.display} when {Γ.display}"⟩]
  | compareTypes inferred expected =>
    [⟨.debug, fun _ => s!"checking convertibility: {inferred.display} ~ {expected.display}"⟩]
  | instruction line => [⟨.info, fun _ => s!"check instruction on line {line}"⟩]
  | require moduleName space =>
    [⟨.debug, fun _ => s!"require module {moduleName} in namespace {space}"⟩]
  | unexpected t u =>
    [⟨.warn, fun _ => s!"convertibility of {t.display} and {u.display} is not as expected"⟩]

end LambdaPi
