import LambdaPi.Session.Journal
import LambdaPi.Session.Library
import LambdaPi.Typing.Check

/-!
# State of a session

A session holds the signature that its instructions build up, the modules being loaded, and the level
of detail to return to when debugging is switched off. While it runs it keeps a journal and sends
messages. Whenever something is said, the modules being loaded are kept along with it.

Two things bound a run. Reduction gets a budget of steps, which it may use up. Loading gets a bound
on how deeply modules may require each other. Running out of either is not an answer; failing is one,
and a failed attempt leaves the state as it is at that point.
-/

namespace LambdaPi

/-- What a run depends on besides its instructions: the budget for each reduction, the modules there
are, and the reading of the clock in milliseconds since it was last read. -/
structure Host where
  budget : Nat
  library : Library
  elapsed : Nat

/-- The state that instructions act on. -/
structure Session where
  signature : Signature := {}
  /-- modules being loaded, outermost first -/
  loading : List String := []
  /-- level of detail before debugging was switched on -/
  savedLevel : Option Level := none

/-- A session, its journal, the messages so far, and all that was said so far, both latest first. -/
structure RunState where
  session : Session := {}
  journal : Journal := {}
  messages : List Message := []
  said : List Saying := []

namespace RunState

/-- Begin to load a module. -/
def beginModule (w : RunState) (moduleName : String) : RunState :=
  { w with session := { w.session with loading := w.session.loading ++ [moduleName] } }

/-- End the loading of the module that was begun last. -/
def endModule (w : RunState) : RunState :=
  { w with session := { w.session with loading := w.session.loading.dropLast } }

/-- Keep what is said, and which modules are being loaded. -/
def say (w : RunState) (u : Utterance) : RunState :=
  { w with said := ⟨u, w.session.loading⟩ :: w.said }

/-- Send a message. -/
def send (w : RunState) (m : Message) : RunState :=
  { w.say (.message m) with messages := m :: w.messages }

end RunState

/-- What a run may run out of. -/
inductive Exhausted where
  | budget
  | nesting
deriving DecidableEq, Repr

/-- Something done to a session. -/
abbrev Run := StateT RunState (Except Exhausted)

/-- Something done to a session that may fail, leaving the session as it is at that point. -/
abbrev Attempt (ε : Type) := ExceptT ε Run

/-! ## Basic steps -/

namespace Run

/-- Take note of an event. -/
def tell (e : Event) : Run Unit :=
  modify fun w => { w with journal := w.journal.observe e }

/-- Carry out a traced computation. -/
def compute {α : Type} (x : Traced α) : Run α := do
  modify fun w => { w with journal := w.journal.absorb x.trace }
  match x.value with
  | some a => return a
  | none => throw .budget

/-- The current signature. -/
def signature : Run Signature :=
  return (← get).session.signature

/-- Replace the signature. -/
def setSignature (σ : Signature) : Run Unit :=
  modify fun w => { w with session := { w.session with signature := σ } }

/-- Begin to load a module. -/
def beginModule (moduleName : String) : Run Unit :=
  modify (·.beginModule moduleName)

/-- End the loading of the module that was begun last. -/
def endModule : Run Unit :=
  modify (·.endModule)

/-- Change the level of detail and what to return to. -/
def setLevel (level : Level) (saved : Option Level) : Run Unit :=
  modify fun w =>
    { w with
      session := { w.session with savedLevel := saved }
      journal := { w.journal with level } }

/-- Send a message. -/
def send (m : Message) : Run Unit :=
  modify (·.send m)

end Run

namespace Attempt

/-- Carry out a traced computation. -/
def compute {ε α : Type} (x : Traced α) : Attempt ε α :=
  ExceptT.lift (Run.compute x)

/-- How an attempt ends. -/
def outcome {ε δ α : Type} (x : Attempt ε α) : Attempt δ (Except ε α) :=
  ExceptT.lift x.run

/-- Let an error arise. -/
def fail {α : Type} (e : LocatedError) : Attempt LocatedError α := do
  modify (·.say (.error e))
  throw e

/-- Carry out a typing computation. -/
def typing {α : Type} (x : Typed α) : Attempt Error α := do
  match ← compute x.run with
  | .ok a => return a
  | .error e => throw (.typing e)

/-- Change the signature. -/
def change (f : Signature → Except SignatureError Signature) : Attempt Error Unit := do
  match f (← Run.signature) with
  | .ok σ => Run.setSignature σ
  | .error e => throw (.signature e)

/-- Add a rule. -/
def addRule (rule : Rule) : Attempt Error Unit := do
  change (·.addRule rule)
  modify fun w => { w with journal := w.journal.ruleAdded rule }

end Attempt

end LambdaPi
