import LambdaPi.Rules.Rule
import LambdaPi.Rules.Signature
import LambdaPi.Typing.Error

/-!
# Messages and errors

What a session tells its user. A message says that an instruction was carried out; an error says why
one was not. Both carry the trail that leads to the instruction: the lines on which modules were
required, from the outside in, and the line of the instruction itself.

The trail is handed down from instruction to instruction. What it says about modules need not be what
the session itself knows about them at that moment, so this is kept along with what is said
(`Saying`).
-/

namespace LambdaPi

/-- A line, and the module that is required there, if any. -/
structure Frame where
  line : Nat
  moduleName : Option String
deriving DecidableEq, Repr

/-- The way to an instruction, from the outside in. -/
abbrev Trail := List Frame

namespace Trail

/-- The line at the end of the trail. -/
def line? (trail : Trail) : Option Nat :=
  trail.getLast?.map (·.line)

/-- The modules that the trail leads through. -/
def modules (trail : Trail) : List String :=
  trail.filterMap (·.moduleName)

/-- Let the trail lead into a module at its end. -/
def into (trail : Trail) (moduleName : String) : Trail :=
  match trail.getLast? with
  | none => trail
  | some frame => trail.dropLast ++ [{ frame with moduleName := some moduleName }]

/-- The modules, each on a line of its own, then the line number. -/
def display (trail : Trail) : String :=
  let line := match trail.line? with
    | some n => s!"line:{n}:"
    | none => ""
  String.join (trail.modules.map fun m => s!"In module [{m}]\n") ++ line

end Trail

/-! ## Messages -/

/-- How good the news is. -/
inductive Severity where
  | ok
  | info
  | warning
deriving DecidableEq, Repr

/-- A message: what was done, the details, and where. -/
structure Message where
  severity : Severity
  title : String
  body : String
  trail : Trail := []
deriving DecidableEq, Repr

/-- Text of a message. -/
def Message.display (m : Message) : String :=
  s!"{m.trail.display} [{m.title}] {m.body}"

/-! ## Errors -/

/-- Why a module cannot be loaded. -/
inductive LoadError where
  | unsupported
  | notFound (moduleName : String)
  /-- the modules being loaded, then the one that is among them -/
  | cyclic (modules : List String)
deriving DecidableEq, Repr

/-- Wording of the errors. -/
def LoadError.message : LoadError → String
  | unsupported => "Current setup does not support `#REQUIRE`."
  | notFound m => s!"Module [{m}] not found."
  | cyclic modules =>
    "Cyclic module dependency: " ++ " -> ".intercalate (modules.map fun m => s!"[{m}]")

/-- Why an instruction cannot be carried out. -/
inductive Error where
  | rule (e : RuleError)
  | tree (e : TreeError)
  | signature (e : SignatureError)
  | typing (e : TypingError)
  | load (e : LoadError)
  /-- a declaration with neither a type nor a definition -/
  | emptyDeclaration (name : String)
deriving Repr

/-- What was being done when a signature refused a change. -/
def SignatureError.title : SignatureError → String
  | reintroduction _ => "Env"
  | undefined _ => "Env"
  | unproven _ _ => "Proof"
  | tree _ => "DTree"

namespace Error

/-- What was being done. -/
def title : Error → String
  | rule _ => "Rule"
  | tree _ => "DTree"
  | signature e => e.title
  | typing e => e.title
  | load _ => "Require"
  | emptyDeclaration _ => "Declaration"

/-- Wording of the errors. -/
def message : Error → String
  | rule e => e.message
  | tree e => e.message
  | signature e => e.message
  | typing e => e.message
  | load e => e.message
  | emptyDeclaration name => s!"Type and term cannot both be empty for `{name}`."

end Error

/-- An error and the way to where it arose. -/
structure LocatedError where
  error : Error
  trail : Trail
deriving Repr

/-- Text of a located error. -/
def LocatedError.display (e : LocatedError) : String :=
  let trail := if e.trail.isEmpty then "" else e.trail.display ++ " "
  s!"{trail}[{e.error.title}] {e.error.message}"

/-! ## What is said -/

/-- Something that a session says: it sends a message, or an error arises. -/
inductive Utterance where
  | message (m : Message)
  | error (e : LocatedError)
deriving Repr

/-- What is said, and the modules being loaded at that moment, outermost first. -/
structure Saying where
  utterance : Utterance
  loading : List String
deriving Repr

end LambdaPi
