import LambdaPi.Session.Instruction
import LambdaPi.Session.Message

/-!
# Libraries

Where the modules that instructions ask for come from.
-/

namespace LambdaPi

/-- Where modules come from: nowhere, or a finite collection. -/
inductive Library where
  | unsupported
  | modules (named : List (String × List Instruction))

namespace Library

/-- The instructions of a module. -/
def load (lib : Library) (moduleName : String) : Except LoadError (List Instruction) :=
  match lib with
  | unsupported => .error .unsupported
  | modules named =>
    match named.lookup moduleName with
    | some instrs => .ok instrs
    | none => .error (.notFound moduleName)

/-- How many modules are not being loaded. -/
def unloaded (lib : Library) (loading : List String) : Nat :=
  match lib with
  | unsupported => 0
  | modules named => (named.filter fun (m, _) => m ∉ loading).length

end Library

end LambdaPi
