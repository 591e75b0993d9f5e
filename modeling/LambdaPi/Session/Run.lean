import LambdaPi.Session.Command
import LambdaPi.Session.Scope

/-!
# Running instructions

Instructions are scoped into the space they stand in and carried out in order; at the end of a space
all its theorems must be proven. An instruction may ask for a module, whose instructions are then
checked in a space inside the current one. A module that is being loaded cannot be asked for again,
so modules are nested no deeper than there are modules.
-/

namespace LambdaPi

namespace Session

open Attempt

/-- Where instructions stand: the space that their names are relative to, and the way there. -/
structure Place where
  space : String := ""
  trail : Trail := []

/-- How to check the instructions of a module. -/
abbrev Enter := Place → List Instruction → Attempt LocatedError Unit

/-- Space that a module is loaded into: the current one if the module gets no name of its own. -/
def innerSpace (space : String) : Option String → String
  | none => space
  | some localName => if space = "" then localName else space ++ "." ++ localName

/-- Load a module and check its instructions. -/
def require (host : Host) (enter : Enter) (place : Place) (moduleName : String)
    (localName : Option String) : Attempt LocatedError Unit := do
  let loading := (← get).session.loading
  if moduleName ∈ loading then
    fail ⟨.load (.cyclic (loading ++ [moduleName])), place.trail⟩
  else
    match host.library.load moduleName with
    | .error e => fail ⟨.load e, place.trail⟩
    | .ok instrs =>
      let space := innerSpace place.space localName
      Run.tell (.require moduleName space)
      Run.beginModule moduleName
      let result ← outcome (enter ⟨space, place.trail.into moduleName⟩ instrs)
      Run.endModule
      match result with
      | .error e => throw e
      | .ok () =>
        Run.send ⟨.ok, "Require", s!"Module [{moduleName}] successfully loaded.", place.trail⟩

/-- Check one instruction at a place. -/
def instruct (host : Host) (enter : Enter) (place : Place) (i : Instruction) :
    Attempt LocatedError Unit := do
  Run.tell (.instruction i.line)
  let place := { place with trail := place.trail ++ [⟨i.line, none⟩] }
  let scope : Scope := ⟨← Run.signature, place.space⟩
  match ((scope.command i.command).run 0).1 with
  | .require moduleName localName => require host enter place moduleName localName
  | c =>
    match ← outcome (command host c) with
    | .error e => fail ⟨e, place.trail⟩
    | .ok none => pure ()
    | .ok (some m) => Run.send { m with trail := place.trail }

/-- Check instructions in order, going into each other at most `nesting` deep, then make sure that
all theorems of the space are proven. -/
def instructAll (host : Host) : Nat → Enter
  | 0, _, _ => throwThe Exhausted .nesting
  | nesting + 1, place, instrs => do
    instrs.forM (instruct host (instructAll host nesting) place)
    match (← Run.signature).allProven place.space with
    | .ok () => pure ()
    | .error e => fail ⟨.signature e, place.trail⟩

end Session

/-! ## Running -/

namespace RunState

open Session

/-- How deeply modules can require each other from here on. -/
def nesting (host : Host) (w : RunState) : Nat :=
  host.library.unloaded w.session.loading

/-- Check one instruction. -/
def checkInstruction (host : Host) (place : Place) (i : Instruction) (w : RunState) :
    Except Exhausted (Except LocatedError Unit × RunState) :=
  (instruct host (instructAll host (w.nesting host)) place i).run.run w

/-- Check instructions at a place, and that all theorems there are proven. -/
def checkInstructions (host : Host) (place : Place) (instrs : List Instruction) (w : RunState) :
    Except Exhausted (Except LocatedError Unit × RunState) :=
  (instructAll host (w.nesting host + 1) place instrs).run.run w

/-- Check instructions at the outermost place. -/
def run (host : Host) (instrs : List Instruction) (w : RunState) :
    Except Exhausted (Except LocatedError Unit × RunState) :=
  w.checkInstructions host {} instrs

end RunState

end LambdaPi
