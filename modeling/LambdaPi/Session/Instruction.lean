import LambdaPi.Term.Context

/-!
# Instructions

What a user asks for: declarations, rules, questions about terms, loading of other modules.
-/

namespace LambdaPi

/-- Declaration of a symbol by its type, its definition, or both. A theorem without a definition has
to be proven later. -/
structure Declaration where
  name : String
  type : Option Term
  body : Option Term
  constant : Bool
  isTheorem : Bool
deriving Repr

/-- A parameter of a declaration. -/
structure Parameter where
  name : String
  type : Term
deriving Repr

namespace Declaration

/-- Make the type depend on parameters, each of which may refer to those before it, and the
definition a function of them. -/
def withParams (d : Declaration) (params : List Parameter) : Declaration :=
  { d with
    type := d.type.map fun A => params.foldr (fun p B => .prod (some p.name) p.type B) A
    body := d.body.map fun t => params.foldr (fun p u => .abst p.name (some p.type) u) t }

end Declaration

/-- What an instruction is about. -/
inductive Command where
  | declare (d : Declaration)
  /-- the symbol is not to be reduced by its rules -/
  | constant (name : String)
  /-- applications of the symbol may be compared argument by argument -/
  | injective (name : String)
  | rule (name : String) (lhs rhs : Term)
  | eval (Γ : Context) (t : Term)
  | infer (Γ : Context) (t : Term)
  | check (Γ : Context) (t A : Term)
  /-- the two terms should be convertible, or should not -/
  | compare (Γ : Context) (t u : Term) (convertible : Bool)
  | print (t : Term)
  /-- show the decision trees of a symbol -/
  | trees (name : String)
  | clock
  /-- load a module, under another name if one is given -/
  | require (moduleName : String) (localName : Option String)
  | debugOn
  | debugOff
deriving Repr

/-- A command and the line it stands on. -/
structure Instruction where
  line : Nat
  command : Command
deriving Repr

end LambdaPi
