import LambdaPi.Term.Context

/-!
# Typing errors

Why a term has no type, or not the expected one, with the term and the context it stands in.
-/

namespace LambdaPi

/-- Typing errors. -/
inductive TypingError where
  | kindNotTypable
  /-- the domain of a product or abstraction is not a type -/
  | domainNotType (t : Term) (Γ : Context)
  /-- the codomain of a product is neither a type nor a kind -/
  | codomainNotSort (t : Term) (Γ : Context)
  /-- an abstraction without annotation has no type of its own -/
  | domainFreeAbstraction (t : Term) (Γ : Context)
  /-- the body of an abstraction has type `Kind` -/
  | unexpectedKind (t : Term) (Γ : Context)
  /-- what is applied does not have a product type -/
  | productExpected (t : Term) (Γ : Context)
  /-- a variable without a type, or an undeclared symbol -/
  | typeNotFound (t : Term) (Γ : Context)
  | metaVariable (t : Term) (Γ : Context)
  | joker (Γ : Context)
  /-- the annotation of an abstraction differs from the expected domain -/
  | incompatibleAnn (t expected actual : Term) (Γ : Context)
  | unconvertible (t expected actual : Term) (Γ : Context)
  /-- the type of a declared type is neither `Type` nor `Kind` -/
  | sortExpected (t : Term)
deriving Repr

namespace TypingError

/-- What was being done. -/
def title : TypingError → String
  | incompatibleAnn _ _ _ _ => "Check"
  | unconvertible _ _ _ _ => "Check"
  | sortExpected _ => "Declaration"
  | _ => "Infer"

/-- Wording of the errors. -/
def message : TypingError → String
  | kindNotTypable => "Cannot infer the type of Kind !"
  | domainNotType t Γ => s!"Domain of forall is not a type: `{t.display}`.\n{Γ.display}"
  | codomainNotSort t Γ =>
    s!"Codomain of forall is neither a type nor a kind: `{t.display}`.\n{Γ.display}"
  | domainFreeAbstraction t Γ =>
    s!"Can't infer non-annotated lambda `{t.display}`.\n{Γ.display}"
  | unexpectedKind t Γ => s!"Abstraction body is a kind: `{t.display}`.\n{Γ.display}"
  | productExpected t Γ => s!"Non-function application on `{t.display}`.\n{Γ.display}"
  | typeNotFound t Γ => s!"Cannot infer the type of free variable {t.display}\n{Γ.display}"
  | metaVariable t Γ =>
    s!"Cannot infer the type of a meta-variable instance: {t.display}\n{Γ.display}"
  | joker Γ => s!"Cannot infer the type of a joker\n{Γ.display}"
  | incompatibleAnn t expected actual Γ =>
    s!"Incompatible annotation [{t.display}].\n- Expect = {expected.display}\n"
      ++ s!"- Actual = {actual.display}\n{Γ.display}"
  | unconvertible t expected actual Γ =>
    s!"Type mismatch on {t.display}\n- Expect = {expected.display}\n"
      ++ s!"- Actual = {actual.display}\n{Γ.display}"
  | sortExpected t => s!"Declared type is not a sort: `{t.display}`."

end TypingError

end LambdaPi
