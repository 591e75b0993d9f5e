import LambdaPi.Evaluation.Reduction
import LambdaPi.Typing.Error

/-!
# Type inference and type checking

`Signature.infer` finds the type of a term, `Signature.check` compares a term with an expected type.
They call each other: the argument of an application is checked against the domain of the function,
and a term is checked by inferring its type, except that an abstraction is checked against a product
by checking its body. Both follow the structure of the term; the budget is for the reduction of
types.
-/

namespace LambdaPi

open Traced

/-- A traced computation that may find a typing error. -/
abbrev Typed (α : Type) := ExceptT TypingError Traced α

/-- Go on if the answer is yes. -/
def ensure (x : Traced Bool) (e : TypingError) : Typed Unit := do
  if ← x then return () else throw e

namespace Signature

/-- Is the term `Type` after reduction? -/
def reducesToType (σ : Signature) (budget : Nat) (t : Term) : Traced Bool := do
  match ← σ.whnf budget t with
  | .type => return true
  | _ => return false

mutual

/-- The type of a term. -/
def infer (σ : Signature) (budget : Nat) (Γ : Context) (t : Term) : Typed Term := do
  emit (.infer t)
  match t with
  | .kind => throw .kindNotTypable
  | .type => return .kind
  | .symb s =>
    match σ.typeOf? s with
    | some A => return A
    | none => throw (.typeNotFound (.symb s) Γ)
  | .bvar n x =>
    match Γ.typeOf? n with
    | some A => return A
    | none => throw (.typeNotFound (.bvar n x) Γ)
  | .joker => throw (.joker Γ)
  | .appl f a =>
    let F ← infer σ budget Γ f
    match ← σ.whnf budget F with
    | .prod _ A B =>
      check σ budget Γ a A
      return B.subst a
    | _ => throw (.productExpected (.appl f a) Γ)
  | .prod x A B =>
    let S ← infer σ budget Γ A
    ensure (σ.reducesToType budget S) (.domainNotType (.prod x A B) Γ)
    let S ← infer σ budget (Γ.bind x (some A)) B
    match ← σ.whnf budget S with
    | .type => return .type
    | .kind => return .kind
    | _ => throw (.codomainNotSort (.prod x A B) Γ)
  | .abst x ann body =>
    match _h : Term.informative? ann with
    | none => throw (.domainFreeAbstraction (.abst x ann body) Γ)
    | some A =>
      let S ← infer σ budget Γ A
      ensure (σ.reducesToType budget S) (.domainNotType (.abst x ann body) Γ)
      let B ← infer σ budget (Γ.bind (some x) (some A)) body
      match B with
      | .kind => throw (.unexpectedKind (.abst x ann body) Γ)
      | B => return .prod (some x) A B
  | .mvar m args => throw (.metaVariable (.mvar m args) Γ)
termination_by 2 * t.size
decreasing_by
  all_goals
    try have := Term.size_le_of_informative? _h
    simp only [Term.size]
    omega

/-- Does a term have the given type? -/
def check (σ : Signature) (budget : Nat) (Γ : Context) (t A : Term) : Typed Unit := do
  emit (.check t A Γ)
  if t.isMetaVariable then throw (.metaVariable t Γ)
  else
    let A ← σ.whnf budget A
    match t, A with
    | .abst x ann body, .prod _ D C =>
      match _h : Term.informative? ann with
      | none => check σ budget (Γ.bind (some x) (some D)) body C
      | some B =>
        let S ← infer σ budget Γ B
        ensure (σ.reducesToType budget S) (.domainNotType (.abst x ann body) Γ)
        ensure (σ.convertible budget B D) (.incompatibleAnn (.abst x ann body) D B Γ)
        check σ budget (Γ.bind (some x) (some D)) body C
    | t, A =>
      let B ← infer σ budget Γ t
      emit (.compareTypes B A)
      ensure (σ.convertible budget B A) (.unconvertible t A B Γ)
termination_by 2 * t.size + 1
decreasing_by
  all_goals
    try have := Term.size_le_of_informative? _h
    try simp only [Term.size]
    omega

end

/-- The sort of a closed term that is a type or a kind. -/
def sort (σ : Signature) (budget : Nat) (t : Term) : Typed Term := do
  let S ← σ.infer budget [] t
  match ← σ.whnf budget S with
  | .type => return .type
  | .kind => return .kind
  | _ => throw (.sortExpected t)

end Signature

end LambdaPi
