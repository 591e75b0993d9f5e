import LambdaPi.Evaluation.Matching
import LambdaPi.Term.Shared

/-!
# Reduction and conversion

Weak head normal forms, normal forms and convertibility modulo beta, the rules of a signature and,
if the signature says so, eta. The three depend on each other through matching. Each takes a budget,
which every call uses up by one, so that all of them end; a budget that suffices for an answer is not
part of the answer.
-/

namespace LambdaPi

open Traced

namespace Signature

/-- The decision tree for a symbol applied to `nargs` arguments. -/
def consult (σ : Signature) (s : Symbol) (nargs : Nat) : Traced (Option DecisionTree) :=
  match σ.treeFor? s nargs with
  | none => pure none
  | some (arity, .ok tree) => do
    emit (.consult s arity none)
    return tree
  | some (arity, .error e) => do
    emit (.consult s arity (some e))
    return none

/-- Fire the first rule that matches a symbol applied to arguments. The result is the
instance of its right-hand side and the number of arguments it consumes. -/
def fireWith (σ : Signature) (red : Reducer) (s : Symbol) (args : List Term) :
    Traced (Option (Term × Nat)) := do
  match ← σ.consult s args.length with
  | none => return none
  | some tree =>
    match ← tree.find red (args.take tree.arity).reverse with
    | none => return none
    | some (rule, bindings) =>
      emit (.fire rule)
      return some (rule.instantiate bindings, rule.arity)

/-- Two applications of one injective symbol to equally many arguments are compared argument by
argument. -/
def injectiveParts? (σ : Signature) (c : Comparison) : Option (List Comparison) :=
  match c.left.unapply, c.right.unapply with
  | (.symb s, as), (.symb t, bs) =>
    if s = t ∧ as.length = bs.length ∧ σ.isInjective s = true then
      some (Term.compareArgs c.depth as bs)
    else none
  | _, _ => none

/-- If exactly one of two terms is an abstraction, its body is compared with the other term applied
to the bound variable. -/
def etaPart? (depth : Nat) (t u : Term) : Option Comparison :=
  let expand (body other : Term) : Comparison :=
    ⟨body, .appl (other.lift 1) (.bvar 0 none), depth + 1⟩
  match t, u with
  | .abst _ _ _, .abst _ _ _ => none
  | .abst _ _ body, u => some (expand body u)
  | t, .abst _ _ body => some (expand body t)
  | _, _ => none

/-- What is left to compare of two terms in weak head normal form. -/
def whnfParts? (σ : Signature) (depth : Nat) (t u : Term) : Option (List Comparison) :=
  match t.sameHead depth u with
  | some parts => some parts.reverse
  | none => if σ.eta then (etaPart? depth t u).map fun c => [c] else none

/-- Normalize the parts of a head with the given function, from left to right. -/
def mapParts (f : Term → Traced Term) : Term → Traced Term
  | .prod x A B => do
    let A ← f A
    let B ← f B
    return .prod x A B
  | .abst x none t => do
    let t ← f t
    return .abst x none t
  | .abst x (some A) t => do
    let A ← f A
    let t ← f t
    return .abst x (some A) t
  | .mvar m args => do
    let args ← args.mapM f
    return .mvar m args
  | head => return head

/-- One step at the head of a spine: an application is taken apart, an abstraction takes an argument,
or a symbol fires a rule. In weak head normal form there is none. -/
@[inline]
def headStep? (σ : Signature) (red : Reducer) (head : Term) (args : List Term) :
    Traced (Option (Term × List Term)) := do
  emit (.head head args.length)
  match head, args with
  | .appl f a, args => return some ((Term.appl f a).unapplyOnto args)
  | .abst _ _ body, a :: rest => return some (body.subst a, rest)
  | .symb s, args =>
    match ← σ.fireWith red s args with
    | none => return none
    | some (t, consumed) => return some (t, args.drop consumed)
  | _, _ => return none

/-- Reduce a term with a function that reduces a head with arguments waiting for it. A term that is
in weak head normal form is returned as it stands. -/
def whnfBy (spine? : Term → List Term → Traced (Option Term)) (t : Term) : Traced Term := do
  return (← spine? t.unapply.1 t.unapply.2).getD t

mutual

/-- Reduce a head applied to arguments until it is in weak head normal form. There is no result if it
is so from the start. -/
def spine? (σ : Signature) : Nat → Term → List Term → Traced (Option Term)
  | 0, _, _ => exhausted
  | n + 1, head, args => do
    let red : Reducer := ⟨whnfBy (spine? σ n), nf σ n, fun t u => agree σ n [⟨t, u, 0⟩]⟩
    match ← σ.headStep? red head args with
    | none => return none
    | some (head, args) =>
      let t? ← spine? σ n head args
      return some (t?.getD (head.apply args))

/-- Normal form. -/
def nf (σ : Signature) : Nat → Term → Traced Term
  | 0, _ => exhausted
  | n + 1, t => do
    let t ← whnfBy (spine? σ n) t
    let head ← mapParts (nf σ n) t.unapply.1
    let args ← t.unapply.2.mapM (nf σ n)
    return head.apply args

/-- Do all the comparisons succeed up to conversion? The latest one is looked at first, and its parts
before the others. -/
def agree (σ : Signature) : Nat → List Comparison → Traced Bool
  | 0, _ => exhausted
  | _ + 1, [] => pure true
  | n + 1, c :: rest => do
    emit (.compare c.left c.right)
    if c.left.equals c.right then agree σ n rest
    else
      match σ.injectiveParts? c with
      | some parts => agree σ n (parts ++ rest)
      | none =>
        let t ← whnfBy (spine? σ n) c.left
        let u ← whnfBy (spine? σ n) c.right
        match σ.whnfParts? c.depth t u with
        | some parts => agree σ n (parts ++ rest)
        | none => return false

end

/-- Weak head normal form. -/
def whnf (σ : Signature) (budget : Nat) (t : Term) : Traced Term :=
  whnfBy (spine? σ budget) t

/-- Are two terms convertible? -/
def convertible (σ : Signature) (budget : Nat) (t u : Term) : Traced Bool :=
  agree σ budget [⟨t, u, 0⟩]

/-- The ways of reducing and comparing terms in a signature. -/
def reducer (σ : Signature) (budget : Nat) : Reducer :=
  ⟨σ.whnf budget, σ.nf budget, σ.convertible budget⟩

/-- Fire the first rule that matches a symbol applied to arguments. -/
def fire (σ : Signature) (budget : Nat) (s : Symbol) (args : List Term) :
    Traced (Option (Term × Nat)) :=
  σ.fireWith (σ.reducer budget) s args

end Signature

end LambdaPi
