import LambdaPi.Term.Equality

/-!
# Equality of shared terms

A term that is large when written out may be small in memory, because one part is used in many
places. Two parts that are stored in one place need not be looked at, and with `withPtrEq` they are
not: it answers `true` for them, and otherwise goes on. Since a term equals itself, this makes no
difference to the answer, and every function here comes with the proof that its answer is that of
`Comparison.allEqual`.
-/

namespace LambdaPi

namespace Term

open Comparison

/-- The answer to the question whether some comparisons succeed. -/
abbrev Answer (cs : List Comparison) := { b : Bool // b = allEqual cs }

/-- The answer for two terms, which is worked out only if they are not stored in one place. -/
@[inline]
def unlessShared (t u : Term) (depth : Nat) (answer : Unit → Answer [⟨t, u, depth⟩]) :
    Answer [⟨t, u, depth⟩] :=
  ⟨withPtrEq t u (fun _ => (answer ()).val)
    (fun h => (answer ()).property.trans (h ▸ allEqual_self depth t)), (answer ()).property⟩

mutual

/-- Compare two terms under `depth` binders, their parts from right to left. -/
def same (t : Term) (depth : Nat) (u : Term) : Answer [⟨t, u, depth⟩] :=
  unlessShared t u depth fun _ =>
    match t, u with
    | symb s, symb r => ⟨s == r, (allEqual_symb depth s r).symm⟩
    | bvar m x, bvar n y => ⟨m == n, (allEqual_bvar depth m n x y).symm⟩
    | appl f a, appl g b => ⟨(a.same depth b).val && (f.same depth g).val, by
        rw [(a.same depth b).property, (f.same depth g).property, Bool.and_comm, allEqual_appl]⟩
    | prod x A B, prod y C D => ⟨(B.same (depth + 1) D).val && (A.same depth C).val, by
        rw [(B.same (depth + 1) D).property, (A.same depth C).property, Bool.and_comm,
          allEqual_prod]⟩
    | abst x A t, abst y B u => ⟨(t.same (depth + 1) u).val && (sameAnn A depth B).val, by
        rw [(t.same (depth + 1) u).property, (sameAnn A depth B).property, Bool.and_comm,
          allEqual_abst]⟩
    | mvar m as, mvar n bs =>
      ⟨m == n && (as.length == bs.length && (sameArgs as depth bs).val), by
        rw [(sameArgs as depth bs).property, allEqual_mvar]⟩
    | t, u => ⟨allEqual [⟨t, u, depth⟩], rfl⟩

/-- `Term.same` for optional annotations. -/
def sameAnn (A : Option Term) (depth : Nat) (B : Option Term) : Answer (compareAnns depth A B) :=
  match A, B with
  | some A, some B =>
    if h : A.isJoker = false ∧ B.isJoker = false then ⟨(A.same depth B).val, by
      rw [(A.same depth B).property, compareAnns, informative?_some h.1, informative?_some h.2]⟩
    else ⟨allEqual (compareAnns depth (some A) (some B)), rfl⟩
  | A, B => ⟨allEqual (compareAnns depth A B), rfl⟩

/-- `Term.same` for lists of arguments. -/
def sameArgs (as : List Term) (depth : Nat) (bs : List Term) : Answer (compareArgs depth as bs) :=
  match as, bs with
  | a :: as, b :: bs => ⟨(sameArgs as depth bs).val && (a.same depth b).val, by
      rw [(sameArgs as depth bs).property, (a.same depth b).property, Bool.and_comm, compareArgs,
        allEqual_cons _ (compareArgs depth as bs)]⟩
  | as, bs => ⟨allEqual (compareArgs depth as bs), rfl⟩

end

/-- Equality of terms up to display names and one-sided annotations. -/
def equals (t u : Term) : Bool :=
  (t.same 0 u).val

theorem equals_eq_allEqual (t u : Term) : t.equals u = allEqual [⟨t, u, 0⟩] :=
  (t.same 0 u).property

end Term

end LambdaPi
