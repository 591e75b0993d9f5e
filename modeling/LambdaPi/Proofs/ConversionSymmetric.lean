import LambdaPi.Evaluation.Reduction
import Mathlib.Data.List.Forall2

/-!
# Comparing in either order

Whether two terms are equal or convertible does not depend on which of them comes first
(`Term.equals_comm`, `Signature.convertible_comm`). Comparing them in the other order turns around the
comparisons that remain to be made, with one exception: when a function is compared with its eta
expansion, the body of the abstraction comes first on either side. So two work lists are followed
whose comparisons are the same pair by pair, each in this or in the other order
(`Comparison.Turned`). Every step leaves such lists behind and takes the same from the budget, also
if the work never ends.
-/

namespace LambdaPi

namespace Comparison

/-- The comparison of the same terms in the other order. -/
def swap (c : Comparison) : Comparison :=
  ⟨c.right, c.left, c.depth⟩

end Comparison

/-! ## Equality -/

namespace Term

open Comparison

theorem compareArgs_swap (depth : Nat) (as bs : List Term) :
    compareArgs depth bs as = (compareArgs depth as bs).map swap := by
  induction as generalizing bs with
  | nil => cases bs <;> rfl
  | cons a as ih =>
      cases bs with
      | nil => rfl
      | cons b bs => exact congrArg (⟨b, a, depth⟩ :: ·) (ih bs)

theorem compareAnns_swap (depth : Nat) (A B : Option Term) :
    compareAnns depth B A = (compareAnns depth A B).map swap := by
  unfold compareAnns
  cases informative? A <;> cases informative? B <;> rfl

/-- The outermost constructors are compared in the same way, and the parts in the other order. -/
theorem sameHead_swap (depth : Nat) (t u : Term) :
    u.sameHead depth t = (t.sameHead depth u).map (List.map swap) := by
  cases t <;> cases u <;> try rfl
  case symb.symb s r => by_cases h : s = r <;> simp [sameHead, h, eq_comm (a := r)]
  case bvar.bvar m x n y => by_cases h : m = n <;> simp [sameHead, h, eq_comm (a := n)]
  case abst.abst x A t y B u => simp [sameHead, compareAnns_swap depth A B, swap]
  case mvar.mvar m as n bs =>
    by_cases h : m = n ∧ as.length = bs.length
    · simp [sameHead, h, compareArgs_swap depth as bs]
    · simp [sameHead, h, eq_comm (a := n), eq_comm (a := bs.length)]

end Term

namespace Comparison

theorem allEqual_map_swap (cs : List Comparison) : allEqual (cs.map swap) = allEqual cs := by
  fun_induction allEqual cs with
  | case1 => exact allEqual_nil
  | case2 c rest h =>
      have hswap : c.swap.left.sameHead c.swap.depth c.swap.right = none := by
        rw [swap, Term.sameHead_swap, h]
        rfl
      rw [List.map_cons, allEqual_cons, allEqual_singleton, hswap]
      rfl
  | case3 c rest parts h ih =>
      have hswap : c.swap.left.sameHead c.swap.depth c.swap.right = some (parts.map swap) := by
        rw [swap, Term.sameHead_swap, h]
        rfl
      rw [List.map_append, List.map_reverse, allEqual_append, allEqual_reverse] at ih
      rw [List.map_cons, allEqual_cons, allEqual_singleton, hswap, ← ih]
      rfl

end Comparison

theorem Term.equals_comm (t u : Term) : t.equals u = u.equals t := by
  rw [equals_eq_allEqual, equals_eq_allEqual]
  exact Comparison.allEqual_map_swap [⟨u, t, 0⟩]

/-! ## Conversion -/

namespace Comparison

/-- The same comparison, in this or in the other order. -/
def Turned (c d : Comparison) : Prop :=
  d = c ∨ d = c.swap

namespace Turned

theorem refl (cs : List Comparison) : List.Forall₂ Turned cs cs :=
  List.forall₂_same.2 fun _ _ => Or.inl rfl

theorem swap (cs : List Comparison) : List.Forall₂ Turned cs (cs.map Comparison.swap) :=
  List.forall₂_map_right_iff.2 (List.forall₂_same.2 fun _ _ => Or.inr rfl)

theorem refl? (cs? : Option (List Comparison)) : Option.Rel (List.Forall₂ Turned) cs? cs? := by
  cases cs? with
  | none => exact .none
  | some cs => exact .some (refl cs)

theorem swap? (cs? : Option (List Comparison)) :
    Option.Rel (List.Forall₂ Turned) cs? (cs?.map (List.map Comparison.swap)) := by
  cases cs? with
  | none => exact .none
  | some cs => exact .some (swap cs)

end Turned

end Comparison

namespace Signature

open Comparison

variable {σ : Signature}

theorem injectiveParts?_swap (c : Comparison) :
    σ.injectiveParts? c.swap = (σ.injectiveParts? c).map (List.map Comparison.swap) := by
  unfold injectiveParts?
  simp only [Comparison.swap]
  obtain ⟨f, as⟩ := c.left.unapply
  obtain ⟨g, bs⟩ := c.right.unapply
  cases f <;> cases g <;> try rfl
  case symb.symb s r =>
    by_cases hs : s = r
    · subst hs
      by_cases h : as.length = bs.length ∧ σ.isInjective s = true
      · simp [h, Term.compareArgs_swap c.depth as bs]
      · simp [h, eq_comm (a := bs.length)]
    · simp [hs, eq_comm (a := r)]

/-- The body of the abstraction comes first, whichever side it is on. -/
theorem etaPart?_comm (depth : Nat) (t u : Term) : etaPart? depth u t = etaPart? depth t u := by
  cases t <;> cases u <;> rfl

theorem whnfParts?_turned (depth : Nat) (t u : Term) :
    Option.Rel (List.Forall₂ Turned) (σ.whnfParts? depth t u) (σ.whnfParts? depth u t) := by
  unfold whnfParts?
  rw [Term.sameHead_swap depth t u, etaPart?_comm depth t u]
  cases t.sameHead depth u with
  | none => exact Turned.refl? _
  | some parts =>
      simp only [Option.map_some, ← List.map_reverse]
      exact .some (Turned.swap parts.reverse)

/-- The answer to a list of comparisons, by what is done with the first of them. -/
theorem value_agree_cons (n : Nat) (c : Comparison) (rest : List Comparison) :
    (σ.agree (n + 1) (c :: rest)).value
      = if c.left.equals c.right = true then (σ.agree n rest).value
        else (σ.injectiveParts? c).elim
          ((σ.whnf n c.left).value.bind fun t => (σ.whnf n c.right).value.bind fun u =>
            (σ.whnfParts? c.depth t u).elim (some false) fun parts =>
              (σ.agree n (parts ++ rest)).value)
          fun parts => (σ.agree n (parts ++ rest)).value := by
  rw [agree, Traced.value_bind, Traced.value_emit, Option.bind_some]
  split
  · rfl
  · cases σ.injectiveParts? c with
    | some parts => rfl
    | none =>
        simp only [Traced.value_bind, Option.elim_none]
        refine Option.bind_congr fun t _ => Option.bind_congr fun u _ => ?_
        cases σ.whnfParts? c.depth t u <;> rfl

/-- Comparisons have the same answer in whichever order the terms of each of them are. -/
theorem agree_turned {cs ds : List Comparison} (h : List.Forall₂ Turned cs ds) (n : Nat) :
    (σ.agree n cs).value = (σ.agree n ds).value := by
  induction n generalizing cs ds with
  | zero => rw [agree, agree]
  | succ n ih =>
      cases h with
      | nil => rfl
      | @cons c d rest rest' hcd hrest =>
          -- what one comparison leaves to be done comes before the others on both sides
          have hparts : ∀ {parts parts' : Option (List Comparison)} (answer : Option Bool),
              Option.Rel (List.Forall₂ Turned) parts parts' →
              (parts.elim answer fun parts => (σ.agree n (parts ++ rest)).value)
                = parts'.elim answer fun parts => (σ.agree n (parts ++ rest')).value := by
            intro parts parts' answer hparts
            cases hparts with
            | none => rfl
            | some hparts => exact ih (List.rel_append hparts hrest)
          rw [value_agree_cons, value_agree_cons, ih hrest]
          rcases hcd with rfl | rfl
          · simp only [hparts _ (Turned.refl? _)]
          · rw [injectiveParts?_swap, Term.equals_comm c.left, hparts _ (Turned.swap? _),
              Option.bind_comm]
            simp only [hparts _ (whnfParts?_turned _ _ _)]
            rfl

/-- Convertibility is symmetric, in any signature and on every budget: comparing two terms has the
answer of comparing them in the other order, or has none if that has none. -/
theorem convertible_comm (σ : Signature) (budget : Nat) (a b : Term) :
    (σ.convertible budget a b).value = (σ.convertible budget b a).value :=
  agree_turned (Turned.swap [⟨a, b, 0⟩]) budget

end Signature

end LambdaPi
