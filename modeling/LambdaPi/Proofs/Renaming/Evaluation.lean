import Mathlib
import LambdaPi.Proofs.ConversionSound
import LambdaPi.Proofs.Renaming.Matching

/-!
# Evaluating shifted terms

Reduction, normalization and conversion do not look at the numbers of free variables: a shifted term
has a weak head normal form or a normal form exactly if the term has one, and it is that of the term,
shifted; shifted terms are convertible exactly if the terms are. This is what the simulation of a
signature by itself says of the renaming that shifting is (`Signature.evaluation_shift`).
-/

namespace LambdaPi

namespace Signature

/-- On every budget, evaluating a shifted term is shifting what the term evaluates to, up to names:
both have a result or neither has. Shifted terms are compared with the same answer as the terms, or
without one. -/
theorem evaluation_shift {σ : Signature} (hσ : σ.Reachable Rule.Admissible)
    (budget inc depth : Nat) :
    (∀ t : Term, (σ.whnf budget (t.shift inc depth)).value.map Term.nameless
        = (σ.whnf budget t).value.map fun u => (u.shift inc depth).nameless)
      ∧ (∀ t : Term, (σ.nf budget (t.shift inc depth)).value.map Term.nameless
        = (σ.nf budget t).value.map fun u => (u.shift inc depth).nameless)
      ∧ ∀ a b : Term, (σ.convertible budget (a.shift inc depth) (b.shift inc depth)).value
        = (σ.convertible budget a b).value := by
  have hself := hσ.simulates_renaming fun _ => Rule.Admissible.regular
  have halike := hself.evaluation budget
  have hshift := Renaming.Rel.shift inc depth
  simp only [Term.shift_eq_rename inc depth] at hshift ⊢
  refine ⟨fun t => ?_, fun t => ?_, fun a b => ?_⟩
  · exact (option_map_eq_map_iff.2 (halike.whnf (hshift t))).symm
  · exact (option_map_eq_map_iff.2 (halike.nf (hshift t))).symm
  · exact (eq_of_rel (fun _ _ h => h) (halike.convertible (hshift a) (hshift b))).symm

/-- The rule with a meta-variable that occurs twice and one under a binder, and eta. -/
def diagonalEta : Signature :=
  { diagonal with eta := true }

/-- The term `f ((x => x) y) y (z => v z)`, where `v` and `y` are the variables 0 and 1. -/
def openDiagonal : Term :=
  (Term.symb ⟨"f"⟩).apply [.appl (.abst "x" none (.bvar 0 none)) (.bvar 1 none), .bvar 1 none,
    .abst "z" none (.appl (.bvar 1 none) (.bvar 0 none))]

/-- Shifting makes room for three variables between `v` and `y`. The rule fires as before, and the
function `z => y z` still equals `y`. -/
theorem evaluation_shift_diagonal :
    diagonalEta.Reachable Rule.Admissible
      ∧ (diagonalEta.whnf 9 openDiagonal).value = some (.appl (.bvar 0 none) (.bvar 1 none))
      ∧ (diagonalEta.whnf 9 (openDiagonal.shift 3 1)).value.map Term.nameless
        = some (.appl (.bvar 0 none) (.bvar 4 none))
      ∧ (diagonalEta.nf 9 openDiagonal).value = some (.appl (.bvar 0 none) (.bvar 1 none))
      ∧ (diagonalEta.nf 9 (openDiagonal.shift 3 1)).value.map Term.nameless
        = some (.appl (.bvar 0 none) (.bvar 4 none))
      ∧ (diagonalEta.convertible 9 (.abst "z" none (.appl (.bvar 2 none) (.bvar 0 none)))
          (.bvar 1 none)).value = some true
      ∧ (diagonalEta.convertible 9
          ((Term.abst "z" none (.appl (.bvar 2 none) (.bvar 0 none))).shift 3 1)
          ((Term.bvar 1 none).shift 3 1)).value = some true := by
  have hreach : diagonalEta.Reachable Rule.Admissible := .eta true reachable_diagonal
  have hwhnf : (diagonalEta.whnf 9 openDiagonal).value
      = some (.appl (.bvar 0 none) (.bvar 1 none)) := by cbv
  have hnf : (diagonalEta.nf 9 openDiagonal).value
      = some (.appl (.bvar 0 none) (.bvar 1 none)) := by cbv
  have hconv : (diagonalEta.convertible 9 (.abst "z" none (.appl (.bvar 2 none) (.bvar 0 none)))
      (.bvar 1 none)).value = some true := by cbv
  have hvalue : ((Term.appl (.bvar 0 none) (.bvar 1 none)).shift 3 1).nameless
      = .appl (.bvar 0 none) (.bvar 4 none) := rfl
  obtain ⟨hwhnf', hnf', hconv'⟩ := evaluation_shift hreach 9 3 1
  refine ⟨hreach, hwhnf, ?_, hnf, ?_, hconv, (hconv' _ _).trans hconv⟩
  · rw [hwhnf', hwhnf, Option.map_some, hvalue]
  · rw [hnf', hnf, Option.map_some, hvalue]

end Signature

end LambdaPi
