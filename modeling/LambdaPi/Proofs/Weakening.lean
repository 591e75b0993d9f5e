import Mathlib
import LambdaPi.Proofs.ConversionSound
import LambdaPi.Proofs.Renaming.Matching
import LambdaPi.Proofs.Simulation.Typing

/-!
# Weakening

A variable may be inserted anywhere in a context. What is inferred and checked in the larger context is
what it was in the smaller one, shifted to make room for the variable: types are the same up to names,
and a term that was refused is refused for the same kind of reason (`Signature.typing_weakening`).

Shifting is a renaming, and typing treats renamed terms as it treats the terms wherever the context
gives renamed types to renamed variables.
-/

namespace LambdaPi

/-! ## Contexts -/

/-- The second context gives renamed types to the renamed variables of the first. -/
def Renaming.RelContexts (ρ : Renaming) (Γ Δ : Context) : Prop :=
  ∀ n, Option.Rel ρ.Rel (Γ.typeOf? n) (Δ.typeOf? (ρ.number n))

namespace Context

theorem typeOf?_bind_zero (Γ : Context) (x : Option String) (A : Option Term) :
    (Γ.bind x A).typeOf? 0 = A.map (Term.lift 1) := by
  cases A <;> rfl

theorem typeOf?_bind_succ (Γ : Context) (x : Option String) (A : Option Term) (n : Nat) :
    (Γ.bind x A).typeOf? (n + 1) = (Γ.typeOf? n).map (Term.lift 1) := by
  simp only [typeOf?, bind, List.getElem?_cons_succ]
  cases Γ[n]? with
  | none => rfl
  | some g =>
      cases hg : g.type with
      | none => simp [hg]
      | some B => simp [hg, Term.lift_lift]

end Context

theorem Renaming.RelContexts.bind {ρ : Renaming} {Γ Δ : Context} (h : ρ.RelContexts Γ Δ)
    (x y : Option String) {A B : Option Term} (hAB : Option.Rel ρ.Rel A B) :
    (ρ.under 1).RelContexts (Γ.bind x A) (Δ.bind y B) := by
  have hlift : ∀ {A B : Option Term}, Option.Rel ρ.Rel A B →
      Option.Rel (ρ.under 1).Rel (A.map (Term.lift 1)) (B.map (Term.lift 1)) := by
    intro A B hAB
    cases hAB with
    | none => exact .none
    | some hAB => exact .some (hAB.lift 1)
  intro n
  cases n with
  | zero =>
      rw [ρ.number_under_of_lt Nat.one_pos, Context.typeOf?_bind_zero, Context.typeOf?_bind_zero]
      exact hlift hAB
  | succ n =>
      rw [ρ.number_under_add, Context.typeOf?_bind_succ, Context.typeOf?_bind_succ]
      exact hlift (h n)

/-- Contexts as renaming sees them. -/
def Simulation.renamingContexts : Simulation.renaming.Contexts where
  rel := Renaming.RelContexts
  typeOf? := by
    rintro ρ Γ Δ m _ hΓ rfl
    exact hΓ m
  bind hΓ _ hAB := hΓ.bind _ _ (.some hAB)

/-- The inner variables of a context when a variable is inserted outside of them. -/
def Context.shifted : Context → Context
  | [] => []
  | g :: Γ => ⟨g.name, g.type.map (Term.shift 1 Γ.length)⟩ :: shifted Γ

theorem Context.shifted_rel (Γ₁ Γ₂ : Context) (h : Hypothesis) :
    (Renaming.shifting 1 Γ₂.length).RelContexts (Γ₂ ++ Γ₁) (Γ₂.shifted ++ h :: Γ₁) := by
  induction Γ₂ with
  | nil =>
      intro n
      show Option.Rel _ (Γ₁.typeOf? n) ((Γ₁.bind h.name h.type).typeOf? (n + 1))
      rw [typeOf?_bind_succ]
      cases Γ₁.typeOf? n with
      | none => exact .none
      | some A => exact .some (Renaming.Rel.shift 1 0 A)
  | cons g Γ₂ ih =>
      have htype : Option.Rel (Renaming.shifting 1 Γ₂.length).Rel g.type
          (g.type.map (Term.shift 1 Γ₂.length)) := by
        cases g.type with
        | none => exact .none
        | some A => exact .some (Renaming.Rel.shift 1 Γ₂.length A)
      have hbind := ih.bind g.name g.name htype
      rw [Renaming.shifting_under] at hbind
      exact hbind

/-! ## Typing -/

/-- The same kind of error, whatever terms and contexts it is about. -/
def TypingError.SameKind (e d : TypingError) : Prop :=
  e.ctorIdx = d.ctorIdx

theorem TypingError.SameKind.of_sameReason {S : Simulation} {C : S.Contexts} {e d : TypingError}
    (h : C.SameReason e d) : e.SameKind d := by
  cases h <;> rfl

namespace Signature

/-- Renamed terms are treated as the terms are. -/
theorem treated_renamed {σ : Signature} (hσ : σ.Reachable Rule.Admissible)
    (hclosed : ∀ s A, σ.typeOf? s = some A → A.closed = true) (budget : Nat) (t : Term) :
    Treated Simulation.renamingContexts σ σ budget t := by
  have hsimulates := hσ.simulates_renaming fun _ => Rule.Admissible.regular
  refine treated (hsimulates.evaluation budget) ?_ Simulation.renamingContexts t
  rintro ρ s _ rfl
  cases hs : σ.typeOf? s with
  | none => exact .none
  | some A => exact .some (.of_closed ρ (hclosed s A hs))

/-- Inserting a variable in a context, outside of the variables of `Γ₂`, changes nothing but what it
has to: the same types are inferred, shifted to make room for the variable, the same checks pass, and
the same kinds of errors are found. -/
theorem typing_weakening {σ : Signature} (hσ : σ.Reachable Rule.Admissible)
    (hclosed : ∀ s A, σ.typeOf? s = some A → A.closed = true) (budget : Nat)
    (Γ₁ Γ₂ : Context) (h : Hypothesis) (t T : Term) :
    (σ.infer budget (Γ₂ ++ Γ₁) t).Related TypingError.SameKind
        (fun T₀ T₁ => (T₀.shift 1 Γ₂.length).nameless = T₁.nameless)
        (σ.infer budget (Γ₂.shifted ++ h :: Γ₁) (t.shift 1 Γ₂.length))
      ∧ (σ.check budget (Γ₂ ++ Γ₁) t T).Related TypingError.SameKind Eq
        (σ.check budget (Γ₂.shifted ++ h :: Γ₁) (t.shift 1 Γ₂.length)
          (T.shift 1 Γ₂.length)) := by
  have htreated := treated_renamed hσ hclosed budget t
    (w := .shifting 1 Γ₂.length) (.shift 1 Γ₂.length t) (Context.shifted_rel Γ₁ Γ₂ h)
  constructor
  · refine htreated.1.imp (fun _ _ he => .of_sameReason he) fun A B hAB => ?_
    rw [Term.shift_eq_rename]
    exact hAB
  · exact (htreated.2 (.shift 1 Γ₂.length T)).imp (fun _ _ he => .of_sameReason he)
      fun _ _ hu => hu

/-- The variables `A : Type` and `g : f A A (z => A -> z)`. -/
def diagonalContext : Context :=
  [⟨some "g", some ((Term.symb ⟨"f"⟩).apply [.bvar 0 none, .bvar 0 none,
      .abst "z" none (.prod none (.bvar 1 none) (.bvar 1 none))])⟩,
    ⟨some "A", some .type⟩]

theorem closed_of_diagonal (s : Symbol) (A : Term) (h : diagonal.typeOf? s = some A) :
    A.closed = true := by
  simp only [typeOf?, entry?, diagonal, Table.find?] at h
  split at h
  · obtain rfl := Option.some.inj h
    rfl
  · cases h

/-- The function `g` is applied to `x : A` after its type was matched with the rule, in a context with
one more variable between the two. -/
theorem typing_weakening_diagonal :
    diagonal.Reachable Rule.Admissible
      ∧ (∀ s A, diagonal.typeOf? s = some A → A.closed = true)
      ∧ (diagonal.infer 9 ([⟨some "x", some (.bvar 1 none)⟩] ++ diagonalContext)
          (.appl (.bvar 1 none) (.bvar 0 none))).run.value = some (.ok (.bvar 2 none))
      ∧ ∃ T, (diagonal.infer 9 ([⟨some "x", some (.bvar 2 none)⟩]
            ++ ⟨some "y", none⟩ :: diagonalContext)
          (.appl (.bvar 2 none) (.bvar 0 none))).run.value = some (.ok T)
        ∧ (Term.bvar 3 none).nameless = T.nameless := by
  have hinfer : (diagonal.infer 9 ([⟨some "x", some (.bvar 1 none)⟩] ++ diagonalContext)
      (.appl (.bvar 1 none) (.bvar 0 none))).run.value = some (.ok (.bvar 2 none)) := by cbv
  refine ⟨reachable_diagonal, closed_of_diagonal, hinfer, ?_⟩
  have hweak := (typing_weakening reachable_diagonal closed_of_diagonal 9 diagonalContext
    [⟨some "x", some (.bvar 1 none)⟩] ⟨some "y", none⟩ (.appl (.bvar 1 none) (.bvar 0 none))
    .type).1
  have hcontext : Context.shifted [⟨some "x", some (.bvar 1 none)⟩]
      = [⟨some "x", some (.bvar 2 none)⟩] := by cbv
  have hterm : (Term.appl (.bvar 1 none) (.bvar 0 none)).shift 1 1
      = .appl (.bvar 2 none) (.bvar 0 none) := by cbv
  rw [List.length_singleton, hcontext, hterm, Typed.Related, Traced.Related, hinfer] at hweak
  generalize (diagonal.infer 9 _ (.appl (.bvar 2 none) (.bvar 0 none))).run.value = result
    at hweak ⊢
  rcases hweak with hweak | _
  rcases hweak with _ | hweak
  exact ⟨_, rfl, hweak⟩

end Signature

end LambdaPi
