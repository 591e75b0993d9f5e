import LambdaPi.Proofs.Likeness.Evaluation
import LambdaPi.Proofs.Simulation.Typing

/-!
# Typing in signatures that are alike

In signatures that are alike, like terms in like contexts have like types, or are refused for the
same reason (`Signature.Like.infer`, `Signature.Like.check`).
-/

namespace LambdaPi

/-! ## Contexts and errors -/

/-- Variables with corresponding names and like types. -/
structure Hypothesis.Like (L : Likeness) (h g : Hypothesis) : Prop where
  name : L.name h.name g.name
  type : Option.Rel (Term.Like L) h.type g.type

/-- The same number of variables, and like ones. -/
abbrev Context.Like (L : Likeness) : Context → Context → Prop :=
  List.Forall₂ (Hypothesis.Like L)

section

variable {L : Likeness} {Γ Δ : Context}

theorem Context.Like.typeOf? (h : Context.Like L Γ Δ) (n : Nat) :
    Option.Rel (Term.Like L) (Γ.typeOf? n) (Δ.typeOf? n) := by
  have hn := forall₂_getElem? h n
  unfold Context.typeOf?
  generalize Γ[n]? = g, Δ[n]? = d at hn
  cases hn with
  | none => exact .none
  | @some g d hgd =>
      obtain ⟨x, A⟩ := g
      obtain ⟨y, B⟩ := d
      have htype := hgd.type
      dsimp only at htype
      cases htype with
      | none => exact .none
      | some hAB => exact .some (hAB.lift (n + 1))

theorem Context.Like.bind (h : Context.Like L Γ Δ) {x y : Option String} (hxy : L.name x y)
    {A B : Term} (hAB : A.Like L B) : Context.Like L (Γ.bind x (some A)) (Δ.bind y (some B)) :=
  .cons ⟨hxy, .some hAB⟩ h

end

/-- The same reason to refuse like terms. -/
inductive TypingError.Like (L : Likeness) : TypingError → TypingError → Prop
  | kindNotTypable : Like L .kindNotTypable .kindNotTypable
  | domainNotType {t u Γ Δ} : t.Like L u → Context.Like L Γ Δ →
      Like L (.domainNotType t Γ) (.domainNotType u Δ)
  | codomainNotSort {t u Γ Δ} : t.Like L u → Context.Like L Γ Δ →
      Like L (.codomainNotSort t Γ) (.codomainNotSort u Δ)
  | domainFreeAbstraction {t u Γ Δ} : t.Like L u → Context.Like L Γ Δ →
      Like L (.domainFreeAbstraction t Γ) (.domainFreeAbstraction u Δ)
  | unexpectedKind {t u Γ Δ} : t.Like L u → Context.Like L Γ Δ →
      Like L (.unexpectedKind t Γ) (.unexpectedKind u Δ)
  | productExpected {t u Γ Δ} : t.Like L u → Context.Like L Γ Δ →
      Like L (.productExpected t Γ) (.productExpected u Δ)
  | typeNotFound {t u Γ Δ} : t.Like L u → Context.Like L Γ Δ →
      Like L (.typeNotFound t Γ) (.typeNotFound u Δ)
  | metaVariable {t u Γ Δ} : t.Like L u → Context.Like L Γ Δ →
      Like L (.metaVariable t Γ) (.metaVariable u Δ)
  | joker {Γ Δ} : Context.Like L Γ Δ → Like L (.joker Γ) (.joker Δ)
  | incompatibleAnn {t u A A' B B' Γ Δ} : t.Like L u → A.Like L A' → B.Like L B' →
      Context.Like L Γ Δ → Like L (.incompatibleAnn t A B Γ) (.incompatibleAnn u A' B' Δ)
  | unconvertible {t u A A' B B' Γ Δ} : t.Like L u → A.Like L A' → B.Like L B' →
      Context.Like L Γ Δ → Like L (.unconvertible t A B Γ) (.unconvertible u A' B' Δ)
  | sortExpected {t u} : t.Like L u → Like L (.sortExpected t) (.sortExpected u)

/-! ## Inference and checking -/

/-- Like contexts give like types to a variable, and stay alike when like variables are bound. -/
def Likeness.contexts (L : Likeness) : L.simulation.Contexts where
  rel _ := Context.Like L
  typeOf? := by
    rintro _ Γ Δ n _ hΓ rfl
    exact hΓ.typeOf? n
  bind hΓ hxy hAB := hΓ.bind hxy hAB

theorem TypingError.Like.of_sameReason {L : Likeness} {e d : TypingError}
    (h : L.contexts.SameReason e d) : e.Like L d := by
  cases h <;> constructor <;> assumption

namespace Signature

variable {L : Likeness} {σ τ : Signature} (h : σ.Like L τ) (budget : Nat)

include h

theorem Like.treated (t : Term) : Treated L.contexts σ τ budget t :=
  Signature.treated (h.simulates.evaluation budget) h.typeOf? L.contexts t

variable {Γ Δ : Context} {t u : Term} (htu : t.Like L u)

include htu

theorem Like.infer (hΓ : Context.Like L Γ Δ) :
    (σ.infer budget Γ t).Related (TypingError.Like L) (Term.Like L) (τ.infer budget Δ u) :=
  (h.treated budget t (w := ()) htu hΓ).1.imp (fun _ _ he => .of_sameReason he) fun _ _ hA => hA

theorem Like.check (hΓ : Context.Like L Γ Δ) {A B : Term} (hAB : A.Like L B) :
    (σ.check budget Γ t A).Related (TypingError.Like L) Eq (τ.check budget Δ u B) :=
  ((h.treated budget t (w := ()) htu hΓ).2 hAB).imp (fun _ _ he => .of_sameReason he)
    fun _ _ hu => hu

theorem Like.sort :
    (σ.sort budget t).Related (TypingError.Like L) (Term.Like L) (τ.sort budget u) := by
  refine .bind (h.infer budget htu .nil) fun S S' hS => ?_
  refine .lift ((h.evaluation budget).whnf hS) fun P P' hP => ?_
  cases hP with
  | type => exact .pure .type
  | kind => exact .pure .kind
  | _ => exact .throw (.sortExpected htu)

end Signature

end LambdaPi
