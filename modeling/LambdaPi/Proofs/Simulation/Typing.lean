import LambdaPi.Proofs.Simulation.Evaluation

/-!
# Typing of related terms

Where evaluation takes related terms to related terms, typing does so too: related terms in related
contexts have related types, or are refused for the same reason (`Signature.treated`). Contexts are
related as a `Simulation.Contexts` says, which has to pass under binders and to relate the types of
corresponding variables.
-/

namespace LambdaPi

/-! ## Contexts and errors -/

/-- Relations between contexts, one for each world. -/
structure Simulation.Contexts (S : Simulation) where
  rel : S.World → Context → Context → Prop
  typeOf? : ∀ {w Γ Δ m n}, rel w Γ Δ → S.var w m n →
    Option.Rel (S.rel w) (Γ.typeOf? m) (Δ.typeOf? n)
  bind : ∀ {w Γ Δ x y A B}, rel w Γ Δ → S.name x y → S.rel w A B →
    rel (S.under w) (Γ.bind x (some A)) (Δ.bind y (some B))

/-- The same reason to refuse related terms, in whatever world. -/
inductive Simulation.Contexts.SameReason {S : Simulation} (C : S.Contexts) :
    TypingError → TypingError → Prop
  | kindNotTypable : SameReason C .kindNotTypable .kindNotTypable
  | domainNotType {w t u Γ Δ} : S.rel w t u → C.rel w Γ Δ →
      SameReason C (.domainNotType t Γ) (.domainNotType u Δ)
  | codomainNotSort {w t u Γ Δ} : S.rel w t u → C.rel w Γ Δ →
      SameReason C (.codomainNotSort t Γ) (.codomainNotSort u Δ)
  | domainFreeAbstraction {w t u Γ Δ} : S.rel w t u → C.rel w Γ Δ →
      SameReason C (.domainFreeAbstraction t Γ) (.domainFreeAbstraction u Δ)
  | unexpectedKind {w t u Γ Δ} : S.rel w t u → C.rel w Γ Δ →
      SameReason C (.unexpectedKind t Γ) (.unexpectedKind u Δ)
  | productExpected {w t u Γ Δ} : S.rel w t u → C.rel w Γ Δ →
      SameReason C (.productExpected t Γ) (.productExpected u Δ)
  | typeNotFound {w t u Γ Δ} : S.rel w t u → C.rel w Γ Δ →
      SameReason C (.typeNotFound t Γ) (.typeNotFound u Δ)
  | metaVariable {w t u Γ Δ} : S.rel w t u → C.rel w Γ Δ →
      SameReason C (.metaVariable t Γ) (.metaVariable u Δ)
  | joker {w Γ Δ} : C.rel w Γ Δ → SameReason C (.joker Γ) (.joker Δ)
  | incompatibleAnn {w t u A A' B B' Γ Δ} : S.rel w t u → S.rel w A A' → S.rel w B B' →
      C.rel w Γ Δ → SameReason C (.incompatibleAnn t A B Γ) (.incompatibleAnn u A' B' Δ)
  | unconvertible {w t u A A' B B' Γ Δ} : S.rel w t u → S.rel w A A' → S.rel w B B' →
      C.rel w Γ Δ → SameReason C (.unconvertible t A B Γ) (.unconvertible u A' B' Δ)

/-! ## Inference and checking -/

namespace Signature

variable {S : Simulation} {C : S.Contexts} {σ τ : Signature} {budget : Nat}

/-- What the checker does with a term it does with the terms related to it. -/
def Treated (C : S.Contexts) (σ τ : Signature) (budget : Nat) (t : Term) : Prop :=
  ∀ ⦃w u Γ Δ⦄, S.rel w t u → C.rel w Γ Δ →
    (σ.infer budget Γ t).Related C.SameReason (S.rel w) (τ.infer budget Δ u)
    ∧ ∀ {A B}, S.rel w A B →
      (σ.check budget Γ t A).Related C.SameReason Eq (τ.check budget Δ u B)

section

variable (h : EvaluatesAlike S σ τ budget) {w : S.World} {Γ Δ : Context}

include h

theorem EvaluatesAlike.reducesToType {t u : Term} (htu : S.rel w t u) :
    (σ.reducesToType budget t).Related Eq (τ.reducesToType budget u) := by
  refine .bind (h.whnf htu) fun v v' hv => ?_
  cases S.layer.1 hv <;> exact .pure rfl

variable (hΓ : C.rel w Γ Δ)

include hΓ

theorem infer_appl_alike {f f' a a' : Term} (hf : Treated C σ τ budget f)
    (ha : Treated C σ τ budget a) (hff' : S.rel w f f') (haa' : S.rel w a a') :
    (σ.infer budget Γ (.appl f a)).Related C.SameReason (S.rel w)
      (τ.infer budget Δ (.appl f' a')) := by
  rw [infer, infer]
  refine .emit ?_ ..
  refine .bind (hf hff' hΓ).1 fun F F' hF => .lift (h.whnf hF) fun P P' hP => ?_
  have hnot := Simulation.Contexts.SameReason.productExpected (S.layer.2 (.appl hff' haa')) hΓ
  cases S.layer.1 hP with
  | prod _ hA hB =>
      refine .bind ((ha haa' hΓ).2 hA) fun _ _ _ => ?_
      exact .pure (S.subst hB haa')
  | _ => exact .throw hnot

theorem infer_prod_alike {x y : Option String} {A A' B B' : Term} (hA : Treated C σ τ budget A)
    (hB : Treated C σ τ budget B) (hxy : S.name x y) (hAA' : S.rel w A A')
    (hBB' : S.rel (S.under w) B B') :
    (σ.infer budget Γ (.prod x A B)).Related C.SameReason (S.rel w)
      (τ.infer budget Δ (.prod y A' B')) := by
  have hprod := S.layer.2 (.prod hxy hAA' hBB')
  rw [infer, infer]
  refine .emit ?_ ..
  refine .bind (hA hAA' hΓ).1 fun T T' hT => ?_
  refine .bind (.ensure (h.reducesToType hT) (.domainNotType hprod hΓ)) fun _ _ _ => ?_
  refine .bind (hB hBB' (C.bind hΓ hxy hAA')).1 fun T T' hT => .lift (h.whnf hT) fun P P' hP => ?_
  cases S.layer.1 hP with
  | type => exact .pure (S.layer.2 .type)
  | kind => exact .pure (S.layer.2 .kind)
  | _ => exact .throw (.codomainNotSort hprod hΓ)

theorem infer_abst_alike {x y : String} {A A' : Option Term} {t t' : Term}
    (hA : ∀ B, A = some B → Treated C σ τ budget B) (ht : Treated C σ τ budget t)
    (hxy : S.name (some x) (some y)) (hAA' : Option.Rel (S.rel w) A A')
    (htt' : S.rel (S.under w) t t') :
    (σ.infer budget Γ (.abst x A t)).Related C.SameReason (S.rel w)
      (τ.infer budget Δ (.abst y A' t')) := by
  have hann := S.informative? hAA'
  have habst := S.layer.2 (.abst hxy hAA' htt')
  rw [infer, infer]
  refine .emit ?_ ..
  split
  · next hnone =>
    split
    · exact .throw (.domainFreeAbstraction habst hΓ)
    · next hsome =>
      rw [hnone, hsome] at hann
      cases hann
  · next B hB =>
    split
    · next hnone =>
      rw [hB, hnone] at hann
      cases hann
    · next B' hB' =>
      rw [hB, hB'] at hann
      cases hann with
      | some hBB' =>
          have hdomain := hA B (Term.eq_some_of_informative? hB) hBB' hΓ
          refine .bind hdomain.1 fun T T' hT => ?_
          refine .bind (.ensure (h.reducesToType hT) (.domainNotType habst hΓ)) fun _ _ _ => ?_
          refine .bind (ht htt' (C.bind hΓ hxy hBB')).1 fun D D' hDD' => ?_
          have hprod := S.layer.2 (.prod hxy hBB' hDD')
          cases S.layer.1 hDD' with
          | kind => exact .throw (.unexpectedKind habst hΓ)
          | _ => exact .pure hprod

/-- The inferred type is compared with the expected one. -/
theorem compareTypes_alike {t u : Term} (htu : S.rel w t u)
    (hinfer : (σ.infer budget Γ t).Related C.SameReason (S.rel w) (τ.infer budget Δ u))
    {A A' : Term} (hA : S.rel w A A') :
    Typed.Related C.SameReason Eq
      (σ.infer budget Γ t >>= fun B => do
        Traced.emit (.compareTypes B A)
        ensure (σ.convertible budget B A) (.unconvertible t A B Γ))
      (τ.infer budget Δ u >>= fun B => do
        Traced.emit (.compareTypes B A')
        ensure (τ.convertible budget B A') (.unconvertible u A' B Δ)) := by
  refine .bind hinfer fun B B' hB => .emit ?_ ..
  exact .ensure (h.convertible hB hA) (.unconvertible htu hA hB hΓ)

theorem check_abst_alike {x y : String} {A A' : Option Term} {t t' : Term}
    (hA : ∀ B, A = some B → Treated C σ τ budget B) (ht : Treated C σ τ budget t)
    (hxy : S.name (some x) (some y)) (hAA' : Option.Rel (S.rel w) A A')
    (htt' : S.rel (S.under w) t t')
    (hinfer : (σ.infer budget Γ (.abst x A t)).Related C.SameReason (S.rel w)
      (τ.infer budget Δ (.abst y A' t'))) {T T' : Term} (hT : S.rel w T T') :
    (σ.check budget Γ (.abst x A t) T).Related C.SameReason Eq
      (τ.check budget Δ (.abst y A' t') T') := by
  have hann := S.informative? hAA'
  have habst := S.layer.2 (.abst hxy hAA' htt')
  rw [check, check]
  refine .emit ?_ ..
  rw [S.isMetaVariable habst]
  split
  · exact .throw (.metaVariable habst hΓ)
  · refine .lift (h.whnf hT) fun P P' hP => ?_
    have hcompare := compareTypes_alike h hΓ habst hinfer hP
    cases S.layer.1 hP with
    | prod _ hD hE =>
        have hbody := (ht htt' (C.bind hΓ hxy hD)).2 hE
        dsimp only
        split
        · next hnone =>
          split
          · exact hbody
          · next hsome =>
            rw [hnone, hsome] at hann
            cases hann
        · next B hB =>
          split
          · next hnone =>
            rw [hB, hnone] at hann
            cases hann
          · next B' hB' =>
            rw [hB, hB'] at hann
            cases hann with
            | some hBB' =>
                have hdomain := hA B (Term.eq_some_of_informative? hB) hBB' hΓ
                refine .bind hdomain.1 fun T T' hT => ?_
                refine .bind (.ensure (h.reducesToType hT) (.domainNotType habst hΓ))
                  fun _ _ _ => ?_
                refine .bind (.ensure (h.convertible hBB' hD) (.incompatibleAnn habst hD hBB' hΓ))
                  fun _ _ _ => ?_
                exact hbody
    | _ => exact hcompare

theorem check_alike {t u : Term} (htu : S.rel w t u) (hnot : ∀ x A b, t ≠ .abst x A b)
    (hinfer : (σ.infer budget Γ t).Related C.SameReason (S.rel w) (τ.infer budget Δ u))
    {A A' : Term} (hA : S.rel w A A') :
    (σ.check budget Γ t A).Related C.SameReason Eq (τ.check budget Δ u A') := by
  rw [check, check]
  refine .emit ?_ ..
  rw [S.isMetaVariable htu]
  split
  · exact .throw (.metaVariable htu hΓ)
  · refine .lift (h.whnf hA) fun P P' hP => ?_
    have hcompare := compareTypes_alike h hΓ htu hinfer hP
    cases S.layer.1 htu with
    | abst => exact absurd rfl (hnot _ _ _)
    | _ => exact hcompare

end

/-- Related terms in related contexts are treated the same if evaluation treats related terms the same
and the declared types are related. -/
theorem treated (h : EvaluatesAlike S σ τ budget)
    (htypes : ∀ {w s t}, S.symbol s t → Option.Rel (S.rel w) (σ.typeOf? s) (τ.typeOf? t))
    (C : S.Contexts) (t : Term) : Treated C σ τ budget t := by
  -- all terms but abstractions are checked by comparing the type inferred for them
  have hcheck : ∀ {w t u Γ Δ}, S.rel w t u → C.rel w Γ Δ → (∀ x A b, t ≠ .abst x A b) →
      (σ.infer budget Γ t).Related C.SameReason (S.rel w) (τ.infer budget Δ u) →
      (σ.infer budget Γ t).Related C.SameReason (S.rel w) (τ.infer budget Δ u)
      ∧ ∀ {A B}, S.rel w A B →
        (σ.check budget Γ t A).Related C.SameReason Eq (τ.check budget Δ u B) :=
    fun htu hΓ hnot hinfer => ⟨hinfer, check_alike h hΓ htu hnot hinfer⟩
  induction t with
  | kind =>
      intro w u Γ Δ htu hΓ
      refine hcheck htu hΓ (by simp) ?_
      cases S.layer.1 htu
      rw [infer, infer]
      exact .emit (.throw .kindNotTypable) ..
  | type =>
      intro w u Γ Δ htu hΓ
      refine hcheck htu hΓ (by simp) ?_
      cases S.layer.1 htu
      rw [infer, infer]
      refine .emit ?_ ..
      exact .pure (S.layer.2 .kind)
  | symb s =>
      intro w u Γ Δ htu hΓ
      refine hcheck htu hΓ (by simp) ?_
      cases S.layer.1 htu with
      | @symb _ s' hs =>
          rw [infer, infer]
          refine .emit ?_ ..
          have htype := htypes (w := w) hs
          generalize σ.typeOf? s = A, τ.typeOf? s' = B at htype
          cases htype with
          | none => exact .throw (.typeNotFound htu hΓ)
          | some hAB => exact .pure hAB
  | bvar n x =>
      intro w u Γ Δ htu hΓ
      refine hcheck htu hΓ (by simp) ?_
      cases S.layer.1 htu with
      | @bvar _ n' _ _ hn hx =>
          rw [infer, infer]
          refine .emit ?_ ..
          have htype := C.typeOf? hΓ hn
          generalize Γ.typeOf? n = A, Δ.typeOf? n' = B at htype
          cases htype with
          | none => exact .throw (.typeNotFound htu hΓ)
          | some hAB => exact .pure hAB
  | joker =>
      intro w u Γ Δ htu hΓ
      refine hcheck htu hΓ (by simp) ?_
      cases S.layer.1 htu
      rw [infer, infer]
      exact .emit (.throw (.joker hΓ)) ..
  | appl f a ihf iha =>
      intro w u Γ Δ htu hΓ
      refine hcheck htu hΓ (by simp) ?_
      cases S.layer.1 htu with
      | appl hf ha => exact infer_appl_alike h hΓ ihf iha hf ha
  | prod x A B ihA ihB =>
      intro w u Γ Δ htu hΓ
      refine hcheck htu hΓ (by simp) ?_
      cases S.layer.1 htu with
      | prod hx hA hB => exact infer_prod_alike h hΓ ihA ihB hx hA hB
  | abst x A t ihA iht =>
      intro w u Γ Δ htu hΓ
      cases S.layer.1 htu with
      | abst hx hA ht =>
          have hinfer := infer_abst_alike h hΓ ihA iht hx hA ht
          exact ⟨hinfer, check_abst_alike h hΓ ihA iht hx hA ht hinfer⟩
  | mvar m args ih =>
      intro w u Γ Δ htu hΓ
      refine hcheck htu hΓ (by simp) ?_
      cases S.layer.1 htu with
      | mvar hargs =>
          rw [infer, infer]
          exact .emit (.throw (.metaVariable htu hΓ)) ..

end Signature

end LambdaPi
