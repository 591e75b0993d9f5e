import LambdaPi.Proofs.Simulation.Results
import LambdaPi.Proofs.Simulation.Terms

/-!
# Evaluation of related terms

If related arguments make a symbol fire in two signatures alike, then evaluation in the two signatures
takes related terms to related terms, on every budget, and comparisons have the same answer
(`Signature.Simulates.evaluation`). Firing is left open because it is where relations differ: it depends
on rules and their trees, and on how the relation passes through the binders of a pattern.
-/

namespace LambdaPi

/-! ## Signatures -/

/-- The reducers take related terms to related terms, in every world. -/
structure Simulation.Reducers (S : Simulation) (red red' : Reducer) : Prop where
  whnf : ∀ {w t u}, S.rel w t u → (red.whnf t).Related (S.rel w) (red'.whnf u)
  nf : ∀ {w t u}, S.rel w t u → (red.nf t).Related (S.rel w) (red'.nf u)
  convertible : ∀ {w t u t' u'}, S.rel w t u → S.rel w t' u' →
    (red.convertible t t').Related Eq (red'.convertible u u')

/-- Results of firing a rule: related terms, and equally many arguments consumed. -/
abbrev Simulation.Fired (S : Simulation) (w : S.World) :
    Option (Term × Nat) → Option (Term × Nat) → Prop :=
  Option.Rel fun p q => S.rel w p.1 q.1 ∧ p.2 = q.2

/-- Corresponding symbols fire alike and are injective or not together. -/
structure Signature.Simulates (S : Simulation) (σ τ : Signature) : Prop where
  fire : ∀ {red red'}, S.Reducers red red' → ∀ {w s t as bs}, S.symbol s t →
    List.Forall₂ (S.rel w) as bs →
    (σ.fireWith red s as).Related (S.Fired w) (τ.fireWith red' t bs)
  isInjective : ∀ {s t}, S.symbol s t → σ.isInjective s = τ.isInjective t
  eta : σ.eta = τ.eta

namespace Signature

open Traced

variable {S : Simulation} {σ τ : Signature} {w : S.World}

theorem etaPart?_simulates {t t' u u' : Term} (ht : S.rel w t t') (hu : S.rel w u u')
    (depth depth' : Nat) :
    Option.Rel S.Compared (etaPart? depth t u) (etaPart? depth' t' u') := by
  have hexpand : ∀ {f g b c : Term}, S.rel (S.under w) b c → S.rel w f g →
      S.Compared ⟨b, .appl (f.lift 1) (.bvar 0 none), depth + 1⟩
        ⟨c, .appl (g.lift 1) (.bvar 0 none), depth' + 1⟩ := by
    intro f g b c hbc hfg
    have hvar := S.layer.2 (.bvar (S.var_bound w) S.unnamed)
    exact ⟨_, hbc, S.layer.2 (.appl (S.lift hfg) hvar)⟩
  cases S.layer.1 ht with
  | abst _ _ hbody =>
      cases S.layer.1 hu with
      | abst => exact .none
      | _ => exact .some (hexpand hbody hu)
  | _ =>
      cases S.layer.1 hu with
      | abst _ _ hbody => exact .some (hexpand hbody ht)
      | _ => exact .none

namespace Simulates

section

variable (h : σ.Simulates S τ)

include h

theorem headStep? {red red' : Reducer} (hred : S.Reducers red red') {t u : Term}
    (htu : S.rel w t u) {as bs : List Term} (hargs : List.Forall₂ (S.rel w) as bs) :
    (σ.headStep? red t as).Related
      (Option.Rel fun p q => S.rel w p.1 q.1 ∧ List.Forall₂ (S.rel w) p.2 q.2)
      (τ.headStep? red' u bs) := by
  unfold Signature.headStep?
  refine .emit ?_ ..
  cases S.layer.1 htu with
  | appl => exact .pure (.some (S.unapplyOnto htu hargs))
  | abst _ _ hbody =>
      cases hargs with
      | nil => exact .pure .none
      | cons ha hrest => exact .pure (.some ⟨S.subst hbody ha, hrest⟩)
  | symb hs =>
      refine .bind (h.fire hred hs hargs) fun p q hpq => ?_
      cases hpq with
      | none => exact .pure .none
      | @some p q hpq =>
          obtain ⟨v, k⟩ := p
          obtain ⟨v', _⟩ := q
          obtain ⟨hv, rfl⟩ := hpq
          exact .pure (.some ⟨hv, List.forall₂_drop k hargs⟩)
  | _ => exact .pure .none

theorem injectiveParts? {c d : Comparison} (hcd : S.Compared c d) :
    Option.Rel (List.Forall₂ S.Compared) (σ.injectiveParts? c) (τ.injectiveParts? d) := by
  obtain ⟨w, hleft, hright⟩ := hcd
  obtain ⟨hhead, hlefts⟩ := S.unapply hleft
  obtain ⟨hhead', hrights⟩ := S.unapply hright
  unfold Signature.injectiveParts?
  generalize c.left.unapply = p, d.left.unapply = p' at *
  generalize c.right.unapply = q, d.right.unapply = q' at *
  obtain ⟨f, as⟩ := p
  obtain ⟨f', as'⟩ := p'
  obtain ⟨g, bs⟩ := q
  obtain ⟨g', bs'⟩ := q'
  dsimp only at *
  cases S.layer.1 hhead with
  | symb hs =>
      cases S.layer.1 hhead' with
      | symb ht =>
          simp only [hlefts.length_eq, hrights.length_eq, h.isInjective hs, S.symbol_inj hs ht]
          split
          · exact .some (S.compareArgs hlefts hrights c.depth d.depth)
          · exact .none
      | _ => exact .none
  | _ => exact .none

theorem whnfParts? {t t' u u' : Term} (ht : S.rel w t t') (hu : S.rel w u u')
    (depth depth' : Nat) :
    Option.Rel (List.Forall₂ S.Compared) (σ.whnfParts? depth t u)
      (τ.whnfParts? depth' t' u') := by
  have hhead := S.sameHead ht hu depth depth'
  unfold Signature.whnfParts?
  generalize t.sameHead depth u = p, t'.sameHead depth' u' = p' at hhead
  cases hhead with
  | some hparts => exact .some (List.rel_reverse hparts)
  | none =>
      have heta := etaPart?_simulates ht hu depth depth'
      dsimp only
      rw [h.eta]
      split
      · generalize etaPart? depth t u = p, etaPart? depth' t' u' = p' at heta
        cases heta with
        | none => exact .none
        | some hc => exact .some (.cons hc .nil)
      · exact .none

end

end Simulates

/-! ## Reduction -/

theorem whnfBy_simulates {spine? spine?' : Term → List Term → Traced (Option Term)}
    (h : ∀ {t u as bs}, S.rel w t u → List.Forall₂ (S.rel w) as bs →
      (spine? t as).Related (Option.Rel (S.rel w)) (spine?' u bs)) {t u : Term}
    (htu : S.rel w t u) : (whnfBy spine? t).Related (S.rel w) (whnfBy spine?' u) := by
  obtain ⟨hhead, hargs⟩ := S.unapply htu
  refine .bind (h hhead hargs) fun p q hpq => ?_
  cases hpq with
  | none => exact .pure htu
  | some hpq => exact .pure hpq

theorem mapParts_simulates {f g : Term → Traced Term}
    (h : ∀ {w t u}, S.rel w t u → (f t).Related (S.rel w) (g u)) {t u : Term}
    (htu : S.rel w t u) : (mapParts f t).Related (S.rel w) (mapParts g u) := by
  cases S.layer.1 htu with
  | prod hx hA hB =>
      refine .bind (h hA) fun _ _ hA' => .bind (h hB) fun _ _ hB' => ?_
      exact .pure (S.layer.2 (.prod hx hA' hB'))
  | abst hx hA ht =>
      cases hA with
      | none =>
          refine .bind (h ht) fun _ _ ht' => ?_
          exact .pure (S.layer.2 (.abst hx .none ht'))
      | some hA =>
          refine .bind (h hA) fun _ _ hA' => .bind (h ht) fun _ _ ht' => ?_
          exact .pure (S.layer.2 (.abst hx (.some hA') ht'))
  | mvar hargs =>
      refine .bind (.mapM (fun _ _ hab => h hab) hargs) fun _ _ hargs' => ?_
      exact .pure (S.layer.2 (.mvar hargs'))
  | _ => exact .pure htu

/-- Evaluation with one budget takes related things to related things. -/
structure EvaluatesAlike (S : Simulation) (σ τ : Signature) (n : Nat) : Prop where
  spine? : ∀ {w t u as bs}, S.rel w t u → List.Forall₂ (S.rel w) as bs →
    (σ.spine? n t as).Related (Option.Rel (S.rel w)) (τ.spine? n u bs)
  nf : ∀ {w t u}, S.rel w t u → (σ.nf n t).Related (S.rel w) (τ.nf n u)
  agree : ∀ {cs ds}, List.Forall₂ S.Compared cs ds → (σ.agree n cs).Related Eq (τ.agree n ds)

namespace EvaluatesAlike

variable {n : Nat}

theorem exhausted (S : Simulation) (σ τ : Signature) : EvaluatesAlike S σ τ 0 := by
  constructor
  · intro w t u as bs _ _
    rw [Signature.spine?, Signature.spine?]
    exact .exhausted
  · intro w t u _
    rw [Signature.nf, Signature.nf]
    exact .exhausted
  · intro cs ds _
    rw [Signature.agree, Signature.agree]
    exact .exhausted

theorem whnf (h : EvaluatesAlike S σ τ n) {t u : Term} (htu : S.rel w t u) :
    (σ.whnf n t).Related (S.rel w) (τ.whnf n u) :=
  whnfBy_simulates h.spine? htu

theorem convertible (h : EvaluatesAlike S σ τ n) {t u t' u' : Term} (ht : S.rel w t t')
    (hu : S.rel w u u') : (σ.convertible n t u).Related Eq (τ.convertible n t' u') :=
  h.agree (.cons ⟨w, ht, hu⟩ .nil)

theorem reducer (h : EvaluatesAlike S σ τ n) : S.Reducers (σ.reducer n) (τ.reducer n) :=
  ⟨h.whnf, h.nf, h.convertible⟩

/-- One step more: every call is made with the smaller budget. -/
theorem step (hσ : σ.Simulates S τ) (h : EvaluatesAlike S σ τ n) :
    EvaluatesAlike S σ τ (n + 1) := by
  constructor
  · intro w t u as bs htu hargs
    rw [Signature.spine?, Signature.spine?]
    refine .bind (hσ.headStep? h.reducer htu hargs) fun p q hpq => ?_
    cases hpq with
    | none => exact .pure .none
    | some hpq =>
        refine .bind (h.spine? hpq.1 hpq.2) fun v v' hv => ?_
        cases hv with
        | none => exact .pure (.some (S.apply hpq.1 hpq.2))
        | some hv => exact .pure (.some hv)
  · intro w t u htu
    rw [Signature.nf, Signature.nf]
    refine .bind (h.whnf htu) fun v v' hv => ?_
    obtain ⟨hhead, hargs⟩ := S.unapply hv
    refine .bind (mapParts_simulates h.nf hhead) fun head head' hhead' => ?_
    refine .bind (.mapM (fun _ _ hab => h.nf hab) hargs) fun args args' hargs' => ?_
    exact .pure (S.apply hhead' hargs')
  · intro cs ds hcs
    cases hcs with
    | nil =>
        rw [Signature.agree, Signature.agree]
        exact .pure rfl
    | @cons c d _ _ hc hrest =>
        have hparts := hσ.injectiveParts? hc
        obtain ⟨w, hleft, hright⟩ := hc
        rw [Signature.agree, Signature.agree, S.equals hleft hright]
        refine .emit ?_ ..
        split
        · exact h.agree hrest
        · generalize σ.injectiveParts? c = p, τ.injectiveParts? d = q at hparts
          cases hparts with
          | some hparts => exact h.agree (List.rel_append hparts hrest)
          | none =>
              refine .bind (h.whnf hleft) fun t t' ht => .bind (h.whnf hright) fun u u' hu => ?_
              have hparts := hσ.whnfParts? ht hu c.depth d.depth
              generalize σ.whnfParts? c.depth t u = p, τ.whnfParts? d.depth t' u' = q at hparts
              cases hparts with
              | none => exact .pure rfl
              | some hparts => exact h.agree (List.rel_append hparts hrest)

end EvaluatesAlike

/-- In signatures whose symbols fire alike, evaluation takes related things to related things on every
budget. -/
theorem Simulates.evaluation (h : σ.Simulates S τ) (n : Nat) : EvaluatesAlike S σ τ n := by
  induction n with
  | zero => exact .exhausted S σ τ
  | succ n ih => exact ih.step h

end Signature

end LambdaPi
