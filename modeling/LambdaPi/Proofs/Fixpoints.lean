import Mathlib
import LambdaPi.Proofs.ConversionSound
import LambdaPi.Proofs.NormalForms

/-!
# What reduction returns is not reduced any further

A weak head normal form is returned as it is, and so is what is left of it with fewer arguments
(`whnf_fixed`). All subterms of a normal form are weak head normal forms, and a normal form is its
own normal form (`nf_normal`).

The second fact needs an argument about rules. Normalization reduces the head of a spine first and
looks at no rule again once the arguments are normalized. So a rule that matches the normalized
arguments has to match the arguments as they were: where a pattern looks at the weak head normal form
of a term, it finds the same head there as in the normal form, with parts whose normal forms it finds
below (`Matches.of_nf`).
-/

namespace LambdaPi

namespace Signature

variable {σ : Signature}

/-! ## Normal terms -/

/-- Every subterm is in weak head normal form. -/
def Normal (σ : Signature) (t : Term) : Prop :=
  ∀ v ∈ t.subterms, σ.Whnf v v

theorem normal_iff {t : Term} : σ.Normal t ↔ σ.Whnf t t ∧ ∀ p ∈ t.parts, σ.Normal p :=
  Term.forall_mem_subterms

theorem Normal.whnf {t : Term} (h : σ.Normal t) : σ.Whnf t t :=
  (normal_iff.1 h).1

theorem Normal.args {t : Term} (h : σ.Normal t) : ∀ a ∈ t.unapply.2, σ.Normal a :=
  fun _ ha _ hv => h _ (Term.mem_subterms_of_unapply rfl ha hv)

/-- A term is the normal form of a term in weak head normal form if its parts are the normal forms of
the parts. -/
theorem Nf.of_parts {w v : Term} (hw : σ.Whnf w w) (hfun : ∀ f a, w = .appl f a → σ.Whnf f f)
    (h : w.Parts σ.Nf v) : σ.Nf w v := by
  have hparts := h
  cases h with
  | @appl f f' a a' hf ha =>
      obtain ⟨w, head, args, hw', hhead, hargs, rfl⟩ := nf_iff_spine.1 hf
      obtain rfl := (hfun f a rfl).unique hw'
      refine nf_iff_spine.2 ⟨_, head, args ++ [a'], hw, ?_, ?_, ?_⟩
      · rw [Term.unapply_appl]
        exact hhead
      · rw [Term.unapply_appl]
        exact List.rel_append hargs (.cons ha .nil)
      · rw [Term.apply_append, Term.apply_cons, Term.apply_nil]
  | _ => exact nf_iff_spine.2 ⟨_, _, [], hw, hparts, .nil, rfl⟩

theorem Normal.nf {t : Term} (h : σ.Normal t) : σ.Nf t t := by
  induction t using Term.induction_parts with
  | h t ih =>
      obtain ⟨hwhnf, hparts⟩ := normal_iff.1 h
      refine .of_parts hwhnf (fun f a heq => ?_) (.self fun p hp => ih p hp (hparts p hp))
      exact (hparts f (by simp [heq, Term.parts])).whnf

/-- A term whose normal form is a spine is reduced to a spine, whose head and arguments are normalized
further. -/
theorem Nf.spine {t u head' : Term} {args' : List Term} (h : σ.Nf t u)
    (hu : u.unapply = (head', args')) : ∃ w head args, σ.Whnf t w ∧ w.unapply = (head, args)
      ∧ head.Parts σ.Nf head' ∧ List.Forall₂ σ.Nf args args' := by
  obtain ⟨w, head, args, hw, hhead, hargs, rfl⟩ := nf_iff_spine.1 h
  rw [Term.unapply_apply (hhead.isAppl_eq.trans (Term.isAppl_unapply w))] at hu
  obtain ⟨rfl, rfl⟩ := Prod.mk.inj hu
  exact ⟨w, _, _, hw, rfl, hhead, hargs⟩

/-! ## Patterns that match normal forms -/

/-- Bindings for some arguments, one by one, from those for their normal forms. -/
theorem exists_bindings {d : Nat} {ps as ts : List Term} {θs : List Bindings}
    (hargs : List.Forall₂ σ.Nf as ts) (hts : ps.length = ts.length) (hθs : ps.length = θs.length)
    (h : ∀ (i : Nat) (q v : Term) (θ : Bindings), ps[i]? = some q → ts[i]? = some v →
      θs[i]? = some θ → ∀ t, σ.Nf t v → ∃ θ', Matches σ.view d q t θ') :
    ∃ θs' : List Bindings, ps.length = θs'.length ∧ ∀ (i : Nat) (q t : Term) (θ : Bindings),
      ps[i]? = some q → as[i]? = some t → θs'[i]? = some θ → Matches σ.view d q t θ := by
  obtain ⟨θs', hlen, hmatch⟩ := exists_list (n := ps.length) (P := fun i θ =>
    ∀ q t, ps[i]? = some q → as[i]? = some t → Matches σ.view d q t θ) fun i hi => by
      have hq := List.getElem?_eq_getElem hi
      have hv := List.getElem?_eq_getElem (hts ▸ hi)
      have hθ := List.getElem?_eq_getElem (hθs ▸ hi)
      have hrel := forall₂_getElem? hargs i
      rw [hv] at hrel
      generalize as[i]? = t? at hrel
      cases hrel with
      | some hnf =>
          obtain ⟨θ', hθ'⟩ := h i _ _ _ hq hv hθ _ hnf
          refine ⟨θ', fun q t hq' ht => ?_⟩
          obtain rfl := Option.some.inj (hq.symm.trans hq')
          obtain rfl := Option.some.inj ht
          exact hθ'
  exact ⟨θs', hlen, fun i q t θ hq ht hθ => hmatch i θ hθ q t hq ht⟩

end Signature

open Signature

variable {σ : Signature}

/-- A pattern that matches the normal form of a term matches the term. -/
theorem Matches.of_nf {d : Nat} {p t u : Term} {θ : Bindings} (h : Matches σ.view d p u θ)
    (ht : σ.Nf t u) (hu : σ.Normal u) : ∃ θ', Matches σ.view d p t θ' := by
  induction h generalizing t with
  | joker => exact ⟨[], .joker⟩
  | unnamed => exact ⟨[], .unnamed⟩
  | @named d X args u v positions hsettles hpos huses =>
      -- a normal term is settled as it is
      obtain rfl : u = v := by
        rcases hsettles with heq | hwhnf | hnf
        · exact heq.symm
        · exact hu.whnf.unique hwhnf
        · exact hu.nf.unique hnf
      exact ⟨_, .named (Or.inr (Or.inr ht)) hpos huses⟩
  | @abst d x A p u y B v θ hwhnf _ ih =>
      obtain rfl := hu.whnf.unique hwhnf
      obtain ⟨w, head, args, hw, hspine, hhead, hargs⟩ := ht.spine rfl
      have hv : σ.Normal v := (normal_iff.1 hu).2 v (by simp [Term.parts])
      obtain rfl := List.forall₂_nil_right_iff.1 hargs
      obtain rfl := Term.eq_apply_of_unapply hspine
      cases hhead with
      | abst hbody =>
          obtain ⟨θ', hθ'⟩ := ih hbody hv
          exact ⟨θ', .abst hw hθ'⟩
      | annotated _ hbody =>
          obtain ⟨θ', hθ'⟩ := ih hbody hv
          exact ⟨θ', .abst hw hθ'⟩
  | @symb d p u v s ps ts θs hp hwhnf hv hts hθs _ ih =>
      obtain rfl := hu.whnf.unique hwhnf
      obtain ⟨w, head, args, hw, hspine, hhead, hargs⟩ := ht.spine hv
      cases hhead
      obtain ⟨θs', hlen, hmatch⟩ := exists_bindings hargs hts hθs fun i q v θ hq hvi hθ t ht =>
        ih i q v θ hq hvi hθ ht (hu.args v (hv ▸ List.mem_of_getElem? hvi))
      exact ⟨_, .symb hp hw hspine (hts.trans hargs.length_eq.symm) hlen hmatch⟩
  | @bvar d p u v n x y ps ts θs hp hwhnf hv hts hθs _ ih =>
      obtain rfl := hu.whnf.unique hwhnf
      obtain ⟨w, head, args, hw, hspine, hhead, hargs⟩ := ht.spine hv
      cases hhead
      obtain ⟨θs', hlen, hmatch⟩ := exists_bindings hargs hts hθs fun i q v θ hq hvi hθ t ht =>
        ih i q v θ hq hvi hθ ht (hu.args v (hv ▸ List.mem_of_getElem? hvi))
      exact ⟨_, .bvar hp hw hspine (hts.trans hargs.length_eq.symm) hlen hmatch⟩

theorem MatchesAll.of_nf {ds : List Nat} {ps ts us : List Term} {θ : Bindings}
    (h : MatchesAll σ.view ds ps us θ) (hts : List.Forall₂ σ.Nf ts us)
    (hus : ∀ u ∈ us, σ.Normal u) : ∃ θ', MatchesAll σ.view ds ps ts θ' := by
  induction h generalizing ts with
  | nil =>
      cases hts
      exact ⟨[], .nil⟩
  | cons hmatch _ ih =>
      cases hts with
      | cons ht hts =>
          obtain ⟨hu, hus⟩ := List.forall_mem_cons.1 hus
          obtain ⟨θ₁, h₁⟩ := hmatch.of_nf ht hu
          obtain ⟨θ₂, h₂⟩ := ih hts hus
          exact ⟨_, .cons h₁ h₂⟩

namespace Signature

theorem Inert.nf {s : Symbol} {args args' : List Term} (h : σ.Inert s args)
    (hargs : List.Forall₂ σ.Nf args args') (hnormal : ∀ a ∈ args', σ.Normal a) :
    σ.Inert s args' := by
  refine h.imp_right fun hnone rule hrule θ hmatch => ?_
  obtain ⟨θ', hmatch'⟩ := MatchesAll.of_nf hmatch (List.forall₂_take _ hargs) fun a ha =>
    hnormal a (List.mem_of_mem_take ha)
  exact hnone rule hrule θ' hmatch'

section

variable (hσ : σ.Reachable fun rule => rule.Admissible ∧ rule.LeftLinear)

include hσ

/-! ## Spines -/

/-- A spine that is stuck stays so when its parts are normalized. -/
theorem Stuck.nf {head head' : Term} {args args' : List Term} (h : σ.Stuck head args)
    (hhead : head.Parts σ.Nf head') (hargs : List.Forall₂ σ.Nf args args')
    (hnormal : ∀ a ∈ args', σ.Normal a) : σ.Stuck head' args' := by
  cases hhead with
  | @symb s =>
      obtain ⟨n, fired, hfired⟩ := fireWith_returns hσ (fun a ha => ⟨a, (hnormal a ha).nf⟩) s
      obtain rfl := (fireWith_none_iff hσ hfired).2 ((h.inert hσ).nf hargs hnormal)
      exact stuck_symb_iff.2 ⟨n, hfired⟩
  | appl =>
      obtain ⟨n, hn⟩ := h
      cases isAppl_of_spine?_none hn
  | abst | annotated =>
      obtain ⟨n, hn⟩ := stuck_iff_headStep?.1 h
      cases hargs with
      | nil => exact stuck_iff_headStep?.2 ⟨0, rfl⟩
      | cons => cases hn
  | _ => exact stuck_iff_headStep?.2 ⟨0, rfl⟩

theorem Nf.normal {t u : Term} (h : σ.Nf t u) : σ.Normal u := by
  induction u using Term.induction_parts generalizing t with
  | h u ih =>
      obtain ⟨w, head, args, hw, hspine, hhead, hargs⟩ := h.spine rfl
      have hparts : ∀ p ∈ u.parts, σ.Normal p := by
        intro p hp
        have hforall := (hw.fixed.parts hσ (hw.nf_iff.1 h)).forall₂
        obtain ⟨q, -, hq⟩ := forall₂_exists_right (List.Forall₂.flip (R := flip σ.Nf) hforall) hp
        exact ih p hp hq
      have hnormal : ∀ a ∈ u.unapply.2, σ.Normal a := by
        cases u with
        | appl f a =>
            obtain ⟨hf, ha⟩ := List.forall_mem_cons.1 hparts
            rw [Term.unapply_appl]
            exact List.forall_mem_append.2 ⟨hf.args, ha⟩
        | _ => exact fun a ha => absurd ha List.not_mem_nil
      have hstuck := hw.fixed.stuck
      rw [hspine] at hstuck
      exact normal_iff.2 ⟨(hstuck.nf hσ hhead hargs hnormal).whnf, hparts⟩

/-- A head makes no step on fewer arguments than those on which it is stuck. -/
theorem Stuck.whnf_of_append {head v : Term} {as bs : List Term} (h : σ.Stuck head (as ++ bs))
    (hhead : head.isAppl = false) (hv : σ.Whnf (head.apply as) v) : v = head.apply as := by
  obtain ⟨n, hn⟩ := hv
  simp only [Signature.whnf, whnfBy, Traced.value_bind, Term.unapply_apply hhead] at hn
  obtain ⟨u?, hu, hn⟩ := Option.bind_eq_some_iff.1 hn
  cases n with
  | zero =>
      rw [spine?] at hu
      cases hu
  | succ n =>
      rw [spine?, Traced.value_bind] at hu
      obtain ⟨step, hstep, hu⟩ := Option.bind_eq_some_iff.1 hu
      obtain rfl := h.headStep?_of_append hσ hstep
      obtain rfl := Option.some.inj hu
      exact (Option.some.inj hn).symm

end

/-! ## Addition -/

/-- The rule `plus 0 --> (y => y)`. -/
def zeroRule : Rule :=
  ⟨"zero", ⟨"plus"⟩, [.symb ⟨"0"⟩], .abst "y" none (.bvar 0 none)⟩

/-- The rule `plus (s X) Y --> s (plus X Y)`. -/
def succRule : Rule :=
  ⟨"succ", ⟨"plus"⟩,
    [.appl (.symb ⟨"s"⟩) (.mvar (some (.named "X")) []), .mvar (some (.named "Y")) []],
    .appl (.symb ⟨"s"⟩)
      ((Term.symb ⟨"plus"⟩).apply [.mvar (some (.named "X")) [], .mvar (some (.named "Y")) []])⟩

/-- A signature with both rules: which tree is consulted depends on the number of arguments. -/
def addition : Signature where
  entries := [(⟨"plus"⟩, ⟨.type, false, false⟩)]
  ruleSets := [(⟨"plus"⟩, .ofRules [zeroRule, succRule])]

theorem reachable_addition :
    addition.Reachable fun rule => rule.Admissible ∧ rule.LeftLinear := by
  have hdeclared : Signature.Reachable (fun rule => rule.Admissible ∧ rule.LeftLinear)
      { addition with ruleSets := [] } :=
    .declare .empty (show ({} : Signature).declare ⟨"plus"⟩ .type false = .ok _ from rfl)
  have hzero : zeroRule.Admissible ∧ zeroRule.LeftLinear := by
    refine ⟨Or.inl ⟨"zero", zeroRule.lhs, zeroRule.rhs, by cbv⟩, ?_⟩
    rw [Rule.LeftLinear, show zeroRule.lhs.metaNames = [] by cbv]
    exact .nil
  have hsucc : succRule.Admissible ∧ succRule.LeftLinear := by
    refine ⟨Or.inl ⟨"succ", succRule.lhs, succRule.rhs, by cbv⟩, ?_⟩
    rw [Rule.LeftLinear, show succRule.lhs.metaNames = [.named "X", .named "Y"] by cbv]
    simp
  have hone : Signature.Reachable (fun rule => rule.Admissible ∧ rule.LeftLinear)
      { addition with ruleSets := [(⟨"plus"⟩, .ofRules [zeroRule])] } :=
    .addRule hdeclared hzero (by cbv)
  exact .addRule hone hsucc (by cbv)

end Signature

open Signature

/-! ## Weak head normal forms -/

/-- A weak head normal form is returned as it is. If the rules are left-linear with closed sides, its
head makes no step on fewer arguments either. -/
theorem whnf_fixed {σ : Signature} {t u : Term} (h : σ.Whnf t u) :
    σ.Whnf u u ∧
    ((σ.Reachable fun rule => rule.Admissible ∧ rule.LeftLinear) →
      ∀ (head : Term) (args : List Term), u = head.apply args → head.isAppl = false →
      ∀ m ≤ args.length, ∀ v, σ.Whnf (head.apply (args.take m)) v →
        v = head.apply (args.take m)) := by
  refine ⟨h.fixed, ?_⟩
  rintro hσ head args rfl hhead m - v hv
  have hstuck := h.fixed.stuck
  rw [Term.unapply_apply hhead, ← List.take_append_drop m args] at hstuck
  exact hstuck.whnf_of_append hσ hhead hv

/-- The spine `plus x y`, which is stuck. -/
def openSum : Term :=
  (Term.symb ⟨"plus"⟩).apply [.bvar 0 none, .bvar 1 none]

theorem whnf_fixed_addition :
    (addition.Reachable fun rule => rule.Admissible ∧ rule.LeftLinear)
      ∧ addition.Whnf (.appl (.abst "f" none (.appl (.bvar 0 none) (.bvar 2 none)))
        (.appl (.symb ⟨"plus"⟩) (.bvar 0 none))) openSum
      ∧ addition.Whnf openSum openSum
      ∧ ∃ v, addition.Whnf (.appl (.symb ⟨"plus"⟩) (.bvar 0 none)) v
        ∧ v = .appl (.symb ⟨"plus"⟩) (.bvar 0 none) := by
  have hwhnf : addition.Whnf (.appl (.abst "f" none (.appl (.bvar 0 none) (.bvar 2 none)))
      (.appl (.symb ⟨"plus"⟩) (.bvar 0 none))) openSum := ⟨9, by cbv⟩
  obtain ⟨v, hv⟩ : ∃ v, addition.Whnf (.appl (.symb ⟨"plus"⟩) (.bvar 0 none)) v :=
    ⟨_, 9, by cbv⟩
  obtain ⟨hfixed, hfewer⟩ := whnf_fixed hwhnf
  exact ⟨reachable_addition, hwhnf, hfixed, v, hv,
    hfewer reachable_addition (.symb ⟨"plus"⟩) _ rfl rfl 1 (by decide) v hv⟩

/-! ## Normal forms -/

/-- If the rules are left-linear with closed sides, all subterms of a normal form are in weak head
normal form, and the normal form is its own normal form. -/
theorem nf_normal {σ : Signature}
    (hσ : σ.Reachable fun rule => rule.Admissible ∧ rule.LeftLinear) {t u : Term} (h : σ.Nf t u) :
    (∀ v ∈ u.subterms, σ.Whnf v v) ∧ σ.Nf u u :=
  have hu := h.normal hσ
  ⟨hu, hu.nf⟩

theorem nf_normal_addition :
    (addition.Reachable fun rule => rule.Admissible ∧ rule.LeftLinear)
      ∧ addition.Nf ((Term.symb ⟨"plus"⟩).apply [.appl (.symb ⟨"s"⟩) (.bvar 0 none),
        .appl (.abst "z" none (.bvar 0 none)) (.bvar 1 none)]) (.appl (.symb ⟨"s"⟩) openSum)
      ∧ openSum ∈ (Term.appl (.symb ⟨"s"⟩) openSum).subterms ∧ addition.Whnf openSum openSum
      ∧ addition.Nf (.appl (.symb ⟨"s"⟩) openSum) (.appl (.symb ⟨"s"⟩) openSum) := by
  have hnf : addition.Nf ((Term.symb ⟨"plus"⟩).apply [.appl (.symb ⟨"s"⟩) (.bvar 0 none),
      .appl (.abst "z" none (.bvar 0 none)) (.bvar 1 none)]) (.appl (.symb ⟨"s"⟩) openSum) :=
    ⟨9, by cbv⟩
  have hmem : openSum ∈ (Term.appl (.symb ⟨"s"⟩) openSum).subterms :=
    Term.mem_subterms_appl_right (Term.mem_subterms_self openSum) _
  obtain ⟨hwhnf, hself⟩ := nf_normal reachable_addition hnf
  exact ⟨reachable_addition, hnf, hmem, hwhnf openSum hmem, hself⟩

end LambdaPi
