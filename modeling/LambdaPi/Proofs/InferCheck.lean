import Mathlib
import LambdaPi.Proofs.LazyConversion
import LambdaPi.Proofs.TypingSound

/-!
# Inference and checking agree

A term that has an inferred type passes the check against this type, if the check comes to an answer
(`check_inferred`). This is not a matter of calling inference twice. An abstraction is checked part
by part, in a context that is made from the expected type. Other terms have their inferred type
compared with its own weak head normal form, and the comparison may take a shortcut: applications of
an injective symbol are compared argument by argument, without a look at the rules of the symbol. So
the symbol must not have any, or must be constant (`Signature.answers_whnf`).

Inference and checking may run on different budgets, and check repeats inference on its own. A larger
budget does not change what has been found (`Signature.typing_below`).
-/

namespace LambdaPi

/-! ## Typing on larger budgets -/

namespace Typed

variable {α β : Type}

/-- What one computation finds, the other finds too. -/
def Below (x y : Typed α) : Prop :=
  x.run.Below y.run

namespace Below

theorem refl (x : Typed α) : x.Below x :=
  Traced.Below.refl x.run

theorem bind {x x' : Typed α} {f f' : α → Typed β} (hx : x.Below x')
    (hf : ∀ a, (f a).Below (f' a)) : (x >>= f).Below (x' >>= f') := by
  refine Traced.Below.bind hx fun r => ?_
  cases r with
  | error e => exact .refl _
  | ok a => exact hf a

theorem lift {x x' : Traced α} (h : x.Below x') : (liftM x : Typed α).Below (liftM x') :=
  Traced.Below.bind h fun _ => .refl _

theorem ensure {x x' : Traced Bool} (h : x.Below x') (e : TypingError) :
    (LambdaPi.ensure x e).Below (LambdaPi.ensure x' e) :=
  .bind (.lift h) fun _ => .refl _

end Below

end Typed

namespace Signature

variable {σ : Signature} {n m : Nat}

theorem reducesToType_below (h : n ≤ m) (t : Term) :
    (σ.reducesToType n t).Below (σ.reducesToType m t) :=
  .bind (whnf_below h t) fun _ => .refl _

theorem convertible_below (h : n ≤ m) (t u : Term) :
    (σ.convertible n t u).Below (σ.convertible m t u) :=
  (budget_below h).2.2 _

/-- What is found about a term on one budget is found on the other. -/
def TypedBelow (σ : Signature) (n m : Nat) (t : Term) : Prop :=
  ∀ Γ, (σ.infer n Γ t).Below (σ.infer m Γ t) ∧ ∀ A, (σ.check n Γ t A).Below (σ.check m Γ t A)

/-- A check infers the type of the term, unless it goes under an abstraction. -/
theorem typedBelow_of_infer (h : n ≤ m) {t : Term}
    (hinfer : ∀ Γ, (σ.infer n Γ t).Below (σ.infer m Γ t))
    (hparts : ∀ x ann body, t = .abst x ann body →
      (∀ A, ann = some A → σ.TypedBelow n m A) ∧ σ.TypedBelow n m body) :
    σ.TypedBelow n m t := by
  refine fun Γ => ⟨hinfer Γ, fun A => ?_⟩
  rw [check, check]
  refine .bind (.refl _) fun _ => ?_
  split
  · exact .refl _
  · refine .bind (.lift (whnf_below h A)) fun A' => ?_
    split
    · next x ann body _ D C _ =>
      obtain ⟨hann, hbody⟩ := hparts x ann body rfl
      split
      · exact (hbody _).2 C
      · next B hB =>
        refine .bind (hann B (Term.eq_some_of_informative? hB) Γ).1 fun S => ?_
        refine .bind (.ensure (reducesToType_below h S) _) fun _ => ?_
        refine .bind (.ensure (convertible_below h B D) _) fun _ => ?_
        exact (hbody _).2 C
    · refine .bind (hinfer Γ) fun B => .bind (.refl _) fun _ => ?_
      exact .ensure (convertible_below h _ _) _

theorem typing_below (h : n ≤ m) (t : Term) : σ.TypedBelow n m t := by
  induction t with
  | appl f a ihf iha =>
      refine typedBelow_of_infer h (fun Γ => ?_) (by simp)
      rw [infer, infer]
      refine .bind (.refl _) fun _ => .bind (ihf Γ).1 fun F => ?_
      refine .bind (.lift (whnf_below h F)) fun F' => ?_
      split
      · next A B => exact .bind ((iha Γ).2 A) fun _ => .refl _
      · exact .refl _
  | prod x A B ihA ihB =>
      refine typedBelow_of_infer h (fun Γ => ?_) (by simp)
      rw [infer, infer]
      refine .bind (.refl _) fun _ => .bind (ihA Γ).1 fun S => ?_
      refine .bind (.ensure (reducesToType_below h S) _) fun _ => ?_
      refine .bind (ihB _).1 fun S' => ?_
      exact .bind (.lift (whnf_below h S')) fun _ => .refl _
  | abst x ann body ihann ihbody =>
      refine typedBelow_of_infer h (fun Γ => ?_) fun y ann' body' heq => ?_
      · rw [infer, infer]
        refine .bind (.refl _) fun _ => ?_
        split
        · exact .refl _
        · next A hA =>
          refine .bind (ihann A (Term.eq_some_of_informative? hA) Γ).1 fun S => ?_
          refine .bind (.ensure (reducesToType_below h S) _) fun _ => ?_
          exact .bind (ihbody _).1 fun _ => .refl _
      · obtain ⟨-, rfl, rfl⟩ := Term.abst.inj heq
        exact ⟨ihann, ihbody⟩
  | _ =>
      refine typedBelow_of_infer h (fun Γ => ?_) (by simp)
      rw [infer, infer]
      exact .refl _

end Signature

/-! ## A type and its weak head normal form -/

theorem Term.equals_self (t : Term) : t.equals t = true := by
  rw [equals_eq_allEqual]
  exact Comparison.allEqual_self 0 t

theorem Term.compareArgs_self {depth : Nat} {args : List Term} :
    ∀ c ∈ compareArgs depth args args, c.left = c.right := by
  induction args with
  | nil => exact fun c hc => absurd hc List.not_mem_nil
  | cons a args ih => exact List.forall_mem_cons.2 ⟨rfl, ih⟩

/-- Comparing a term with itself leaves to compare its parts with themselves. -/
theorem Term.sameHead_self (depth : Nat) (t : Term) :
    ∃ parts, t.sameHead depth t = some parts ∧ ∀ c ∈ parts, c.left = c.right := by
  cases t with
  | symb s => exact ⟨[], if_pos rfl, fun c hc => absurd hc List.not_mem_nil⟩
  | bvar n x => exact ⟨[], if_pos rfl, fun c hc => absurd hc List.not_mem_nil⟩
  | abst x A t =>
      refine ⟨_, rfl, List.forall_mem_append.2 ⟨?_, List.forall_mem_singleton.2 rfl⟩⟩
      unfold compareAnns
      cases informative? A with
      | none => exact fun c hc => absurd hc List.not_mem_nil
      | some A => exact List.forall_mem_singleton.2 rfl
  | mvar m args => exact ⟨_, if_pos ⟨rfl, rfl⟩, compareArgs_self⟩
  | _ => exact ⟨_, rfl, by simp⟩

namespace Signature

variable {σ : Signature}

theorem Answers.of_same {cs : List Comparison} (h : ∀ c ∈ cs, c.left = c.right) :
    σ.Answers cs true := by
  induction cs with
  | nil => exact .nil
  | cons c cs ih =>
      obtain ⟨hc, hcs⟩ := List.forall_mem_cons.1 h
      refine .of_equals ?_ (ih hcs)
      rw [hc]
      exact Term.equals_self c.right

theorem eq_true_of_convertible_self {budget : Nat} {t : Term} {b : Bool}
    (h : (σ.convertible budget t t).value = some b) : b = true :=
  Answers.unique ⟨budget, h⟩ (.of_same (List.forall_mem_singleton.2 rfl))

section

variable {P : Rule → Prop} (hσ : σ.Reachable P)
  (hinj : ∀ s, σ.isInjective s = true → σ.isConstant s = true ∨ σ.rulesOf s = [])

include hσ hinj

/-- An injective symbol is never reduced. -/
theorem stuck_of_isInjective {s : Symbol} (h : σ.isInjective s = true) (args : List Term) :
    σ.Stuck (.symb s) args := by
  rcases hinj s h with hconst | hrules
  · exact stuck_symb_iff.2 ⟨0, fireWith_of_constant hconst _ args⟩
  · exact stuck_of_no_rules hσ hrules args

/-- A term is convertible with its weak head normal form. -/
theorem answers_whnf {t u : Term} (h : σ.Whnf t u) : σ.Answers [⟨t, u, 0⟩] true := by
  by_cases heq : t.equals u = true
  · exact .of_equals heq .nil
  · have hnone : σ.injectiveParts? ⟨t, u, 0⟩ = none := by
      unfold injectiveParts?
      split
      · next s as _ bs ht _ =>
        refine if_neg fun hs => ?_
        -- the term is stuck, so it is its own weak head normal form
        have hstuck := stuck_of_isInjective hσ hinj hs.2.2 as
        have hself : σ.Whnf t t := by
          refine Stuck.whnf ?_
          dsimp only at ht
          rwa [ht]
        exact heq (hself.unique h ▸ t.equals_self)
      · rfl
    obtain ⟨parts, hsame, hparts⟩ := u.sameHead_self 0
    have hwhnf : σ.whnfParts? 0 u u = some parts.reverse := by rw [whnfParts?, hsame]
    refine .of_whnfParts heq hnone h h.fixed hwhnf (.of_same fun c hc => ?_)
    rw [List.append_nil, List.mem_reverse] at hc
    exact hparts c hc

end

end Signature

/-! ## Checking -/

/-- A test that cannot fail ends well, if it ends. -/
theorem Typed.ensure_of_forall {x : Traced Bool} {e : TypingError} {r : Except TypingError Unit}
    (h : (ensure x e).run.value = some r) (hx : ∀ b, x.value = some b → b = true) : r = .ok () := by
  obtain ⟨b, hb, h⟩ := Typed.bind_lift h
  obtain rfl := hx b hb
  exact (Option.some.inj h).symm

theorem Typed.bind_ensure_of_forall {α : Type} {x : Traced Bool} {e : TypingError}
    {f : Unit → Typed α} {r : Except TypingError α} (h : (ensure x e >>= f).run.value = some r)
    (hx : ∀ b, x.value = some b → b = true) : (f ()).run.value = some r := by
  rw [ExceptT.run_bind, Traced.value_bind] at h
  obtain ⟨q, hq, h⟩ := Option.bind_eq_some_iff.1 h
  obtain rfl := Typed.ensure_of_forall hq hx
  exact h

namespace Signature

section

variable {σ : Signature} {P : Rule → Prop} (hσ : σ.Reachable P)
  (hinj : ∀ s, σ.isInjective s = true → σ.isConstant s = true ∨ σ.rulesOf s = [])
  {budget : Nat} {Γ : Context}

theorem Whnf.prod (x : Option String) (A B : Term) : σ.Whnf (.prod x A B) (.prod x A B) :=
  Stuck.whnf (stuck_iff_headStep?.2 ⟨0, rfl⟩)

theorem eq_of_whnf_prod {x : Option String} {A B u : Term}
    (h : (σ.whnf budget (.prod x A B)).value = some u) : u = .prod x A B :=
  Whnf.unique ⟨budget, h⟩ (.prod x A B)

include hσ hinj

/-- The inferred type of a term that is no abstraction is convertible with its weak head normal
form. -/
theorem check_compares {t T : Term} {r : Except TypingError Unit}
    (ht : ∀ x ann body, t ≠ .abst x ann body)
    (hinfer : (σ.infer budget Γ t).run.value = some (.ok T))
    (hcheck : (σ.check budget Γ t T).run.value = some r) : r = .ok () := by
  rw [check] at hcheck
  obtain ⟨-, -, hcheck⟩ := Typed.bind_lift hcheck
  split at hcheck
  · cases t with
    | mvar m args =>
        rw [infer] at hinfer
        cases hinfer
    | _ => contradiction
  · obtain ⟨T', hT', hcheck⟩ := Typed.bind_lift hcheck
    split at hcheck
    · exact absurd rfl (ht _ _ _)
    · rw [Typed.run_bind_of_ok hinfer] at hcheck
      obtain ⟨-, -, hcheck⟩ := Typed.bind_lift hcheck
      refine Typed.ensure_of_forall hcheck fun b hb => ?_
      exact Answers.unique ⟨budget, hb⟩ (answers_whnf hσ hinj ⟨budget, hT'⟩)

theorem check_of_infer {t T : Term} {r : Except TypingError Unit}
    (hinfer : (σ.infer budget Γ t).run.value = some (.ok T))
    (hcheck : (σ.check budget Γ t T).run.value = some r) : r = .ok () := by
  induction t generalizing Γ T r with
  | abst x ann body _ ih =>
      cases Inferred.of_infer hinfer with
      | abst hA hS htype hB _ =>
          rw [check] at hcheck
          obtain ⟨-, -, hcheck⟩ := Typed.bind_lift hcheck
          rw [if_neg (by simp [Term.isMetaVariable])] at hcheck
          obtain ⟨T', hT', hcheck⟩ := Typed.bind_lift hcheck
          obtain rfl := eq_of_whnf_prod hT'
          dsimp only at hcheck
          split at hcheck
          · next hnone =>
            rw [hnone] at hA
            cases hA
          · next A' hA' =>
            obtain rfl := Option.some.inj (hA.symm.trans hA')
            rw [Typed.run_bind_of_ok hS] at hcheck
            -- the annotation is of type `Type` as before, and convertible with itself
            have hbody := Typed.bind_ensure_of_forall hcheck fun b hb =>
              Option.some.inj (hb.symm.trans (reducesToType_iff.2 htype))
            have hbody := Typed.bind_ensure_of_forall hbody fun b hb =>
              eq_true_of_convertible_self hb
            exact ih hB hbody
  | _ => exact check_compares hσ hinj (by simp) hinfer hcheck

end

/-- If every injective symbol is constant or has no rules, a term passes the check against the type
that is inferred for it, once the check ends. -/
theorem check_inferred {σ : Signature} {P : Rule → Prop} (hσ : σ.Reachable P)
    (hinj : ∀ s, σ.isInjective s = true → σ.isConstant s = true ∨ σ.rulesOf s = [])
    {n m : Nat} {Γ : Context} {t T : Term} {r : Except TypingError Unit}
    (hinfer : (σ.infer n Γ t).run.value = some (.ok T))
    (hcheck : (σ.check m Γ t T).run.value = some r) : r = .ok () := by
  have hinfer' := (typing_below (Nat.le_max_left n m) t Γ).1 _ hinfer
  have hcheck' := (typing_below (Nat.le_max_right n m) t Γ).2 T _ hcheck
  exact check_of_infer hσ hinj hinfer' hcheck'

/-- The definition `endo := nat -> nat`, with `nat` injective. -/
def injectiveEndo : Signature :=
  endo.declareInjective ⟨"nat"⟩

/-- The identity on `endo`: its body is checked against `endo`, which is unfolded. -/
def endoIdentity : Term :=
  .abst "x" (some (.symb ⟨"endo"⟩)) (.bvar 0 none)

theorem check_inferred_endo :
    injectiveEndo.Reachable Rule.Admissible
      ∧ injectiveEndo.isInjective ⟨"nat"⟩ = true
      ∧ (∀ s, injectiveEndo.isInjective s = true →
        injectiveEndo.isConstant s = true ∨ injectiveEndo.rulesOf s = [])
      ∧ (injectiveEndo.infer 2 [] endoIdentity).run.value
        = some (.ok (.prod (some "x") (.symb ⟨"endo"⟩) (.symb ⟨"endo"⟩)))
      ∧ ∃ r, (injectiveEndo.check 9 [] endoIdentity
          (.prod (some "x") (.symb ⟨"endo"⟩) (.symb ⟨"endo"⟩))).run.value = some r
        ∧ r = .ok () := by
  have hreach : injectiveEndo.Reachable Rule.Admissible := .declareInjective _ reachable_endo
  have hinj : ∀ s, injectiveEndo.isInjective s = true →
      injectiveEndo.isConstant s = true ∨ injectiveEndo.rulesOf s = [] := by
    intro s hs
    refine Or.inr ?_
    by_cases hnat : s = ⟨"nat"⟩
    · subst hnat
      cbv
    · -- no other symbol is injective
      rw [isInjective, ruleSet?, injectiveEndo, declareInjective, Table.find?_enter_of_ne hnat] at hs
      by_cases hendo : s = ⟨"endo"⟩ <;> simp [endo, Table.find?, hendo, RuleSet.ofRules] at hs
  have hinfer : (injectiveEndo.infer 2 [] endoIdentity).run.value
      = some (.ok (.prod (some "x") (.symb ⟨"endo"⟩) (.symb ⟨"endo"⟩))) := by cbv
  obtain ⟨r, hcheck⟩ : ∃ r, (injectiveEndo.check 9 [] endoIdentity
      (.prod (some "x") (.symb ⟨"endo"⟩) (.symb ⟨"endo"⟩))).run.value = some r := ⟨_, by cbv⟩
  exact ⟨hreach, by cbv, hinj, hinfer, r, hcheck, check_inferred hreach hinj hinfer hcheck⟩

/-- The rule `c a --> c b`. -/
def argumentRule : Rule :=
  ⟨"argument", ⟨"c"⟩, [.symb ⟨"a"⟩], .appl (.symb ⟨"c"⟩) (.symb ⟨"b"⟩)⟩

/-- A signature with that rule for an injective symbol. -/
def injectiveRule : Signature :=
  declareInjective
    { entries := [(⟨"c"⟩, ⟨.type, false, false⟩)]
      ruleSets := [(⟨"c"⟩, .ofRules [argumentRule])] } ⟨"c"⟩

/-- An injective symbol must not have rules: here a variable of type `c a` is refused as one of type
`c a`, since `c a` is reduced to `c b` and then `a` is compared with `b`. -/
theorem check_refuses_inferred :
    injectiveRule.Reachable Rule.Admissible ∧ ∃ Γ t T e,
      (injectiveRule.infer 9 Γ t).run.value = some (.ok T)
      ∧ (injectiveRule.check 9 Γ t T).run.value = some (.error e) := by
  refine ⟨.declareInjective _ ?_, [⟨some "x", some (.appl (.symb ⟨"c"⟩) (.symb ⟨"a"⟩))⟩],
    .bvar 0 none, .appl (.symb ⟨"c"⟩) (.symb ⟨"a"⟩), _, by cbv, by cbv⟩
  have hdeclared : Signature.Reachable Rule.Admissible
      { entries := [(⟨"c"⟩, ⟨.type, false, false⟩)] } :=
    .declare .empty (show ({} : Signature).declare ⟨"c"⟩ .type false = .ok _ from rfl)
  exact .addRule hdeclared (Or.inl ⟨"argument", argumentRule.lhs, argumentRule.rhs, by cbv⟩)
    (show Signature.addRule _ argumentRule = _ by cbv)

end Signature

end LambdaPi
