import Mathlib
import LambdaPi.Proofs.ConversionSound
import LambdaPi.Typing.Check

/-!
# The type checker is sound

The typing rules of the λΠ-calculus modulo rewriting, with the conversion of a signature as the
equality of types, and the proof that what the checker accepts is derivable: a type that is inferred
is a type of the term, and a term that passes a check has the type it was checked against.

What the checker does with one layer of a term is said once (`Signature.infer_ok_iff`,
`Signature.check_ok_iff`), in terms of what it finds about the parts. Soundness is an induction over
terms from there.

An abstraction can be typed in two ways. With an annotation it has the product over that annotation;
without one it has any product whose codomain types the body, and an annotation may then be given if
it agrees with the domain. An annotation that is a joker counts as none.
-/

namespace LambdaPi

/-! ## Typing rules -/

/-- The sorts: types are of sort `Type`, and kinds of sort `Kind`. -/
def Term.IsSort (t : Term) : Prop :=
  t = .type ∨ t = .kind

/-- Typing in a signature. -/
inductive Signature.HasType (σ : Signature) : Context → Term → Term → Prop
  | type {Γ} : HasType σ Γ .type .kind
  | symb {Γ s A} : σ.typeOf? s = some A → HasType σ Γ (.symb s) A
  | bvar {Γ n x y A} : Γ[n]? = some ⟨y, some A⟩ → HasType σ Γ (.bvar n x) (A.lift (n + 1))
  | prod {Γ x A B S} : HasType σ Γ A .type → HasType σ (Γ.bind x (some A)) B S → S.IsSort →
      HasType σ Γ (.prod x A B) S
  | annotated {Γ x A t B} : HasType σ Γ A .type → HasType σ (Γ.bind (some x) (some A)) t B →
      B ≠ .kind → HasType σ Γ (.abst x (some A) t) (.prod (some x) A B)
  | abst {Γ x y ann D t C} :
      (∀ A, Term.informative? ann = some A → HasType σ Γ A .type) →
      (∀ A, Term.informative? ann = some A → σ.Conv A D) →
      HasType σ (Γ.bind (some x) (some D)) t C → HasType σ Γ (.abst x ann t) (.prod y D C)
  | appl {Γ f a x D C} : HasType σ Γ f (.prod x D C) → HasType σ Γ a D →
      HasType σ Γ (.appl f a) (C.subst a)
  | conv {Γ t A B} : HasType σ Γ t A → σ.Conv A B → HasType σ Γ t B

/-! ## Computations that may find a typing error -/

namespace Typed

variable {α β : Type}

theorem bind_ok {x : Typed α} {f : α → Typed β} {b : β}
    (h : (x >>= f).run.value = some (.ok b)) :
    ∃ a, x.run.value = some (.ok a) ∧ (f a).run.value = some (.ok b) := by
  rw [ExceptT.run_bind, Traced.value_bind] at h
  obtain ⟨a?, ha, h⟩ := Option.bind_eq_some_iff.mp h
  cases a? with
  | error e => cases h
  | ok a => exact ⟨a, ha, h⟩

theorem bind_lift {x : Traced α} {f : α → Typed β} {r : Except TypingError β}
    (h : ((liftM x : Typed α) >>= f).run.value = some r) :
    ∃ a, x.value = some a ∧ (f a).run.value = some r := by
  have hlift : (liftM x : Typed α).run.value = x.value.bind fun a => some (.ok a) :=
    Traced.value_bind x (pure ∘ Except.ok)
  rw [ExceptT.run_bind, Traced.value_bind, hlift, Option.bind_assoc] at h
  exact Option.bind_eq_some_iff.mp h

theorem ensure_ok {x : Traced Bool} {e : TypingError}
    (h : (ensure x e).run.value = some (.ok ())) : x.value = some true := by
  obtain ⟨b, hb, h⟩ := bind_lift h
  cases b with
  | false => cases h
  | true => exact hb

theorem run_bind_of_ok {x : Typed α} {a : α} (h : x.run.value = some (.ok a)) (f : α → Typed β) :
    (x >>= f).run.value = (f a).run.value := by
  rw [ExceptT.run_bind, Traced.value_bind, h]
  rfl

theorem run_bind_lift_of_value {x : Traced α} {a : α} (h : x.value = some a) (f : α → Typed β) :
    ((liftM x : Typed α) >>= f).run.value = (f a).run.value := by
  refine run_bind_of_ok ?_ f
  exact (Traced.value_bind x (pure ∘ Except.ok)).trans (by rw [h]; rfl)

theorem run_emit_bind (e : Event) (f : Unit → Typed β) :
    ((liftM (Traced.emit e) : Typed Unit) >>= f).run.value = (f ()).run.value :=
  run_bind_lift_of_value rfl f

theorem run_ensure_bind {x : Traced Bool} (h : x.value = some true) (e : TypingError)
    (f : Unit → Typed β) : (ensure x e >>= f).run.value = (f ()).run.value :=
  run_bind_of_ok (run_bind_lift_of_value h _) f

end Typed

/-! ## One layer of a term -/

namespace Signature

/-- What is inferred for a term, by what is found about its parts. -/
inductive Inferred (σ : Signature) (budget : Nat) (Γ : Context) : Term → Term → Prop
  | type : Inferred σ budget Γ .type .kind
  | symb {s A} : σ.typeOf? s = some A → Inferred σ budget Γ (.symb s) A
  | bvar {n x A} : Γ.typeOf? n = some A → Inferred σ budget Γ (.bvar n x) A
  | appl {f a F x D C} : (σ.infer budget Γ f).run.value = some (.ok F) →
      (σ.whnf budget F).value = some (.prod x D C) →
      (σ.check budget Γ a D).run.value = some (.ok ()) →
      Inferred σ budget Γ (.appl f a) (C.subst a)
  | prod {x A B S S' T} : (σ.infer budget Γ A).run.value = some (.ok S) →
      (σ.whnf budget S).value = some .type →
      (σ.infer budget (Γ.bind x (some A)) B).run.value = some (.ok S') →
      (σ.whnf budget S').value = some T → T.IsSort → Inferred σ budget Γ (.prod x A B) T
  | abst {x ann A S t B} : Term.informative? ann = some A →
      (σ.infer budget Γ A).run.value = some (.ok S) → (σ.whnf budget S).value = some .type →
      (σ.infer budget (Γ.bind (some x) (some A)) t).run.value = some (.ok B) → B ≠ .kind →
      Inferred σ budget Γ (.abst x ann t) (.prod (some x) A B)

/-- Which checks pass, by what is found about the parts of a term: an abstraction is checked against
a product by checking its body, and for all else the inferred type is compared. -/
inductive Checked (σ : Signature) (budget : Nat) (Γ : Context) : Term → Term → Prop
  | abst {x ann t A y D C} : (σ.whnf budget A).value = some (.prod y D C) →
      (∀ B, Term.informative? ann = some B → ∃ S, (σ.infer budget Γ B).run.value = some (.ok S)
        ∧ (σ.whnf budget S).value = some .type ∧ (σ.convertible budget B D).value = some true) →
      (σ.check budget (Γ.bind (some x) (some D)) t C).run.value = some (.ok ()) →
      Checked σ budget Γ (.abst x ann t) A
  | compare {t A A' B} : (σ.whnf budget A).value = some A' →
      (∀ x ann body y D C, t = .abst x ann body → A' ≠ .prod y D C) →
      (σ.infer budget Γ t).run.value = some (.ok B) →
      (σ.convertible budget B A').value = some true → Checked σ budget Γ t A

section

variable {σ : Signature} {budget : Nat} {Γ : Context} {t T : Term}

theorem reducesToType_iff :
    (σ.reducesToType budget t).value = some true ↔ (σ.whnf budget t).value = some .type := by
  rw [reducesToType, Traced.value_bind]
  cases (σ.whnf budget t).value with
  | none => simp
  | some u => cases u <;> simp

theorem Inferred.of_infer (h : (σ.infer budget Γ t).run.value = some (.ok T)) :
    Inferred σ budget Γ t T := by
  cases t with
  | kind | joker | mvar =>
      rw [infer] at h
      cases h
  | type =>
      rw [infer] at h
      obtain rfl := Except.ok.inj (Option.some.inj h)
      exact .type
  | symb s =>
      rw [infer] at h
      obtain ⟨-, -, h⟩ := Typed.bind_lift h
      split at h
      · next A hA =>
        obtain rfl := Except.ok.inj (Option.some.inj h)
        exact .symb hA
      · cases h
  | bvar n x =>
      rw [infer] at h
      obtain ⟨-, -, h⟩ := Typed.bind_lift h
      split at h
      · next A hA =>
        obtain rfl := Except.ok.inj (Option.some.inj h)
        exact .bvar hA
      · cases h
  | appl f a =>
      rw [infer] at h
      obtain ⟨-, -, h⟩ := Typed.bind_lift h
      obtain ⟨F, hF, h⟩ := Typed.bind_ok h
      obtain ⟨F', hwhnf, h⟩ := Typed.bind_lift h
      split at h
      · next x D C =>
        obtain ⟨⟨⟩, hcheck, h⟩ := Typed.bind_ok h
        obtain rfl := Except.ok.inj (Option.some.inj h)
        exact .appl hF hwhnf hcheck
      · cases h
  | prod x A B =>
      rw [infer] at h
      obtain ⟨-, -, h⟩ := Typed.bind_lift h
      obtain ⟨S, hS, h⟩ := Typed.bind_ok h
      obtain ⟨⟨⟩, htype, h⟩ := Typed.bind_ok h
      have htype := reducesToType_iff.1 (Typed.ensure_ok htype)
      obtain ⟨S', hS', h⟩ := Typed.bind_ok h
      obtain ⟨S'', hwhnf, h⟩ := Typed.bind_lift h
      split at h
      · obtain rfl := Except.ok.inj (Option.some.inj h)
        exact .prod hS htype hS' hwhnf (.inl rfl)
      · obtain rfl := Except.ok.inj (Option.some.inj h)
        exact .prod hS htype hS' hwhnf (.inr rfl)
      · cases h
  | abst x ann body =>
      rw [infer] at h
      obtain ⟨-, -, h⟩ := Typed.bind_lift h
      split at h
      · cases h
      · next A hA =>
        obtain ⟨S, hS, h⟩ := Typed.bind_ok h
        obtain ⟨⟨⟩, htype, h⟩ := Typed.bind_ok h
        obtain ⟨B, hB, h⟩ := Typed.bind_ok h
        split at h
        · cases h
        · next hkind =>
          obtain rfl := Except.ok.inj (Option.some.inj h)
          exact .abst hA hS (reducesToType_iff.1 (Typed.ensure_ok htype)) hB hkind

theorem Checked.of_check (h : (σ.check budget Γ t T).run.value = some (.ok ())) :
    Checked σ budget Γ t T := by
  rw [check] at h
  obtain ⟨-, -, h⟩ := Typed.bind_lift h
  split at h
  · cases h
  · obtain ⟨T', hT', h⟩ := Typed.bind_lift h
    split at h
    · split at h
      · next hnone => exact .abst hT' (fun B hB => by cases hnone.symm.trans hB) h
      · next A hA =>
        obtain ⟨S, hS, h⟩ := Typed.bind_ok h
        obtain ⟨⟨⟩, htype, h⟩ := Typed.bind_ok h
        obtain ⟨⟨⟩, hconv, h⟩ := Typed.bind_ok h
        refine .abst hT' (fun B hB => ?_) h
        obtain rfl := Option.some.inj (hA.symm.trans hB)
        exact ⟨S, hS, reducesToType_iff.1 (Typed.ensure_ok htype), Typed.ensure_ok hconv⟩
    · next hne =>
      obtain ⟨B, hB, h⟩ := Typed.bind_ok h
      obtain ⟨-, -, h⟩ := Typed.bind_lift h
      exact .compare hT' hne hB (Typed.ensure_ok h)

theorem infer_ok_iff :
    (σ.infer budget Γ t).run.value = some (.ok T) ↔ Inferred σ budget Γ t T := by
  refine ⟨.of_infer, fun h => ?_⟩
  cases h with
  | type =>
      rw [infer]
      rfl
  | symb hA =>
      rw [infer, Typed.run_emit_bind, hA]
      rfl
  | bvar hA =>
      rw [infer, Typed.run_emit_bind, hA]
      rfl
  | appl hF hwhnf hcheck =>
      rw [infer, Typed.run_emit_bind, Typed.run_bind_of_ok hF,
        Typed.run_bind_lift_of_value hwhnf, Typed.run_bind_of_ok hcheck]
      rfl
  | prod hS htype hS' hwhnf hsort =>
      rw [infer, Typed.run_emit_bind, Typed.run_bind_of_ok hS,
        Typed.run_ensure_bind (reducesToType_iff.2 htype), Typed.run_bind_of_ok hS',
        Typed.run_bind_lift_of_value hwhnf]
      rcases hsort with rfl | rfl <;> rfl
  | abst hA hS htype hB hkind =>
      rw [infer, Typed.run_emit_bind]
      split
      · next hnone => cases hnone.symm.trans hA
      · next A' hA' =>
        obtain rfl := Option.some.inj (hA.symm.trans hA')
        rw [Typed.run_bind_of_ok hS, Typed.run_ensure_bind (reducesToType_iff.2 htype),
          Typed.run_bind_of_ok hB]
        split
        · exact absurd rfl hkind
        · rfl

theorem check_ok_iff :
    (σ.check budget Γ t T).run.value = some (.ok ()) ↔ Checked σ budget Γ t T := by
  refine ⟨.of_check, fun h => ?_⟩
  rw [check, Typed.run_emit_bind]
  cases h with
  | abst hT hann hbody =>
      rw [if_neg (by simp [Term.isMetaVariable]), Typed.run_bind_lift_of_value hT]
      dsimp only
      split
      · exact hbody
      · next B hB =>
        obtain ⟨S, hS, htype, hconv⟩ := hann B hB
        rw [Typed.run_bind_of_ok hS, Typed.run_ensure_bind (reducesToType_iff.2 htype),
          Typed.run_ensure_bind hconv]
        exact hbody
  | compare hT hne hB hconv =>
      have hmeta : ¬ t.isMetaVariable = true := by
        cases Inferred.of_infer hB <;> simp [Term.isMetaVariable]
      rw [if_neg hmeta, Typed.run_bind_lift_of_value hT]
      split
      · exact absurd rfl (hne _ _ _ _ _ _ rfl)
      · rw [Typed.run_bind_of_ok hB, Typed.run_emit_bind]
        exact Typed.run_bind_lift_of_value hconv _

end

end Signature

/-! ## Soundness -/

namespace Signature

section

variable {σ : Signature} {budget : Nat} (hσ : σ.Reachable Rule.Admissible)

include hσ

theorem conv_of_whnf {t u : Term} (h : (σ.whnf budget t).value = some u) : σ.Conv t u :=
  (contains_conv hσ fun _ => Rule.Admissible.regular).whnf hσ h

theorem conv_of_convertible {t u : Term} (h : (σ.convertible budget t u).value = some true) :
    σ.Conv t u :=
  (contains_conv hσ fun _ => Rule.Admissible.regular).convertible hσ h

end

/-- What the checker accepts about a term is derivable. -/
def Justified (σ : Signature) (budget : Nat) (t : Term) : Prop :=
  ∀ Γ T, ((σ.infer budget Γ t).run.value = some (.ok T) → σ.HasType Γ t T)
    ∧ ((σ.check budget Γ t T).run.value = some (.ok ()) → σ.HasType Γ t T)

section

variable {σ : Signature} {budget : Nat} (hσ : σ.Reachable Rule.Admissible)

include hσ

/-- If what is inferred for a term is derivable, so is what it is checked against: only under an
abstraction does the check look at the parts. -/
theorem justified_of_infer {t : Term}
    (hinfer : ∀ Γ T, Inferred σ budget Γ t T → σ.HasType Γ t T)
    (hparts : ∀ x ann body, t = .abst x ann body →
      (∀ A, ann = some A → σ.Justified budget A) ∧ σ.Justified budget body) :
    σ.Justified budget t := by
  refine fun Γ T => ⟨fun h => hinfer Γ T (.of_infer h), fun h => ?_⟩
  cases Checked.of_check h with
  | @abst x ann body _ y D C hT hann hbody =>
      refine .conv ?_ (.symm (conv_of_whnf hσ hT))
      obtain ⟨hA, hb⟩ := hparts x ann body rfl
      refine .abst (fun A hinf => ?_) (fun A hinf => ?_) ((hb _ C).2 hbody)
      · obtain ⟨S, hS, htype, -⟩ := hann A hinf
        exact .conv ((hA A (Term.eq_some_of_informative? hinf) Γ S).1 hS) (conv_of_whnf hσ htype)
      · obtain ⟨S, -, -, hconv⟩ := hann A hinf
        exact conv_of_convertible hσ hconv
  | compare hT _ hB hconv =>
      refine .conv ?_ (.symm (conv_of_whnf hσ hT))
      exact .conv (hinfer Γ _ (.of_infer hB)) (conv_of_convertible hσ hconv)

theorem justified (t : Term) : σ.Justified budget t := by
  induction t with
  | kind | joker | mvar => exact justified_of_infer hσ (by rintro Γ T ⟨⟩) (by simp)
  | type =>
      refine justified_of_infer hσ (fun Γ T h => ?_) (by simp)
      cases h with
      | type => exact .type
  | symb s =>
      refine justified_of_infer hσ (fun Γ T h => ?_) (by simp)
      cases h with
      | symb hA => exact .symb hA
  | bvar n x =>
      refine justified_of_infer hσ (fun Γ T h => ?_) (by simp)
      cases h with
      | bvar hA =>
          obtain ⟨⟨y, B?⟩, hn, hA⟩ := Option.bind_eq_some_iff.mp hA
          obtain ⟨B, rfl, hA⟩ := Option.bind_eq_some_iff.mp hA
          obtain rfl := Option.some.inj hA
          exact .bvar hn
  | appl f a ihf iha =>
      refine justified_of_infer hσ (fun Γ T h => ?_) (by simp)
      cases h with
      | appl hF hwhnf hcheck =>
          exact .appl (.conv ((ihf Γ _).1 hF) (conv_of_whnf hσ hwhnf)) ((iha Γ _).2 hcheck)
  | prod x A B ihA ihB =>
      refine justified_of_infer hσ (fun Γ T h => ?_) (by simp)
      cases h with
      | prod hS htype hS' hwhnf hsort =>
          have hdom : σ.HasType Γ A .type := .conv ((ihA Γ _).1 hS) (conv_of_whnf hσ htype)
          exact .prod hdom (.conv ((ihB _ _).1 hS') (conv_of_whnf hσ hwhnf)) hsort
  | abst x ann body ihann ihbody =>
      refine justified_of_infer hσ (fun Γ T h => ?_) fun y ann' body' h => ?_
      · cases h with
        | @abst _ _ A _ _ B hA hS htype hB hkind =>
            obtain rfl := Term.eq_some_of_informative? hA
            have hdom : σ.HasType Γ A .type :=
              .conv ((ihann A rfl Γ _).1 hS) (conv_of_whnf hσ htype)
            exact .annotated hdom ((ihbody _ B).1 hB) hkind
      · obtain ⟨-, rfl, rfl⟩ := Term.abst.inj h
        exact ⟨ihann, ihbody⟩

end

/-- A type that is inferred is a type of the term, and a term that passes a check has the type. -/
theorem typing_sound {σ : Signature} (hσ : σ.Reachable Rule.Admissible) (budget : Nat)
    (Γ : Context) (t T : Term) :
    ((σ.infer budget Γ t).run.value = some (.ok T) → σ.HasType Γ t T)
      ∧ ((σ.check budget Γ t T).run.value = some (.ok ()) → σ.HasType Γ t T) :=
  justified hσ t Γ T

/-- The definition `endo := nat -> nat`. -/
def endoRule : Rule :=
  .ofDefinition "endo" ⟨"endo"⟩ (Term.arrow (.symb ⟨"nat"⟩) (.symb ⟨"nat"⟩))

/-- A signature with that definition. -/
def endo : Signature where
  entries := [(⟨"nat"⟩, ⟨.type, false, false⟩), (⟨"endo"⟩, ⟨.type, false, false⟩)]
  ruleSets := [(⟨"endo"⟩, .ofRules [endoRule])]

theorem reachable_endo : endo.Reachable Rule.Admissible := by
  have hnat : Signature.Reachable Rule.Admissible
      { entries := [(⟨"nat"⟩, ⟨.type, false, false⟩)] } :=
    .declare .empty (show ({} : Signature).declare ⟨"nat"⟩ .type false = .ok _ from rfl)
  have hdeclared : Signature.Reachable Rule.Admissible { endo with ruleSets := [] } :=
    .declare hnat (show Signature.declare _ ⟨"endo"⟩ .type false = .ok _ by cbv)
  have hrule : endoRule.Admissible := Or.inr ⟨_, _, _, show Term.closed _ = true by cbv, rfl⟩
  exact .addRule hdeclared hrule (by cbv)

/-- The identity can only be checked, against a type that is a product after unfolding. -/
theorem typing_sound_endo :
    (endo.check 9 [] (.abst "x" none (.bvar 0 none)) (.symb ⟨"endo"⟩)).run.value = some (.ok ())
      ∧ endo.HasType [] (.abst "x" none (.bvar 0 none)) (.symb ⟨"endo"⟩) := by
  have hcheck : (endo.check 9 [] (.abst "x" none (.bvar 0 none)) (.symb ⟨"endo"⟩)).run.value
      = some (.ok ()) := by cbv
  exact ⟨hcheck, (typing_sound reachable_endo 9 _ _ _).2 hcheck⟩

end Signature

end LambdaPi
