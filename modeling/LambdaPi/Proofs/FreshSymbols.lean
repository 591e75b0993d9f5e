import Mathlib
import LambdaPi.Proofs.CachedTrees
import LambdaPi.Proofs.Namespaces

/-!
# Nothing changes for those who do not mention a symbol

A symbol that occurs in no declared type and in no rule can be declared, proven, flagged and given
rules without any effect on terms that do not mention it: they reduce, compare and are typed as before
(`Signature.fresh_symbol_conservative`).

Two things make this so. Changes about one symbol leave everything that the signature says about the
others alone (`Signature.AgreesOff`), which is a step lemma for each change and an induction over the
changes. And a signature that avoids the symbol is like itself for the likeness of being the same and
not mentioning the symbol: so the symbol turns up in no term that evaluation or typing comes across,
and what is computed on both sides is the same.
-/

namespace LambdaPi

/-! ## Being the same -/

section

variable {α β : Type}

theorem forall₂_eq {R : α → α → Prop} {as bs : List α} (hR : ∀ a ∈ as, ∀ b, R a b → a = b)
    (h : List.Forall₂ R as bs) : as = bs := by
  induction h with
  | nil => rfl
  | @cons a b as bs hab _ ih =>
      rw [hR a (List.mem_cons_self ..) b hab, ih fun a ha => hR a (List.mem_cons_of_mem _ ha)]

theorem ExceptRel.eq {E : α → α → Prop} {R : β → β → Prop} (hE : ∀ e d, E e d → e = d)
    (hR : ∀ a b, R a b → a = b) {x y : Except α β} (h : ExceptRel E R x y) : x = y := by
  cases h with
  | error he => rw [hE _ _ he]
  | ok hab => rw [hR _ _ hab]

end

section

variable {P : Symbol → Prop}

theorem Term.Like.eq_of_within {t u : Term} (h : t.Like (.within P) u) : t = u := by
  induction t generalizing u with
  | kind | type | joker =>
      cases h
      rfl
  | symb s =>
      cases h with
      | symb hs => rw [hs.1]
  | bvar n x =>
      cases h with
      | bvar hx =>
          obtain rfl : x = _ := hx
          rfl
  | appl f a ihf iha =>
      cases h with
      | appl hf ha => rw [ihf hf, iha ha]
  | prod x A B ihA ihB =>
      cases h with
      | prod hx hA hB =>
          obtain rfl : x = _ := hx
          rw [ihA hA, ihB hB]
  | abst x A t ihA iht =>
      cases h with
      | abst hx hA ht =>
          obtain rfl : x = _ := Option.some.inj hx
          cases hA with
          | none => rw [iht ht]
          | some hA => rw [ihA _ rfl hA, iht ht]
  | mvar m args ih =>
      cases h with
      | mvar hargs => rw [forall₂_eq (fun a ha b hab => ih a ha hab) hargs]

theorem Context.Like.eq_of_within {Γ Δ : Context} (h : Context.Like (.within P) Γ Δ) : Γ = Δ := by
  refine forall₂_eq ?_ h
  rintro ⟨x, A⟩ - ⟨y, B⟩ hgd
  obtain rfl : x = y := hgd.name
  obtain rfl : A = B := eq_of_rel (fun _ _ hAB => hAB.eq_of_within) hgd.type
  rfl

theorem TypingError.Like.eq_of_within {e d : TypingError} (h : e.Like (.within P) d) : e = d := by
  cases h with
  | kindNotTypable => rfl
  | domainNotType ht hΓ | codomainNotSort ht hΓ | domainFreeAbstraction ht hΓ
  | unexpectedKind ht hΓ | productExpected ht hΓ | typeNotFound ht hΓ | metaVariable ht hΓ =>
      rw [ht.eq_of_within, hΓ.eq_of_within]
  | joker hΓ => rw [hΓ.eq_of_within]
  | incompatibleAnn ht hA hB hΓ | unconvertible ht hA hB hΓ =>
      rw [ht.eq_of_within, hA.eq_of_within, hB.eq_of_within, hΓ.eq_of_within]
  | sortExpected ht => rw [ht.eq_of_within]

end

/-! ## Changes about one symbol -/

/-- The symbol that a change is about. -/
def Change.subject : Change → Symbol
  | declare s _ _ => s
  | addRule rule => rule.head
  | declareConstant s => s
  | declareInjective s => s
  | setProven s => s

namespace Signature

variable {P : Rule → Prop} {σ σ' τ : Signature} {s : Symbol}

/-- What becomes of a signature when changes are tried one after the other. A change that is refused
leaves the signature as it is. -/
def after (σ : Signature) (changes : List Change) : Signature :=
  changes.foldl (fun σ c => (c.apply σ).toOption.getD σ) σ

/-- The signatures say the same about all symbols but one. -/
structure AgreesOff (s : Symbol) (σ τ : Signature) : Prop where
  entry : ∀ t, t ≠ s → τ.entry? t = σ.entry? t
  ruleSet : ∀ t, t ≠ s → τ.ruleSet? t = σ.ruleSet? t
  eta : τ.eta = σ.eta

namespace AgreesOff

theorem refl (s : Symbol) (σ : Signature) : AgreesOff s σ σ :=
  ⟨fun _ _ => rfl, fun _ _ => rfl, rfl⟩

theorem trans (h : AgreesOff s σ σ') (h' : AgreesOff s σ' τ) : AgreesOff s σ τ :=
  ⟨fun t ht => (h'.entry t ht).trans (h.entry t ht),
    fun t ht => (h'.ruleSet t ht).trans (h.ruleSet t ht), h'.eta.trans h.eta⟩

theorem enterEntry (σ : Signature) (s : Symbol) (e : Entry) :
    AgreesOff s σ { σ with entries := σ.entries.enter s e } :=
  ⟨fun _ ht => Table.find?_enter_of_ne ht e σ.entries, fun _ _ => rfl, rfl⟩

theorem enterRuleSet (σ : Signature) (s : Symbol) (r : RuleSet) :
    AgreesOff s σ { σ with ruleSets := σ.ruleSets.enter s r } :=
  ⟨fun _ _ => rfl, fun _ ht => Table.find?_enter_of_ne ht r σ.ruleSets, rfl⟩

end AgreesOff

/-- One change touches nothing but its subject. -/
theorem agreesOff_apply {c : Change} (h : c.apply σ = .ok σ') : AgreesOff c.subject σ σ' := by
  cases c with
  | declare s A obligation =>
      change σ.declare s A obligation = .ok σ' at h
      unfold Signature.declare at h
      split at h
      · cases h
      · obtain rfl := Except.ok.inj h
        exact .enterEntry ..
  | addRule rule =>
      change σ.addRule rule = .ok σ' at h
      unfold Signature.addRule at h
      split at h
      · split at h
        · cases h
        · obtain rfl := Except.ok.inj h
          exact .enterRuleSet ..
      · cases h
  | declareConstant s =>
      obtain rfl := Except.ok.inj h
      exact .enterRuleSet ..
  | declareInjective s =>
      obtain rfl := Except.ok.inj h
      exact .enterRuleSet ..
  | setProven s =>
      change σ.setProven s = .ok σ' at h
      unfold Signature.setProven at h
      split at h
      · cases h
      · obtain rfl := Except.ok.inj h
        exact .enterEntry ..

/-- Nor do any number of changes about it. -/
theorem agreesOff_after {changes : List Change} (h : ∀ c ∈ changes, c.subject = s) :
    AgreesOff s σ (σ.after changes) := by
  induction changes generalizing σ with
  | nil => exact .refl s σ
  | cons c changes ih =>
      obtain ⟨hc, hchanges⟩ := List.forall_mem_cons.1 h
      refine AgreesOff.trans ?_ (ih hchanges)
      dsimp only
      cases happly : c.apply σ with
      | error e => exact .refl s σ
      | ok σ' => exact hc ▸ agreesOff_apply happly

/-! ## Signatures that avoid a symbol -/

/-- The symbol occurs in no declared type and in no rule. -/
structure Avoids (σ : Signature) (s : Symbol) : Prop where
  types : ∀ t A, σ.typeOf? t = some A → ¬ A.Has (.symb s)
  rules : ∀ t, ∀ rule ∈ σ.rulesOf t, ¬ rule.lhs.Has (.symb s) ∧ ¬ rule.rhs.Has (.symb s)

end Signature

theorem Term.like_of_not_has {s : Symbol} {t : Term} (h : ¬ t.Has (.symb s)) :
    t.Like (.within (· ≠ s)) t :=
  like_within fun _ hu hus => h (hus ▸ hu)

theorem Rule.like_of_not_has {s : Symbol} {rule : Rule} (hlhs : ¬ rule.lhs.Has (.symb s))
    (hrhs : ¬ rule.rhs.Has (.symb s)) : rule.Like (.within (· ≠ s)) rule := by
  rw [Rule.lhs, Term.has_apply, not_or] at hlhs
  obtain ⟨hhead, hargs⟩ := hlhs
  refine ⟨rfl, ⟨rfl, ?_⟩, List.forall₂_same.2 fun a ha => ?_, Term.like_of_not_has hrhs⟩
  · rintro rfl
    exact hhead ((Term.has_symb _).2 rfl)
  · exact Term.like_of_not_has fun hs => hargs ⟨a, ha, hs⟩

namespace Signature

variable {P : Rule → Prop} {σ τ : Signature} {s : Symbol}

/-- What a signature says about other symbols than one that it avoids does not mention that symbol,
neither in rules nor in the trees made of them. -/
theorem Reachable.like_off (hσ : σ.Reachable P) (hs : σ.Avoids s) (h : AgreesOff s σ τ) :
    σ.Like (.within (· ≠ s)) τ := by
  refine ⟨?_, ?_, h.eta.symm⟩
  · rintro t _ ⟨rfl, ht⟩
    rw [h.entry t ht]
    cases he : σ.entry? t with
    | none => exact .none
    | some e =>
        have htype : σ.typeOf? t = some e.type := by rw [typeOf?, he]; rfl
        exact .some ⟨Term.like_of_not_has (hs.types t _ htype), rfl, rfl⟩
  · rintro t _ ⟨rfl, ht⟩
    rw [h.ruleSet t ht]
    have htrees := (hσ.coherent t).trees
    have hrules := hs.rules t
    unfold rulesOf at hrules
    cases hr : σ.ruleSet? t with
    | none => exact .none
    | some r =>
        rw [hr, Option.getD_some] at htrees hrules
        have hlike : List.Forall₂ (Rule.Like (.within (· ≠ s))) r.rules r.rules :=
          List.forall₂_same.2 fun rule hrule =>
            Rule.like_of_not_has (hrules rule hrule).1 (hrules rule hrule).2
        refine .some ⟨hlike, rfl, rfl, ?_⟩
        rcases htrees with ⟨-, hnil⟩ | htrees
        · rw [hnil]
          exact .nil
        · rw [htrees]
          exact treesOf_like hlike

/-- Declaring, proving and flagging a symbol that occurs in no type and no rule, and giving it rules,
makes no difference to terms, types and contexts that do not mention it: within any budget, they have
the same weak head normal forms and normal forms, are convertible or not, and have the same types, or
are refused with the same error. -/
theorem fresh_symbol_conservative (hσ : σ.Reachable P) (hs : σ.Avoids s) (changes : List Change)
    (hchanges : ∀ c ∈ changes, c.subject = s) (budget : Nat) :
    (∀ t, ¬ t.Has (.symb s) →
      ((σ.after changes).whnf budget t).value = (σ.whnf budget t).value ∧
      ((σ.after changes).nf budget t).value = (σ.nf budget t).value) ∧
    (∀ t u, ¬ t.Has (.symb s) → ¬ u.Has (.symb s) →
      ((σ.after changes).convertible budget t u).value = (σ.convertible budget t u).value) ∧
    ∀ Γ : Context, (∀ A ∈ Γ.filterMap (·.type), ¬ A.Has (.symb s)) → ∀ t, ¬ t.Has (.symb s) →
      ((σ.after changes).infer budget Γ t).run.value = (σ.infer budget Γ t).run.value ∧
      ∀ A, ¬ A.Has (.symb s) →
        ((σ.after changes).check budget Γ t A).run.value = (σ.check budget Γ t A).run.value := by
  have hlike := hσ.like_off hs (agreesOff_after hchanges)
  have heval := hlike.evaluation budget
  refine ⟨fun t ht => ?_, fun t u ht hu => ?_, fun Γ hΓ t ht => ?_⟩
  · have ht := Term.like_of_not_has ht
    refine ⟨(eq_of_rel (fun _ _ h => h.eq_of_within) (heval.whnf ht)).symm, ?_⟩
    exact (eq_of_rel (fun _ _ h => h.eq_of_within) (heval.nf ht)).symm
  · have ht := Term.like_of_not_has ht
    have hu := Term.like_of_not_has hu
    exact (eq_of_rel (fun _ _ h => h) (heval.convertible ht hu)).symm
  · have ht := Term.like_of_not_has ht
    have hΓ := Context.like_within fun A hA => Term.like_of_not_has (hΓ A hA)
    refine ⟨?_, fun A hA => ?_⟩
    · refine (eq_of_rel (fun _ _ h => ?_) (hlike.infer budget ht hΓ)).symm
      exact h.eq (fun _ _ he => he.eq_of_within) fun _ _ hA => hA.eq_of_within
    · have hA := Term.like_of_not_has hA
      refine (eq_of_rel (fun _ _ h => ?_) (hlike.check budget ht hΓ hA)).symm
      exact h.eq (fun _ _ he => he.eq_of_within) fun _ _ hu => hu

/-- Avoiding a symbol can be read off the tables. -/
theorem avoids_of_tables (hentries : ∀ p ∈ σ.entries, ¬ p.2.type.Has (.symb s))
    (hrules : ∀ p ∈ σ.ruleSets, ∀ rule ∈ p.2.rules,
      ¬ rule.lhs.Has (.symb s) ∧ ¬ rule.rhs.Has (.symb s)) : σ.Avoids s := by
  constructor
  · intro t A htype
    obtain ⟨e, he, rfl⟩ := Option.map_eq_some_iff.1 htype
    exact hentries (t, e) (Table.mem_of_find? he)
  · intro t rule hrule
    unfold rulesOf at hrule
    cases hr : σ.ruleSet? t with
    | none =>
        rw [hr] at hrule
        exact absurd hrule List.not_mem_nil
    | some r =>
        rw [hr] at hrule
        exact hrules (t, r) (Table.mem_of_find? hr) rule hrule

/-- The rule `twice X --> X`. -/
def twiceRule : Rule :=
  ⟨"twice", ⟨"twice"⟩, [.mvar (some (.named "X")) []], .mvar (some (.named "X")) []⟩

/-- A new symbol is declared, gets a rule and both flags and is proven. Declaring it again is
refused. -/
def twiceChanges : List Change :=
  [.declare ⟨"twice"⟩ (.appl (.symb ⟨"twice"⟩) (.symb ⟨"endo"⟩)) true, .addRule twiceRule,
   .declareInjective ⟨"twice"⟩, .declare ⟨"twice"⟩ .type false, .declareConstant ⟨"twice"⟩,
   .setProven ⟨"twice"⟩]

theorem fresh_symbol_conservative_twice :
    (endo.after twiceChanges).declares ⟨"twice"⟩ = true ∧
    ((endo.after twiceChanges).nf 9 (.symb ⟨"endo"⟩)).value =
      some (Term.arrow (.symb ⟨"nat"⟩) (.symb ⟨"nat"⟩)) ∧
    ((endo.after twiceChanges).check 9 [] (.abst "x" none (.bvar 0 none)) (.symb ⟨"endo"⟩)).run.value
      = some (.ok ()) := by
  have havoids : endo.Avoids ⟨"twice"⟩ := avoids_of_tables (by decide) (by decide)
  obtain ⟨hreduce, -, htyping⟩ := fresh_symbol_conservative reachable_endo havoids twiceChanges
    (by decide) 9
  refine ⟨by cbv, (hreduce (.symb ⟨"endo"⟩) (by decide)).2.trans (by cbv), ?_⟩
  have htyped := (htyping [] (by simp) (.abst "x" none (.bvar 0 none)) (by decide)).2
  exact (htyped (.symb ⟨"endo"⟩) (by decide)).trans (by cbv)

end Signature

end LambdaPi
