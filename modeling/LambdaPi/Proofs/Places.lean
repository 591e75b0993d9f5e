import LambdaPi.Proofs.FreeVariables
import LambdaPi.Proofs.Spines

/-!
# Where subterms stand

What a variable means depends on the binders around it. `Term.places` lists the subterms of a term
like `Term.subterms`, each together with the number of binders it stands under. A free variable of a
term is one that it has at a place under fewer binders than its number (`Term.HasFree`).
-/

namespace LambdaPi

namespace Term

mutual

/-- All subterms of a term that stands under `k` binders, each with the number of binders around it,
in the order of `Term.subterms`. -/
def places (k : Nat) : Term → List (Nat × Term)
  | appl f a => (k, appl f a) :: (f.places k ++ a.places k)
  | prod x A B => (k, prod x A B) :: (A.places k ++ B.places (k + 1))
  | abst x A t => (k, abst x A t) :: (placesAnn k A ++ t.places (k + 1))
  | mvar m args => (k, mvar m args) :: placesArgs k args
  | t => [(k, t)]

/-- `Term.places` for an optional annotation. -/
def placesAnn (k : Nat) : Option Term → List (Nat × Term)
  | none => []
  | some A => A.places k

/-- `Term.places` for a list of arguments. -/
def placesArgs (k : Nat) : List Term → List (Nat × Term)
  | [] => []
  | t :: ts => t.places k ++ placesArgs k ts

end

section

variable {P : Nat × Term → Prop} {k : Nat}

theorem forall_placesAnn {A : Option Term} :
    (∀ p ∈ placesAnn k A, P p) ↔ ∀ B, A = some B → ∀ p ∈ B.places k, P p := by
  cases A <;> simp [placesAnn]

theorem forall_placesArgs {args : List Term} :
    (∀ p ∈ placesArgs k args, P p) ↔ ∀ a ∈ args, ∀ p ∈ a.places k, P p := by
  induction args with
  | nil => simp [placesArgs]
  | cons a args ih => rw [placesArgs, List.forall_mem_append, List.forall_mem_cons, ih]

theorem forall_places_appl {f a : Term} : (∀ p ∈ (appl f a).places k, P p)
    ↔ P (k, appl f a) ∧ (∀ p ∈ f.places k, P p) ∧ ∀ p ∈ a.places k, P p := by
  rw [places, List.forall_mem_cons, List.forall_mem_append]

theorem forall_places_prod {x : Option String} {A B : Term} : (∀ p ∈ (prod x A B).places k, P p)
    ↔ P (k, prod x A B) ∧ (∀ p ∈ A.places k, P p) ∧ ∀ p ∈ B.places (k + 1), P p := by
  rw [places, List.forall_mem_cons, List.forall_mem_append]

theorem forall_places_abst {x : String} {A : Option Term} {t : Term} :
    (∀ p ∈ (abst x A t).places k, P p) ↔ P (k, abst x A t)
      ∧ (∀ B, A = some B → ∀ p ∈ B.places k, P p) ∧ ∀ p ∈ t.places (k + 1), P p := by
  rw [places, List.forall_mem_cons, List.forall_mem_append, forall_placesAnn]

theorem forall_places_mvar {m : Option MetaName} {args : List Term} :
    (∀ p ∈ (mvar m args).places k, P p)
      ↔ P (k, mvar m args) ∧ ∀ a ∈ args, ∀ p ∈ a.places k, P p := by
  rw [places, List.forall_mem_cons, forall_placesArgs]

end

theorem mem_places_self (k : Nat) (t : Term) : (k, t) ∈ t.places k := by
  cases t <;> exact List.mem_cons_self ..

/-- What holds at all places of a term holds at all places of its subterms. -/
theorem forall_places_trans {P : Nat × Term → Prop} {t : Term} {k : Nat}
    (h : ∀ p ∈ t.places k, P p) : ∀ p ∈ t.places k, ∀ q ∈ p.2.places p.1, P q := by
  induction t generalizing k with
  | kind | type | symb | bvar | joker =>
      intro p hp
      obtain rfl := List.mem_singleton.mp hp
      exact h
  | appl f a ihf iha =>
      obtain ⟨-, hf, ha⟩ := forall_places_appl.mp h
      exact forall_places_appl.mpr ⟨h, ihf hf, iha ha⟩
  | prod x A B ihA ihB =>
      obtain ⟨-, hA, hB⟩ := forall_places_prod.mp h
      exact forall_places_prod.mpr ⟨h, ihA hA, ihB hB⟩
  | abst x A t ihA iht =>
      obtain ⟨-, hA, ht⟩ := forall_places_abst.mp h
      exact forall_places_abst.mpr ⟨h, fun B hB => ihA B hB (hA B hB), iht ht⟩
  | mvar m args ih =>
      obtain ⟨-, hargs⟩ := forall_places_mvar.mp h
      exact forall_places_mvar.mpr ⟨h, fun a ha => ih a ha (hargs a ha)⟩

/-- The binders around a term are around all its subterms. -/
theorem le_of_mem_places {t : Term} {k : Nat} : ∀ p ∈ t.places k, k ≤ p.1 := by
  induction t generalizing k with
  | kind | type | symb | bvar | joker => exact List.forall_mem_singleton.mpr (Nat.le_refl k)
  | appl f a ihf iha => exact forall_places_appl.mpr ⟨Nat.le_refl k, ihf, iha⟩
  | prod x A B ihA ihB =>
      exact forall_places_prod.mpr ⟨Nat.le_refl k, ihA, fun p hp => Nat.le_of_succ_le (ihB p hp)⟩
  | abst x A t ihA iht =>
      exact forall_places_abst.mpr
        ⟨Nat.le_refl k, fun B hB => ihA B hB, fun p hp => Nat.le_of_succ_le (iht p hp)⟩
  | mvar m args ih => exact forall_places_mvar.mpr ⟨Nat.le_refl k, fun a ha => ih a ha⟩

/-! ## Free variables -/

/-- A condition on free variables is one on the places where variables stand. -/
theorem allFree_iff_places {ok : Nat → Bool} {t : Term} {k : Nat} :
    t.allFree ok k = true
      ↔ ∀ p ∈ t.places k, ∀ n x, p.2 = bvar n x → p.1 ≤ n → ok (n - p.1) = true := by
  induction t generalizing k with
  | kind | type | symb | joker => simp [allFree, places]
  | bvar n x =>
      simp only [allFree, places, List.forall_mem_singleton, bvar.injEq, Bool.or_eq_true,
        decide_eq_true_eq]
      constructor
      · rintro hn m y ⟨rfl, rfl⟩ hle
        exact hn.resolve_left (Nat.not_lt.mpr hle)
      · intro h
        by_cases hn : n < k
        · exact Or.inl hn
        · exact Or.inr (h n x ⟨rfl, rfl⟩ (Nat.le_of_not_lt hn))
  | appl f a ihf iha =>
      simp only [allFree, forall_places_appl, Bool.and_eq_true, ihf, iha, reduceCtorEq,
        false_implies, implies_true, true_and]
  | prod x A B ihA ihB =>
      simp only [allFree, forall_places_prod, Bool.and_eq_true, ihA, ihB, reduceCtorEq,
        false_implies, implies_true, true_and]
  | abst x A t ihA iht =>
      simp only [allFree, forall_places_abst, Bool.and_eq_true, allFreeAnn_iff, iht, reduceCtorEq,
        false_implies, implies_true, true_and]
      exact and_congr_left' (forall₂_congr fun B hB => ihA B hB)
  | mvar m args ih =>
      simp only [allFree, forall_places_mvar, allFreeArgs_iff, reduceCtorEq, false_implies,
        implies_true, true_and]
      exact forall₂_congr fun a ha => ih a ha

/-- The variable `n`, counted from outside the term, occurs in it. -/
def HasFree (t : Term) (n : Nat) : Prop :=
  ∃ k x, (k, bvar (n + k) x) ∈ t.places 0

theorem allFree_iff_hasFree {ok : Nat → Bool} {t : Term} :
    t.allFree ok 0 = true ↔ ∀ n, t.HasFree n → ok n = true := by
  rw [allFree_iff_places]
  constructor
  · rintro h n ⟨k, x, hplace⟩
    have hp := h _ hplace (n + k) x rfl (Nat.le_add_left k n)
    rwa [Nat.add_sub_cancel] at hp
  · rintro h ⟨j, _⟩ hplace n x rfl hle
    exact h (n - j) ⟨j, x, by rwa [Nat.sub_add_cancel hle]⟩

end Term

end LambdaPi
