import LambdaPi.Proofs.Names

/-!
# Free variables

What the free variables of a term are after some of them were replaced. A condition on the free
variables is a predicate on numbers counted from outside the term, as in `Term.allFree`. As with the
laws of substitution, it is enough to look at variables (`Term.allFree_mapVars`): replacing
variables that satisfy one condition by terms that satisfy another gives a term that satisfies the
latter (`Term.allFree_inst`), and only what is put in place of variables that do occur matters
(`Term.nameless_inst_congr_free`).
-/

namespace LambdaPi

namespace Term

theorem allFreeAnn_iff {p : Nat → Bool} {k : Nat} {A : Option Term} :
    allFreeAnn p k A = true ↔ ∀ B, A = some B → B.allFree p k = true := by
  cases A <;> simp [allFreeAnn]

theorem allFreeArgs_iff {p : Nat → Bool} {k : Nat} {args : List Term} :
    allFreeArgs p k args = true ↔ ∀ a ∈ args, a.allFree p k = true := by
  induction args with
  | nil => simp [allFreeArgs]
  | cons a args ih => simp [allFreeArgs, ih]

/-- If every variable that satisfies one condition is replaced by a term that satisfies another,
under any number of further binders, then so is every term. -/
theorem allFree_mapVars {σ : Replacement} {p q : Nat → Bool} {j k l : Nat}
    (h : ∀ i n x, (bvar n x).allFree q (j + i) = true →
      ((bvar n x).mapVars σ (l + i)).allFree p (k + i) = true)
    {t : Term} (ht : t.allFree q j = true) : (t.mapVars σ l).allFree p k = true := by
  have under : ∀ {j k l : Nat},
      (∀ i n x, (bvar n x).allFree q (j + i) = true →
        ((bvar n x).mapVars σ (l + i)).allFree p (k + i) = true) →
      ∀ i n x, (bvar n x).allFree q (j + 1 + i) = true →
        ((bvar n x).mapVars σ (l + 1 + i)).allFree p (k + 1 + i) = true := by
    intro j k l h i n x hn
    simpa only [Nat.add_assoc, Nat.add_comm 1 i] using
      h (i + 1) n x (by simpa only [Nat.add_assoc, Nat.add_comm 1 i] using hn)
  induction t generalizing j k l with
  | kind | type | symb | joker => rfl
  | bvar n x => exact h 0 n x ht
  | appl f a ihf iha =>
      simp only [mapVars, allFree, Bool.and_eq_true] at ht ⊢
      exact ⟨ihf h ht.1, iha h ht.2⟩
  | prod x A B ihA ihB =>
      simp only [mapVars, allFree, Bool.and_eq_true] at ht ⊢
      exact ⟨ihA h ht.1, ihB (under h) ht.2⟩
  | abst x A t ihA iht =>
      simp only [mapVars, mapVarsAnn_eq_map, allFree, Bool.and_eq_true, allFreeAnn_iff] at ht ⊢
      refine ⟨fun B hB => ?_, iht (under h) ht.2⟩
      obtain ⟨C, hC, rfl⟩ := Option.map_eq_some_iff.mp hB
      exact ihA C hC h (ht.1 C hC)
  | mvar m args ih =>
      simp only [mapVars, mapVarsArgs_eq_map, allFree, allFreeArgs_iff] at ht ⊢
      intro b hb
      obtain ⟨a, ha, rfl⟩ := List.mem_map.mp hb
      exact ih a ha h (ht a ha)

/-- A condition on free variables may be weakened, and binders crossed counted differently. -/
theorem allFree_imp {p q : Nat → Bool} {j k : Nat}
    (h : ∀ n, n < j ∨ q (n - j) = true → n < k ∨ p (n - k) = true) {t : Term}
    (ht : t.allFree q j = true) : t.allFree p k = true := by
  let same : Replacement := fun n _ x => bvar n x
  have hsame : ∀ (u : Term) (j : Nat), u.mapVars same j = u := mapVars_self fun _ _ _ => rfl
  have hp : (t.mapVars same 0).allFree p k = true := by
    refine allFree_mapVars (fun i n x hn => ?_) ht
    rw [hsame]
    simp only [allFree, Bool.or_eq_true, decide_eq_true_eq] at hn ⊢
    -- below the further binders nothing is asked for, beyond them it is the hypothesis
    by_cases hi : n < i
    · omega
    · have := h (n - i) (by
        rw [show n - i - j = n - (j + i) by omega]
        exact hn.imp_left (by omega))
      rw [show n - i - k = n - (k + i) by omega] at this
      exact this.imp_left (by omega)
  rwa [hsame] at hp

/-- A term that is closed under `d` binders satisfies any condition there. -/
theorem allFree_of_closedUnder {d : Nat} {t : Term} (h : t.closedUnder d = true)
    (p : Nat → Bool) : t.allFree p d = true :=
  allFree_imp (fun n hn => Or.inl (by simpa using hn)) h

theorem allFree_nameless (p : Nat → Bool) (k : Nat) (t : Term) :
    t.nameless.allFree p k = t.allFree p k := by
  induction t generalizing k with
  | kind | type | symb | joker | bvar => rfl
  | appl f a ihf iha => simp only [nameless, allFree, ihf, iha]
  | prod x A B ihA ihB => simp only [nameless, allFree, ihA, ihB]
  | abst x A t ihA iht =>
      cases A with
      | none => simp only [nameless, namelessAnn, allFree, allFreeAnn, iht]
      | some B => simp only [nameless, namelessAnn, allFree, allFreeAnn, iht, ihA B rfl]
  | mvar m args ih =>
      rw [Bool.eq_iff_iff]
      simp only [nameless, allFree, namelessArgs_eq_map, allFreeArgs_iff, List.forall_mem_map]
      exact forall₂_congr fun a ha => by rw [ih a ha k]

theorem allFree_eq_of_nameless {t u : Term} (h : t.nameless = u.nameless) (p : Nat → Bool)
    (k : Nat) : t.allFree p k = u.allFree p k := by
  rw [← allFree_nameless p k t, h, allFree_nameless]

theorem allFree_lift {p : Nat → Bool} (k : Nat) {t : Term} (h : t.allFree p 0 = true) :
    (t.lift k).allFree p k = true := by
  rw [lift, shift_eq]
  refine allFree_mapVars (fun i n x hn => ?_) h
  simp only [allFree, mapVars, shifting, Bool.or_eq_true, decide_eq_true_eq] at hn ⊢
  split
  · simp only [allFree, Bool.or_eq_true, decide_eq_true_eq]
    omega
  · simp only [allFree, Bool.or_eq_true, decide_eq_true_eq]
    rw [show n + k - (k + i) = n - (0 + i) by omega]
    exact hn.imp_left (by omega)

theorem allFree_inst {ρ : Assignment} {p q : Nat → Bool}
    (h : ∀ n x, q n = true → (ρ n x).allFree p 0 = true) {t : Term}
    (ht : t.allFree q 0 = true) : (t.inst ρ).allFree p 0 = true := by
  refine allFree_mapVars (fun i n x hn => ?_) ht
  simp only [allFree, mapVars, Assignment.replacement, Nat.zero_add, Bool.or_eq_true,
    decide_eq_true_eq] at hn ⊢
  split
  · simp only [allFree, Bool.or_eq_true, decide_eq_true_eq]
    omega
  · exact allFree_lift i (h (n - i) x (hn.resolve_left (by omega)))

/-- Assignments that agree on the variables of a term up to names have the same effect up to
names. -/
theorem nameless_inst_congr_free {ρ τ : Assignment} {p : Nat → Bool}
    (h : ∀ n x, p n = true → (ρ n x).nameless = (τ n x).nameless) {t : Term}
    (ht : t.allFree p 0 = true) : (t.inst ρ).nameless = (t.inst τ).nameless := by
  have hk : ∀ k, t.allFree p k = true →
      (t.mapVars ρ.replacement k).nameless = (t.mapVars τ.replacement k).nameless := by
    clear ht
    intro k ht
    induction t generalizing k with
    | kind | type | symb | joker => rfl
    | bvar n x =>
        simp only [allFree, mapVars, Assignment.replacement, Bool.or_eq_true,
          decide_eq_true_eq] at ht ⊢
        split
        · rfl
        · next hn => rw [nameless_lift, nameless_lift, h (n - k) x (ht.resolve_left hn)]
    | appl f a ihf iha =>
        simp only [allFree, Bool.and_eq_true] at ht
        simp only [mapVars, nameless, ihf k ht.1, iha k ht.2]
    | prod x A B ihA ihB =>
        simp only [allFree, Bool.and_eq_true] at ht
        simp only [mapVars, nameless, ihA k ht.1, ihB (k + 1) ht.2]
    | abst x A t ihA iht =>
        simp only [allFree, Bool.and_eq_true, allFreeAnn_iff] at ht
        cases A with
        | none => simp only [mapVars, mapVarsAnn, nameless, namelessAnn, iht (k + 1) ht.2]
        | some B =>
            simp only [mapVars, mapVarsAnn, nameless, namelessAnn, iht (k + 1) ht.2,
              ihA B rfl k (ht.1 B rfl)]
    | mvar m args ih =>
        simp only [allFree, allFreeArgs_iff] at ht
        simp only [mapVars, nameless, mapVarsArgs_eq_map, namelessArgs_eq_map, List.map_map]
        exact congrArg (mvar m) (List.map_congr_left fun a ha => ih a ha k (ht a ha))
  exact hk 0 ht

end Term

end LambdaPi
