import LambdaPi.Proofs.ReductionWithin

/-!
# Reduction adds no variables

Every free variable of what a term reduces to is a free variable of the term
(`Signature.contains_covers`). Rules are closed, and a binding depends only on those variables of
the pattern that are arguments of its meta-variable, so a rule gives nothing that its arguments did
not have.
-/

namespace LambdaPi

namespace Term

/-- The free variables of the second term are free variables of the first. -/
def Covers (t u : Term) : Prop :=
  ∀ p, t.allFree p 0 = true → u.allFree p 0 = true

/-- Conditions on the variables outside of `k` binders. -/
theorem allFree_eq_zero (p : Nat → Bool) (k : Nat) (t : Term) :
    t.allFree p k = t.allFree (fun n => decide (n < k) || p (n - k)) 0 := by
  rw [Bool.eq_iff_iff]
  constructor
  · exact allFree_imp fun n hn => by simpa using hn
  · exact allFree_imp fun n hn => by simpa using hn

theorem allFree_and {p q : Nat → Bool} {k : Nat} {t : Term} (hp : t.allFree p k = true)
    (hq : t.allFree q k = true) : t.allFree (fun n => p n && q n) k = true := by
  induction t generalizing k with
  | kind | type | symb | joker => rfl
  | bvar n x =>
      simp only [Term.allFree, Bool.or_eq_true, Bool.and_eq_true, decide_eq_true_eq] at hp hq ⊢
      rcases hp with hp | hp
      · exact Or.inl hp
      · exact hq.imp_right fun hq => ⟨hp, hq⟩
  | appl f a ihf iha =>
      simp only [Term.allFree, Bool.and_eq_true] at hp hq ⊢
      exact ⟨ihf hp.1 hq.1, iha hp.2 hq.2⟩
  | prod x A B ihA ihB =>
      simp only [Term.allFree, Bool.and_eq_true] at hp hq ⊢
      exact ⟨ihA hp.1 hq.1, ihB hp.2 hq.2⟩
  | abst x A t ihA iht =>
      simp only [Term.allFree, Bool.and_eq_true, allFreeAnn_iff] at hp hq ⊢
      exact ⟨fun B hB => ihA B hB (hp.1 B hB) (hq.1 B hB), iht hp.2 hq.2⟩
  | mvar m args ih =>
      simp only [Term.allFree, allFreeArgs_iff] at hp hq ⊢
      exact fun a ha => ih a ha (hp a ha) (hq a ha)

theorem Covers.allFree {t u : Term} (h : t.Covers u) {p : Nat → Bool} {k : Nat}
    (ht : t.allFree p k = true) : u.allFree p k = true := by
  rw [allFree_eq_zero] at ht ⊢
  exact h _ ht

theorem allFree_apply {p : Nat → Bool} {k : Nat} {f : Term} {args : List Term} :
    (f.apply args).allFree p k = true
      ↔ f.allFree p k = true ∧ ∀ a ∈ args, a.allFree p k = true := by
  induction args generalizing f with
  | nil => simp
  | cons a args ih =>
      rw [apply_cons, ih, List.forall_mem_cons, ← and_assoc]
      simp only [Term.allFree, Bool.and_eq_true]

theorem covers_beta (x : String) (B : Option Term) (t u : Term) :
    (appl (abst x B t) u).Covers (t.subst u) := by
  intro p h
  simp only [Term.allFree, Bool.and_eq_true] at h
  obtain ⟨⟨-, ht⟩, hu⟩ := h
  rw [allFree_eq_of_nameless (nameless_subst t u)]
  rw [allFree_eq_zero] at ht
  refine allFree_inst (fun n y hn => ?_) ht
  cases n with
  | zero => exact hu
  | succ n => simpa [Assignment.single, Term.allFree] using hn

end Term

/-! ## Bindings -/

/-- What is bound depends, outside of the pattern, on the variables of the matched term. -/
theorem Matches.allFree {d : Nat} {p t : Term} {occ : Bindings}
    (h : Matches ⟨Term.Covers, Term.Covers⟩ d p t occ) {q : Nat → Bool}
    (ht : t.allFree q d = true) {X : MetaName} {b : Binding} (hb : (X, b) ∈ occ) :
    b.term.allFree q b.depth = true := by
  induction h with
  | joker | unnamed => cases hb
  | named htu =>
      obtain ⟨rfl, rfl⟩ := Prod.mk.inj (List.mem_singleton.mp hb)
      exact Term.Covers.allFree htu ht
  | abst htu _ ih =>
      have hu := Term.Covers.allFree htu ht
      simp only [Term.allFree, Bool.and_eq_true] at hu
      exact ih hu.2 hb
  | symb _ htu hargs hts hθs _ ih =>
      have hu := Term.Covers.allFree htu ht
      rw [Term.eq_apply_of_unapply hargs, Term.allFree_apply] at hu
      obtain ⟨i, q, v, θ, hq, hv, hθ, hb⟩ := mem_flatten_args hts hθs hb
      exact ih i q v θ hq hv hθ (hu.2 v (List.mem_of_getElem? hv)) hb
  | bvar _ htu hargs hts hθs _ ih =>
      have hu := Term.Covers.allFree htu ht
      rw [Term.eq_apply_of_unapply hargs, Term.allFree_apply] at hu
      obtain ⟨i, q, v, θ, hq, hv, hθ, hb⟩ := mem_flatten_args hts hθs hb
      exact ih i q v θ hq hv hθ (hu.2 v (List.mem_of_getElem? hv)) hb

theorem MatchesAll.allFree {d n : Nat} {ps ts : List Term} {occ : Bindings}
    (h : MatchesAll ⟨Term.Covers, Term.Covers⟩ (List.replicate n d) ps ts occ) {q : Nat → Bool}
    (hts : ∀ t ∈ ts, t.allFree q d = true) {X : MetaName} {b : Binding} (hb : (X, b) ∈ occ) :
    b.term.allFree q b.depth = true := by
  obtain ⟨θs, rfl, hlen, hθs, hall⟩ := h.getElem?
  obtain ⟨i, p, t, θ, hp, ht, hθ, hb⟩ := mem_flatten_args hlen hθs hb
  exact (hall i p t θ hp ht hθ).allFree (hts t (List.mem_of_getElem? ht)) hb

/-- Using a binding with arguments gives the variables of the binding and of the arguments. -/
theorem Binding.allFree_instantiate {b : Binding} {as args : List Term} (h : b.MatchedBy as)
    (hlen : args.length = b.arity) {q : Nat → Bool} (hb : b.term.allFree q b.depth = true) {c : Nat}
    (hargs : ∀ a ∈ args, a.allFree q c = true) : (b.instantiate args c).allFree q c = true := by
  rw [Term.allFree_eq_of_nameless (nameless_instantiate b args c), Term.allFree_eq_zero]
  rw [Term.allFree_eq_zero] at hb
  refine Term.allFree_inst (fun n x hn => ?_) (Term.allFree_and h.valid hb)
  rw [← Term.allFree_eq_zero]
  simp only [Bool.and_eq_true, Bool.or_eq_true, decide_eq_true_eq] at hn
  by_cases hdepth : b.depth ≤ n
  · have hq : q (n - b.depth) = true := hn.2.resolve_left (Nat.not_lt.mpr hdepth)
    simp only [assignment, if_neg (Nat.not_lt.mpr hdepth), Term.allFree, Nat.add_sub_cancel, hq,
      Bool.or_true]
  · obtain ⟨k, hk⟩ := Option.isSome_iff_exists.mp (hn.1.resolve_left hdepth)
    obtain ⟨name, hname⟩ := (localPositions_getD h.positions n k).mp hk
    have hlt : k < args.length := by
      rw [hlen, h.arity]
      exact (List.getElem?_eq_some_iff.mp hname).1
    simp only [assignment, if_pos (Nat.lt_of_not_le hdepth), hk, Option.bind_some,
      List.getElem?_eq_getElem hlt, Option.getD_some]
    exact hargs _ (List.getElem_mem hlt)

/-! ## Rules -/

/-- Filling a closed term gives the variables of the bindings. -/
theorem Term.allFree_fill {θ : Bindings} {q : Nat → Bool}
    (hθ : ∀ X b, θ.lookup X = some b → (∃ as, b.MatchedBy as) ∧ b.term.allFree q b.depth = true)
    {t : Term} (hlen : ∀ X args b, .mvar (some X) args ∈ t.subterms → θ.lookup X = some b →
      args.length = b.arity) {c : Nat} (ht : t.allFree (fun _ => false) c = true) :
    (t.fill θ c).allFree q c = true := by
  induction t generalizing c with
  | kind | type | symb | joker => rfl
  | bvar n x =>
      have hn : n < c := by simpa [Term.allFree] using ht
      simp [fill, Term.allFree, hn]
  | appl f a ihf iha =>
      simp only [fill, Term.allFree, Bool.and_eq_true] at ht ⊢
      exact ⟨ihf (fun X args b hX => hlen X args b (mem_subterms_appl_left hX _)) ht.1,
        iha (fun X args b hX => hlen X args b (mem_subterms_appl_right hX _)) ht.2⟩
  | prod x A B ihA ihB =>
      simp only [fill, Term.allFree, Bool.and_eq_true] at ht ⊢
      exact ⟨ihA (fun X args b hX => hlen X args b (mem_subterms_prod_left hX _ _)) ht.1,
        ihB (fun X args b hX => hlen X args b (mem_subterms_prod_right hX _ _)) ht.2⟩
  | abst x A t ihA iht =>
      simp only [fill, fillAnn_eq_map, Term.allFree, Bool.and_eq_true, allFreeAnn_iff] at ht ⊢
      refine ⟨fun B hB => ?_,
        iht (fun X args b hX => hlen X args b (mem_subterms_abst_body hX _ _)) ht.2⟩
      obtain ⟨C, rfl, rfl⟩ := Option.map_eq_some_iff.mp hB
      exact ihA C rfl (fun X args b hX => hlen X args b (mem_subterms_abst_ann hX _ _)) (ht.1 C rfl)
  | mvar m args ih =>
      simp only [Term.allFree, allFreeArgs_iff] at ht
      have hargs : ∀ a ∈ args.map (fill θ c), a.allFree q c = true := by
        intro a' ha'
        obtain ⟨a, ha, rfl⟩ := List.mem_map.mp ha'
        exact ih a ha (fun X as b hX => hlen X as b (mem_subterms_mvar hX ha _)) (ht a ha)
      simp only [fill, fillArgs_eq_map]
      cases hm : m.bind fun name => θ.lookup name with
      | none =>
          simp only [Term.allFree, allFreeArgs_iff]
          exact hargs
      | some b =>
          obtain ⟨X, rfl, hX⟩ := Option.bind_eq_some_iff.mp hm
          obtain ⟨⟨as, has⟩, hb⟩ := hθ X b hX
          refine Binding.allFree_instantiate has ?_ hb hargs
          rw [List.length_map]
          exact hlen X args b (mem_subterms_self _) hX

namespace Signature

variable {σ : Signature}

theorem covers_rule {P : Rule → Prop} (hσ : σ.Reachable P) (hP : ∀ rule, P rule → rule.Regular)
    {s : Symbol} {rule : Rule} {args : List Term} {occ θ : Bindings} {A : Term → Term → Prop}
    (hrule : rule ∈ σ.rulesOf s) (hmatch : rule.Matches ⟨Term.Covers, Term.Covers⟩ args occ)
    (hcoll : Collected A θ occ) :
    ((Term.symb s).apply (args.take rule.arity)).Covers (rule.instantiate θ) := by
  intro q hargs
  have hreg := hP rule ((hσ.coherent s).holds rule hrule)
  rw [Term.allFree_apply] at hargs
  have hlookup : ∀ {X b}, θ.lookup X = some b → (X, b) ∈ occ := fun hX =>
    hcoll.occurs _ _ (mem_of_lookup hX)
  rw [rule.instantiate_eq_fill]
  refine Term.allFree_fill (fun X b hX => ?_) (fun X as b hX hb => ?_)
    (Term.allFree_of_closedUnder hreg.rhs_closed _)
  · obtain ⟨as, -, hmatched⟩ := hmatch.occurrence (hlookup hX)
    exact ⟨⟨as, hmatched⟩, MatchesAll.allFree hmatch hargs.2 (hlookup hX)⟩
  · obtain ⟨as', has', hmatched⟩ := hmatch.occurrence (hlookup hb)
    rw [hmatched.arity, hreg.rhs_arity has' hX]

/-- Reduction adds no variables. -/
theorem contains_covers {P : Rule → Prop} (hσ : σ.Reachable P)
    (hP : ∀ rule, P rule → rule.Regular) : σ.Contains Term.Covers fun _ _ => True where
  refl _ _ := id
  trans h h' p := h' p ∘ h p
  appl hf ha p h := by
    simp only [Term.allFree, Bool.and_eq_true] at h ⊢
    exact ⟨hf p h.1, ha p h.2⟩
  prod hA hB p h := by
    simp only [Term.allFree, Bool.and_eq_true] at h ⊢
    exact ⟨hA p h.1, hB.allFree h.2⟩
  abst ht p h := by
    simp only [Term.allFree, Bool.and_eq_true] at h ⊢
    exact ⟨rfl, ht.allFree h.2⟩
  annotated hB ht p h := by
    simp only [Term.allFree, Term.allFreeAnn, Bool.and_eq_true] at h ⊢
    exact ⟨hB p h.1, ht.allFree h.2⟩
  mvar {m args args'} hlen hall p h := by
    simp only [Term.allFree, Term.allFreeArgs_iff] at h ⊢
    intro a' ha'
    obtain ⟨i, hi⟩ := List.mem_iff_getElem?.mp ha'
    have hlt : i < args.length := hlen ▸ (List.getElem?_eq_some_iff.mp hi).1
    have ha := List.getElem?_eq_getElem hlt
    exact hall i _ a' ha hi p (h _ (List.mem_of_getElem? ha))
  beta := Term.covers_beta _ _ _ _
  rule := covers_rule hσ hP
  equal _ := trivial
  reduced _ _ _ := trivial
  parts _ _ := trivial
  args _ _ _ := trivial
  eta _ _ _ := trivial

end Signature

end LambdaPi
