import LambdaPi.Proofs.ReductionWithin

/-!
# What a term is made of

Apart from its variables, a term is made of symbols, jokers, meta-variables and abstractions with or
without an annotation. These are its marks, and variables carry none, so replacing variables brings
in no mark but those of the terms that are put in place (`Term.has_inst`, `Term.has_fill`).

A match binds parts of what terms reduce to (`Matches.bound`). Hence reduction brings in no mark but
those of the right-hand sides of rules: `Signature.contains_marks`.
-/

namespace LambdaPi

/-- What a term shows at its root, unless that is a variable or a plain way to put terms together. -/
inductive Mark where
  | symb (s : Symbol)
  | joker
  | mvar (m : Option MetaName)
  /-- an abstraction, and whether it has an annotation -/
  | abst (annotated : Bool)
deriving DecidableEq

namespace Term

/-- The mark at the root. -/
def mark? : Term → Option Mark
  | symb s => some (.symb s)
  | joker => some .joker
  | mvar m _ => some (.mvar m)
  | abst _ A _ => some (.abst A.isSome)
  | _ => none

/-- The mark occurs in the term. -/
def Has (t : Term) (c : Mark) : Prop :=
  ∃ u ∈ t.subterms, u.mark? = some c

instance (t : Term) (c : Mark) : Decidable (t.Has c) :=
  inferInstanceAs (Decidable (∃ u ∈ t.subterms, u.mark? = some c))

section Equations

variable {c : Mark}

@[simp] theorem has_kind : ¬ kind.Has c := by
  simp [Has, subterms, mark?]

@[simp] theorem has_type : ¬ type.Has c := by
  simp [Has, subterms, mark?]

@[simp] theorem has_bvar (n : Nat) (x : Option String) : ¬ (bvar n x).Has c := by
  simp [Has, subterms, mark?]

@[simp] theorem has_symb (s : Symbol) : (symb s).Has c ↔ c = .symb s := by
  simp [Has, subterms, mark?, eq_comm]

@[simp] theorem has_joker : joker.Has c ↔ c = .joker := by
  simp [Has, subterms, mark?, eq_comm]

@[simp] theorem has_appl (f a : Term) : (appl f a).Has c ↔ f.Has c ∨ a.Has c := by
  simp [Has, subterms, mark?, or_and_right, exists_or]

@[simp] theorem has_prod (x : Option String) (A B : Term) :
    (prod x A B).Has c ↔ A.Has c ∨ B.Has c := by
  simp [Has, subterms, mark?, or_and_right, exists_or]

@[simp] theorem has_abst (x : String) (A : Option Term) (t : Term) :
    (abst x A t).Has c ↔ c = .abst A.isSome ∨ (∃ B, A = some B ∧ B.Has c) ∨ t.Has c := by
  cases A <;> simp [Has, subterms, subtermsAnn, mark?, or_and_right, exists_or, eq_comm]

@[simp] theorem has_mvar (m : Option MetaName) (args : List Term) :
    (mvar m args).Has c ↔ c = .mvar m ∨ ∃ a ∈ args, a.Has c := by
  simp only [Has, subterms, subtermsArgs_eq, mark?, List.mem_cons, List.mem_flatMap, or_and_right,
    exists_or, exists_eq_left, Option.some.injEq]
  refine or_congr eq_comm ⟨?_, ?_⟩
  · rintro ⟨u, ⟨a, ha, hu⟩, hc⟩
    exact ⟨a, ha, u, hu, hc⟩
  · rintro ⟨a, ha, u, hu, hc⟩
    exact ⟨u, ⟨a, ha, hu⟩, hc⟩

end Equations

variable {c : Mark}

theorem has_apply (f : Term) (args : List Term) :
    (f.apply args).Has c ↔ f.Has c ∨ ∃ a ∈ args, a.Has c := by
  induction args generalizing f with
  | nil => simp
  | cons a args ih => simp only [apply_cons, ih, has_appl, List.mem_cons, exists_eq_or_imp, or_assoc]

theorem has_nameless (t : Term) : t.nameless.Has c ↔ t.Has c := by
  induction t with
  | kind | type | symb | joker | bvar => simp [nameless]
  | appl f a ihf iha => simp only [nameless, has_appl, ihf, iha]
  | prod x A B ihA ihB => simp only [nameless, has_prod, ihA, ihB]
  | abst x A t ihA iht =>
      cases A with
      | none => simp [nameless, namelessAnn, iht]
      | some B => simp [nameless, namelessAnn, iht, ihA B rfl]
  | mvar m args ih =>
      rw [nameless, namelessArgs_eq_map, has_mvar, has_mvar]
      refine or_congr_right ⟨?_, ?_⟩
      · rintro ⟨a', ha', hc⟩
        obtain ⟨a, ha, rfl⟩ := List.mem_map.mp ha'
        exact ⟨a, ha, (ih a ha).mp hc⟩
      · rintro ⟨a, ha, hc⟩
        exact ⟨a.nameless, List.mem_map_of_mem ha, (ih a ha).mpr hc⟩

theorem has_congr {t u : Term} (h : t.nameless = u.nameless) : t.Has c ↔ u.Has c := by
  rw [← has_nameless t, h, has_nameless]

/-- The parts of a term have the marks of the term. -/
theorem has_of_parts {t v : Term} {shape : Shape} {parts : List Term}
    (h : t.shape? = some (shape, parts)) (hv : v ∈ parts) (hc : v.Has c) : t.Has c := by
  rcases shape?_cases h with ⟨x, A, body, rfl, -, rfl⟩ | ⟨s, args, hargs, -, rfl⟩
    | ⟨n, x, args, hargs, -, rfl⟩
  · rw [List.mem_singleton.mp hv] at hc
    simp [hc]
  · rw [eq_apply_of_unapply hargs, has_apply]
    exact Or.inr ⟨v, List.mem_reverse.mp hv, hc⟩
  · rw [eq_apply_of_unapply hargs, has_apply]
    exact Or.inr ⟨v, List.mem_reverse.mp hv, hc⟩

/-! ## Replacing variables -/

theorem has_mapVars {σ : Replacement} {k : Nat} {t : Term} (h : (t.mapVars σ k).Has c) :
    t.Has c ∨ ∃ n k x, (σ n k x).Has c := by
  induction t generalizing k with
  | kind | type | symb | joker => exact Or.inl h
  | bvar n x =>
      rw [mapVars] at h
      split at h
      · exact absurd h (has_bvar n x)
      · exact Or.inr ⟨n, k, x, h⟩
  | appl f a ihf iha =>
      rw [mapVars, has_appl] at h
      rw [has_appl]
      rcases h with h | h
      · exact (ihf h).imp_left Or.inl
      · exact (iha h).imp_left Or.inr
  | prod x A B ihA ihB =>
      rw [mapVars, has_prod] at h
      rw [has_prod]
      rcases h with h | h
      · exact (ihA h).imp_left Or.inl
      · exact (ihB h).imp_left Or.inr
  | abst x A t ihA iht =>
      rw [mapVars, mapVarsAnn_eq_map, has_abst, Option.isSome_map] at h
      rw [has_abst]
      rcases h with h | ⟨B, hB, h⟩ | h
      · exact Or.inl (Or.inl h)
      · obtain ⟨C, rfl, rfl⟩ := Option.map_eq_some_iff.mp hB
        exact (ihA C rfl h).imp_left fun hC => Or.inr (Or.inl ⟨C, rfl, hC⟩)
      · exact (iht h).imp_left fun ht => Or.inr (Or.inr ht)
  | mvar m args ih =>
      rw [mapVars, mapVarsArgs_eq_map, has_mvar] at h
      rw [has_mvar]
      rcases h with h | ⟨a', ha', h⟩
      · exact Or.inl (Or.inl h)
      · obtain ⟨a, ha, rfl⟩ := List.mem_map.mp ha'
        exact (ih a ha h).imp_left fun ha' => Or.inr ⟨a, ha, ha'⟩

theorem has_lift {k : Nat} {t : Term} (h : (t.lift k).Has c) : t.Has c := by
  rw [lift, shift_eq] at h
  rcases has_mapVars h with h | ⟨n, j, x, h⟩
  · exact h
  · exact absurd h (has_bvar _ _)

theorem has_inst {ρ : Assignment} {t : Term} (h : (t.inst ρ).Has c) :
    t.Has c ∨ ∃ n x, (ρ n x).Has c := by
  rcases has_mapVars h with h | ⟨n, k, x, h⟩
  · exact Or.inl h
  · exact Or.inr ⟨n - k, x, has_lift h⟩

theorem has_subst {t u : Term} (h : (t.subst u).Has c) : t.Has c ∨ u.Has c := by
  rw [has_congr (nameless_subst t u)] at h
  rcases has_inst h with h | ⟨n, x, h⟩
  · exact Or.inl h
  · cases n with
    | zero => exact Or.inr h
    | succ n => exact absurd h (has_bvar n x)

theorem has_instantiate {b : Binding} {args : List Term} {k : Nat}
    (h : (b.instantiate args k).Has c) : b.term.Has c ∨ ∃ a ∈ args, a.Has c := by
  rw [has_congr (b.nameless_instantiate args k)] at h
  refine (has_inst h).imp_right fun ⟨n, x, h⟩ => ?_
  unfold Binding.assignment at h
  split at h
  · cases hi : (b.positions.getD n none).bind fun i => args[i]? with
    | none => rw [hi] at h; exact absurd h (has_bvar n x)
    | some a =>
        rw [hi] at h
        obtain ⟨i, -, ha⟩ := Option.bind_eq_some_iff.mp hi
        exact ⟨a, List.mem_of_getElem? ha, h⟩
  · exact absurd h (has_bvar _ _)

/-- Filling a term leaves its marks, but for the meta-variables that are bound, and brings in those
of the bindings. -/
theorem has_fill {θ : Bindings} {k : Nat} {t : Term} (h : (t.fill θ k).Has c) :
    (t.Has c ∧ ∀ X, c = .mvar (some X) → θ.lookup X = none)
      ∨ ∃ X b, θ.lookup X = some b ∧ b.term.Has c := by
  induction t generalizing k with
  | kind => exact absurd h has_kind
  | type => exact absurd h has_type
  | bvar n x => exact absurd h (has_bvar n x)
  | symb s => exact Or.inl ⟨h, fun X hX => by cases ((has_symb s).mp h).symm.trans hX⟩
  | joker => exact Or.inl ⟨h, fun X hX => by cases (has_joker.mp h).symm.trans hX⟩
  | appl f a ihf iha =>
      rw [fill, has_appl] at h
      rw [has_appl]
      rcases h with h | h
      · exact (ihf h).imp_left (And.imp_left Or.inl)
      · exact (iha h).imp_left (And.imp_left Or.inr)
  | prod x A B ihA ihB =>
      rw [fill, has_prod] at h
      rw [has_prod]
      rcases h with h | h
      · exact (ihA h).imp_left (And.imp_left Or.inl)
      · exact (ihB h).imp_left (And.imp_left Or.inr)
  | abst x A t ihA iht =>
      rw [fill, fillAnn_eq_map, has_abst, Option.isSome_map] at h
      rw [has_abst]
      rcases h with h | ⟨B, hB, h⟩ | h
      · exact Or.inl ⟨Or.inl h, fun X hX => by cases h.symm.trans hX⟩
      · obtain ⟨C, rfl, rfl⟩ := Option.map_eq_some_iff.mp hB
        exact (ihA C rfl h).imp_left (And.imp_left fun hC => Or.inr (Or.inl ⟨C, rfl, hC⟩))
      · exact (iht h).imp_left (And.imp_left fun ht => Or.inr (Or.inr ht))
  | mvar m args ih =>
      rw [has_mvar]
      have hargs : ∀ a' ∈ args.map (fill θ k), a'.Has c →
          ((c = .mvar m ∨ ∃ a ∈ args, a.Has c) ∧ ∀ X, c = .mvar (some X) → θ.lookup X = none)
            ∨ ∃ X b, θ.lookup X = some b ∧ b.term.Has c := by
        intro a' ha' hc
        obtain ⟨a, ha, rfl⟩ := List.mem_map.mp ha'
        exact (ih a ha hc).imp_left (And.imp_left fun hc => Or.inr ⟨a, ha, hc⟩)
      rw [fill, fillArgs_eq_map] at h
      split at h
      · next b hb =>
        obtain ⟨X, -, hX⟩ := Option.bind_eq_some_iff.mp hb
        rcases has_instantiate h with h | ⟨a, ha, h⟩
        · exact Or.inr ⟨X, b, hX, h⟩
        · exact hargs a ha h
      · next hnone =>
        rcases (has_mvar ..).mp h with rfl | ⟨a, ha, h⟩
        · refine Or.inl ⟨Or.inl rfl, fun X hX => ?_⟩
          obtain rfl := Mark.mvar.inj hX
          exact hnone
        · exact hargs a ha h

end Term

/-! ## Matching and reduction -/

/-- What is bound by a match was found by reducing terms and taking them apart. -/
theorem Matches.bound {V : View} {Q : Term → Prop} (hwhnf : ∀ {t u}, Q t → V.whnf t u → Q u)
    (hsettles : ∀ {t u}, Q t → V.settles t u → Q u)
    (hparts : ∀ {t shape parts}, Q t → t.shape? = some (shape, parts) → ∀ v ∈ parts, Q v)
    {d : Nat} {p t : Term} {occ : Bindings} (h : Matches V d p t occ) (ht : Q t) {X : MetaName}
    {b : Binding} (hb : (X, b) ∈ occ) : Q b.term := by
  induction h with
  | joker | unnamed => cases hb
  | named htu =>
      obtain ⟨rfl, rfl⟩ := Prod.mk.inj (List.mem_singleton.mp hb)
      exact hsettles ht htu
  | @abst _ _ _ _ _ _ _ u _ htu _ ih =>
      exact ih (hparts (hwhnf ht htu) rfl u (List.mem_singleton.mpr rfl)) hb
  | symb _ htu hargs hts hθs _ ih =>
      obtain ⟨i, q, v, θ, hq, hv, hθ, hb⟩ := mem_flatten_args hts hθs hb
      refine ih i q v θ hq hv hθ ?_ hb
      exact hparts (hwhnf ht htu) (Term.shape?_of_symb hargs) v
        (List.mem_reverse.mpr (List.mem_of_getElem? hv))
  | bvar _ htu hargs hts hθs _ ih =>
      obtain ⟨i, q, v, θ, hq, hv, hθ, hb⟩ := mem_flatten_args hts hθs hb
      refine ih i q v θ hq hv hθ ?_ hb
      exact hparts (hwhnf ht htu) (Term.shape?_of_bvar hargs) v
        (List.mem_reverse.mpr (List.mem_of_getElem? hv))

theorem MatchesAll.bound {V : View} {ds : List Nat} {ps ts : List Term} {occ : Bindings}
    (h : MatchesAll V ds ps ts occ) {X : MetaName} {b : Binding} (hb : (X, b) ∈ occ) :
    ∃ d p t θ, t ∈ ts ∧ p ∈ ps ∧ Matches V d p t θ ∧ (X, b) ∈ θ := by
  induction h with
  | nil => cases hb
  | @cons d p t θ ds ps ts θs hp _ ih =>
      rcases List.mem_append.mp hb with hb | hb
      · exact ⟨d, p, t, θ, List.mem_cons_self .., List.mem_cons_self .., hp, hb⟩
      · obtain ⟨d', p', t', θ', ht, hp', hmatch, hb⟩ := ih hb
        exact ⟨d', p', t', θ', List.mem_cons_of_mem _ ht, List.mem_cons_of_mem _ hp', hmatch, hb⟩

namespace Signature

variable {σ : Signature}

/-- The mark occurs on the right of a rule. -/
def Gives (σ : Signature) (c : Mark) : Prop :=
  ∃ s, ∃ rule ∈ σ.rulesOf s, rule.rhs.Has c

/-- Every mark of the second term is one of the first, or rules give it. -/
def MarksWithin (σ : Signature) (t u : Term) : Prop :=
  ∀ c, u.Has c → t.Has c ∨ σ.Gives c

theorem marksWithin_rule {s : Symbol} {rule : Rule} {args : List Term} {occ θ : Bindings}
    {A : Term → Term → Prop} (hrule : rule ∈ σ.rulesOf s)
    (hmatch : rule.Matches ⟨σ.MarksWithin, σ.MarksWithin⟩ args occ) (hcoll : Collected A θ occ) :
    σ.MarksWithin ((Term.symb s).apply (args.take rule.arity)) (rule.instantiate θ) := by
  intro c hc
  rw [rule.instantiate_eq_fill] at hc
  rcases Term.has_fill hc with ⟨hrhs, -⟩ | ⟨X, b, hX, hb⟩
  · exact Or.inr ⟨s, rule, hrule, hrhs⟩
  · obtain ⟨d, p, t, θ', ht, -, hp, hbound⟩ :=
      MatchesAll.bound hmatch (hcoll.occurs X b (mem_of_lookup hX))
    have hwithin : σ.MarksWithin t b.term := by
      refine hp.bound (fun h h' c hc => ?_) (fun h h' c hc => ?_) (fun h hparts v hv c hc => ?_)
        (fun c hc => Or.inl hc) hbound
      · exact (h' c hc).elim (h c) Or.inr
      · exact (h' c hc).elim (h c) Or.inr
      · exact h c (Term.has_of_parts hparts hv hc)
    refine (hwithin c hb).imp_left fun ht' => ?_
    rw [Term.has_apply]
    exact Or.inr ⟨t, ht, ht'⟩

/-- Reduction brings in no mark but those of the right-hand sides. -/
theorem contains_marks (σ : Signature) : σ.Contains σ.MarksWithin fun _ _ => True where
  refl _ _ := Or.inl
  trans h h' c hc := (h' c hc).elim (h c) Or.inr
  appl hf ha c hc := by
    rw [Term.has_appl] at hc ⊢
    rcases hc with hc | hc
    · exact (hf c hc).imp_left Or.inl
    · exact (ha c hc).imp_left Or.inr
  prod hA hB c hc := by
    rw [Term.has_prod] at hc ⊢
    rcases hc with hc | hc
    · exact (hA c hc).imp_left Or.inl
    · exact (hB c hc).imp_left Or.inr
  abst ht c hc := by
    simp only [Term.has_abst, Option.isSome_none, reduceCtorEq, false_and, exists_false,
      false_or] at hc ⊢
    rcases hc with hc | hc
    · exact Or.inl (Or.inl hc)
    · exact (ht c hc).imp_left Or.inr
  annotated hB ht c hc := by
    simp only [Term.has_abst, Option.isSome_some, Option.some.injEq, exists_eq_left'] at hc ⊢
    rcases hc with hc | hc | hc
    · exact Or.inl (Or.inl hc)
    · exact (hB c hc).imp_left fun h => Or.inr (Or.inl h)
    · exact (ht c hc).imp_left fun h => Or.inr (Or.inr h)
  mvar {m args args'} hlen hall c hc := by
    rw [Term.has_mvar] at hc ⊢
    rcases hc with hc | ⟨a', ha', hc⟩
    · exact Or.inl (Or.inl hc)
    · obtain ⟨i, hi⟩ := List.mem_iff_getElem?.mp ha'
      have hlt : i < args.length := hlen ▸ (List.getElem?_eq_some_iff.mp hi).1
      have ha := List.getElem?_eq_getElem hlt
      exact (hall i _ a' ha hi c hc).imp_left fun h => Or.inr ⟨_, List.mem_of_getElem? ha, h⟩
  beta c hc := by
    rcases Term.has_subst hc with hc | hc <;> simp [hc]
  rule := marksWithin_rule
  equal _ := trivial
  reduced _ _ _ := trivial
  parts _ _ := trivial
  args _ _ _ := trivial
  eta _ _ _ := trivial

end Signature

end LambdaPi
