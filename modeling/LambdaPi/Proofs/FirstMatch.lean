import Mathlib
import LambdaPi.Proofs.Budget
import LambdaPi.Proofs.Dependence

/-!
# The first rule that matches is fired

With left-linear rules, firing through decision trees agrees with trying the rules one by one in the
order in which they were added: `Signature.fire_first_match`.

The terms that a pattern is compared with are reduced to weak head normal form, and a meta-variable
may be bound to its term as it stands, to its weak head normal form or to its normal form, whichever
depends on no wrong variables. The weak head normal form has to be among them. Looking at a column
for the sake of one rule reduces it for all later rules, and variables may disappear already then,
even if the term has no normal form: `Signature.fire_without_match` is such a case.
-/

namespace LambdaPi

/-! ## Bindings of left-linear rules -/

theorem count_flatten_le {X : MetaName} {ps : List Term} {θs : List Bindings}
    (hlen : ps.length = θs.length)
    (h : ∀ (i : Nat) (p : Term) (θ : Bindings), ps[i]? = some p → θs[i]? = some θ →
      (θ.map Prod.fst).count X ≤ p.metaNames.count X) :
    (θs.flatten.map Prod.fst).count X ≤ Term.metaCount X ps := by
  induction ps generalizing θs with
  | nil =>
      obtain rfl := List.eq_nil_of_length_eq_zero hlen.symm
      exact Nat.le_refl _
  | cons p ps ih =>
      obtain ⟨θ, θs, rfl⟩ := List.exists_cons_of_length_eq_add_one hlen.symm
      have hhead := h 0 p θ rfl rfl
      have htail := ih (Nat.succ.inj hlen) fun i q η hq hη => h (i + 1) q η hq hη
      rw [List.flatten_cons, List.map_append, List.count_append, Term.metaCount_cons]
      omega

/-- A meta-variable is bound no more often than it occurs in the pattern. -/
theorem Matches.count_le {V : View} {d : Nat} {p t : Term} {occ : Bindings}
    (h : Matches V d p t occ) (X : MetaName) :
    (occ.map Prod.fst).count X ≤ p.metaNames.count X := by
  have args : ∀ {f p : Term} {ps ts : List Term} {θs : List Bindings}, p.unapply = (f, ps) →
      ps.length = ts.length → ps.length = θs.length →
      (∀ (i : Nat) (q v : Term) (θ : Bindings), ps[i]? = some q → ts[i]? = some v →
        θs[i]? = some θ → (θ.map Prod.fst).count X ≤ q.metaNames.count X) →
      (θs.flatten.map Prod.fst).count X ≤ p.metaNames.count X := by
    intro f p ps ts θs hp hts hθs hall
    rw [Term.eq_apply_of_unapply hp, Term.count_metaNames_apply]
    refine Nat.le_trans (count_flatten_le hθs fun i q θ hq hθ => ?_) (Nat.le_add_left ..)
    have hi := (List.getElem?_eq_some_iff.mp hq).1
    exact hall i q _ θ hq (List.getElem?_eq_getElem (hts ▸ hi)) hθ
  induction h with
  | joker | unnamed => exact Nat.zero_le _
  | @named d Y as t u positions _ _ _ =>
      exact List.Sublist.count_le X (List.Sublist.cons_cons Y (List.nil_sublist _))
  | @abst d x A q t y B u θ _ _ ih =>
      have hshape : (Term.abst x A q).shape? = some (.abst, [q]) := rfl
      have hle := Term.metaCount_parts X hshape
      rw [Term.metaCount_cons, Term.metaCount_nil] at hle
      exact Nat.le_trans ih hle
  | symb hp _ _ hts hθs _ ih => exact args hp hts hθs ih
  | bvar hp _ _ hts hθs _ ih => exact args hp hts hθs ih

theorem Rule.Matches.nodup {V : View} {rule : Rule} {args : List Term} {occ : Bindings}
    (h : rule.Matches V args occ) (hlinear : rule.LeftLinear) : (occ.map Prod.fst).Nodup := by
  refine List.nodup_iff_count.mpr fun X => ?_
  have hX := List.nodup_iff_count.mp hlinear X
  rw [Rule.lhs, Term.count_metaNames_apply] at hX
  obtain ⟨θs, rfl, hts, hθs, hall⟩ := MatchesAll.getElem? h
  have hle := count_flatten_le hθs fun i p θ hp hθ =>
    (hall i p _ θ hp (List.getElem?_eq_getElem (hts ▸ (List.getElem?_eq_some_iff.mp hp).1))
      hθ).count_le X
  omega

theorem lookup_of_mem {θ : Bindings} (hθ : (θ.map Prod.fst).Nodup) {X : MetaName} {b : Binding}
    (h : (X, b) ∈ θ) : θ.lookup X = some b := by
  induction θ with
  | nil => cases h
  | cons entry θ ih =>
      obtain ⟨Y, c⟩ := entry
      rw [List.map_cons, List.nodup_cons] at hθ
      rcases List.mem_cons.mp h with heq | h
      · obtain ⟨rfl, rfl⟩ := Prod.mk.inj heq
        exact List.lookup_cons_self
      · have hne : X ≠ Y := fun hXY => hθ.1 (List.mem_map.mpr ⟨(X, b), h, hXY⟩)
        rw [List.lookup, beq_eq_false_iff_ne.mpr hne]
        exact ih hθ.2 h

/-- If no meta-variable was bound twice, all bindings were kept. -/
theorem Collected.lookup_eq {A : Term → Term → Prop} {θ occ : Bindings} (h : Collected A θ occ)
    (hocc : (occ.map Prod.fst).Nodup) (X : MetaName) : θ.lookup X = occ.lookup X := by
  cases hX : occ.lookup X with
  | none =>
      refine Option.eq_none_iff_forall_ne_some.mpr fun b hb => ?_
      rw [lookup_of_mem hocc (h.occurs X b (mem_of_lookup hb))] at hX
      cases hX
  | some b =>
      obtain ⟨b₀, hb₀, -⟩ := h.agrees X b (mem_of_lookup hX)
      rw [hb₀, ← lookup_of_mem hocc (h.occurs X b₀ (mem_of_lookup hb₀)), hX]

/-- Only the bindings of the meta-variables that occur matter. -/
theorem Term.fill_congr_of_mem {θ θ' : Bindings} {t : Term}
    (h : ∀ X ∈ t.metaNames, θ.lookup X = θ'.lookup X) (c : Nat) : t.fill θ c = t.fill θ' c := by
  induction t generalizing c with
  | kind | type | symb | bvar | joker => rfl
  | appl f a ihf iha =>
      rw [metaNames_appl, List.forall_mem_append] at h
      simp only [fill, ihf h.1, iha h.2]
  | prod x A B ihA ihB =>
      rw [metaNames_prod, List.forall_mem_append] at h
      simp only [fill, ihA h.1, ihB h.2]
  | abst x A t ihA iht =>
      rw [metaNames_abst, List.forall_mem_append] at h
      have hann : A.map (fill θ c) = A.map (fill θ' c) := by
        cases A with
        | none => rfl
        | some B => exact congrArg some (ihA B rfl (by simpa using h.1) c)
      simp only [fill, fillAnn_eq_map, hann, iht h.2]
  | mvar m args ih =>
      rw [metaNames_mvar, List.forall_mem_append] at h
      have hargs : args.map (fill θ c) = args.map (fill θ' c) :=
        List.map_congr_left fun a ha => ih a ha
          (fun X hX => h.2 X (List.mem_flatMap.mpr ⟨a, ha, hX⟩)) c
      have hm : (m.bind fun X => θ.lookup X) = m.bind fun X => θ'.lookup X := by
        cases m with
        | none => rfl
        | some X => exact h.1 X (List.mem_cons_self ..)
      simp only [fill, fillArgs_eq_map, hargs, hm]

theorem Term.fill_congr {θ θ' : Bindings} (h : ∀ X, θ.lookup X = θ'.lookup X) (c : Nat)
    (t : Term) : t.fill θ c = t.fill θ' c :=
  fill_congr_of_mem (fun X _ => h X) c

/-! ## What matching sees -/

namespace Signature

/-- Patterns are compared with weak head normal forms; a term may be bound as it stands or in either
normal form. -/
def view (σ : Signature) : View where
  whnf := σ.Whnf
  settles t u := u = t ∨ σ.Whnf t u ∨ σ.Nf t u

section

variable {σ : Signature} {P : Rule → Prop}

theorem lawful_view : σ.view.Lawful where
  keep _ := Or.inl rfl
  fixed := Whnf.fixed
  trans {_ _ _} h h' := h.fixed.unique h' ▸ h
  settle {t u v} h hv := by
    rcases hv with rfl | hv | hv
    · exact Or.inr (Or.inl h)
    · obtain rfl := h.fixed.unique hv
      exact Or.inr (Or.inl h)
    · exact Or.inr (Or.inr (h.nf_iff.mpr hv))

variable (hσ : σ.Reachable P) (hP : ∀ rule, P rule → rule.Regular)

include hσ hP

theorem Whnf.covers {t u : Term} (h : σ.Whnf t u) : t.Covers u := by
  obtain ⟨n, hn⟩ := h
  exact (contains_covers hσ hP).whnf hσ hn

theorem Nf.covers {t u : Term} (h : σ.Nf t u) : t.Covers u := by
  obtain ⟨n, hn⟩ := h
  exact (contains_covers hσ hP).nf hσ hn

theorem exact_view : σ.view.Exact where
  toLawful := lawful_view
  unique := Whnf.unique
  later {t u v} h hv := by
    rcases hv with rfl | hv | hv
    · exact ⟨u, Or.inl rfl, Whnf.covers hσ hP h⟩
    · exact ⟨v, Or.inl (hv.unique h), fun _ => id⟩
    · exact ⟨v, Or.inr (Or.inr (h.nf_iff.mp hv)), fun _ => id⟩

/-- A normal form depends on the fewest variables. -/
theorem settles_reducer (budget : Nat) : (σ.reducer budget).Settles σ.view := by
  intro t u v hu hv
  have hnf : σ.Nf t u := ⟨budget, hu⟩
  rcases hv with rfl | hv | hv
  · exact Nf.covers hσ hP hnf
  · exact Nf.covers hσ hP (hv.nf_iff.mp hnf)
  · rw [hnf.unique hv]
    exact fun _ => id

end

theorem within_view (σ : Signature) (budget : Nat) :
    (σ.reducer budget).Within σ.view fun _ _ => True where
  whnf h := ⟨budget, h⟩
  nf h := Or.inr (Or.inr ⟨budget, h⟩)
  convertible _ := trivial

/-! ## Rules for bodies -/

/-- The rule `f (x => a) --> b`. -/
def constantRule : Rule :=
  ⟨"constant", ⟨"f"⟩, [.abst "x" none (.symb ⟨"a"⟩)], .symb ⟨"b"⟩⟩

/-- The rule `f (x => X[]) --> X[]`: the body must not depend on the variable. -/
def bodyRule : Rule :=
  ⟨"body", ⟨"f"⟩, [.abst "x" none (.mvar (some (.named "X")) [])], .mvar (some (.named "X")) []⟩

/-- A signature with both rules. -/
def bodies : Signature where
  entries := [(⟨"f"⟩, ⟨.type, false, false⟩)]
  ruleSets := [(⟨"f"⟩, .ofRules [constantRule, bodyRule])]

theorem reachable_bodies :
    bodies.Reachable fun rule => rule.Admissible ∧ rule.LeftLinear := by
  have hdeclared : Signature.Reachable (fun rule => rule.Admissible ∧ rule.LeftLinear)
      { bodies with ruleSets := [] } :=
    .declare .empty (show ({} : Signature).declare ⟨"f"⟩ .type false = .ok _ from rfl)
  have hfirst : constantRule.Admissible ∧ constantRule.LeftLinear := by
    refine ⟨Or.inl ⟨"constant", constantRule.lhs, constantRule.rhs, by cbv⟩, ?_⟩
    rw [Rule.LeftLinear, show constantRule.lhs.metaNames = [] by cbv]
    exact .nil
  have hsecond : bodyRule.Admissible ∧ bodyRule.LeftLinear := by
    refine ⟨Or.inl ⟨"body", bodyRule.lhs, bodyRule.rhs, by cbv⟩, ?_⟩
    rw [Rule.LeftLinear, show bodyRule.lhs.metaNames = [.named "X"] by cbv]
    simp
  have hone : Signature.Reachable (fun rule => rule.Admissible ∧ rule.LeftLinear)
      { bodies with ruleSets := [(⟨"f"⟩, .ofRules [constantRule])] } :=
    .addRule hdeclared hfirst (by cbv)
  exact .addRule hone hsecond (by cbv)

/-- The self-application `z => z z`. -/
def selfApplication : Term :=
  .abst "z" none (.appl (.bvar 0 none) (.bvar 0 none))

/-- A term that reduces to itself. -/
def loop : Term :=
  .appl selfApplication selfApplication

/-- A body in which the variable disappears with the first step, and which has no normal form. -/
def vanishing : Term :=
  .appl (.abst "y" none (.appl (.symb ⟨"g"⟩) loop)) (.bvar 0 none)

/-! ## Firing -/

/-- If a rule is fired, it is the first that matches the arguments, and the result is the instance
of its right-hand side for the bindings of that match. If none is fired, none matches. -/
theorem fire_first_match {σ : Signature}
    (hσ : σ.Reachable fun rule => rule.Admissible ∧ rule.LeftLinear) {s : Symbol}
    (hs : σ.isConstant s = false) (budget : Nat) (args : List Term) :
    (∀ t k, (σ.fire budget s args).value = some (some (t, k)) →
      ∃ before rule after θ, σ.rulesOf s = before ++ rule :: after ∧ rule.Matches σ.view args θ
        ∧ (∀ r ∈ before, ∀ θ', ¬ r.Matches σ.view args θ')
        ∧ t = rule.instantiate θ ∧ k = rule.arity)
    ∧ ((σ.fire budget s args).value = some none →
      ∀ rule ∈ σ.rulesOf s, ∀ θ, ¬ rule.Matches σ.view args θ) := by
  have hP : ∀ rule : Rule, rule.Admissible ∧ rule.LeftLinear → rule.Regular :=
    fun _ h => h.1.regular
  have hexact : True → σ.view.Exact ∧ (σ.reducer budget).Settles σ.view :=
    fun _ => ⟨exact_view hσ hP, settles_reducer hσ hP budget⟩
  have hwithin := within_view σ budget
  constructor
  · intro t k h
    obtain ⟨before, rule, after, occ, θ, hsplit, hmatch, hcoll, rfl, rfl, hfirst⟩ :=
      hσ.fireWith_some lawful_view hwithin hexact (fun _ _ h => h.2) h
    have hlinear : rule.LeftLinear :=
      ((hσ.coherent s).holds rule (by show rule ∈ σ.rulesOf s; rw [hsplit]; simp)).2
    refine ⟨before, rule, after, occ, hsplit, hmatch, hfirst trivial, ?_, rfl⟩
    rw [rule.instantiate_eq_fill, rule.instantiate_eq_fill]
    exact Term.fill_congr (hcoll.lookup_eq (hmatch.nodup hlinear)) 0 rule.rhs
  · intro h
    exact hσ.fireWith_none lawful_view hwithin hexact (fun _ _ h => h.2) hs h trivial

theorem fire_first_match_bodies :
    (bodies.Reachable fun rule => rule.Admissible ∧ rule.LeftLinear)
      ∧ bodies.isConstant ⟨"f"⟩ = false
      ∧ (∃ before rule after θ, bodies.rulesOf ⟨"f"⟩ = before ++ rule :: after
        ∧ rule.Matches bodies.view [.abst "x" none vanishing] θ
        ∧ (∀ r ∈ before, ∀ θ', ¬ r.Matches bodies.view [.abst "x" none vanishing] θ')
        ∧ .appl (.symb ⟨"g"⟩) loop = rule.instantiate θ ∧ 1 = rule.arity)
      ∧ ∀ rule ∈ bodies.rulesOf ⟨"f"⟩, ∀ θ, ¬ rule.Matches bodies.view [.symb ⟨"a"⟩] θ := by
  have hconst : bodies.isConstant ⟨"f"⟩ = false := by cbv
  exact ⟨reachable_bodies, hconst,
    (fire_first_match reachable_bodies hconst 9 _).1 _ _ (by cbv),
    (fire_first_match reachable_bodies hconst 9 _).2 (by cbv)⟩

/-! ## A variable that disappears -/

theorem spine?_loop (σ : Signature) (n : Nat) :
    (σ.spine? n loop []).value = none
      ∧ (σ.spine? n selfApplication [selfApplication]).value = none := by
  induction n with
  | zero => exact ⟨by rw [spine?]; rfl, by rw [spine?]; rfl⟩
  | succ n ih =>
      constructor
      · rw [spine?, Traced.value_bind]
        show (σ.spine? n selfApplication [selfApplication] >>= _).value = none
        rw [Traced.value_bind, ih.2]
        rfl
      · rw [spine?, Traced.value_bind]
        show (σ.spine? n loop [] >>= _).value = none
        rw [Traced.value_bind, ih.1]
        rfl

theorem nf_loop (σ : Signature) (n : Nat) : (σ.nf n loop).value = none := by
  cases n with
  | zero => rw [nf]; rfl
  | succ n =>
      rw [nf, Traced.value_bind, whnfBy, Traced.value_bind]
      show ((σ.spine? n selfApplication [selfApplication]).value.bind _).bind _ = none
      rw [(spine?_loop σ n).2]
      rfl

theorem whnf_vanishing : bodies.Whnf vanishing (.appl (.symb ⟨"g"⟩) loop) :=
  ⟨9, by cbv⟩

theorem nf_vanishing (u : Term) : ¬ bodies.Nf vanishing u := by
  rintro ⟨n, hn⟩
  cases n with
  | zero => rw [nf] at hn; cases hn
  | succ n =>
      rw [nf, Traced.value_bind] at hn
      obtain ⟨v, hv, hn⟩ := Option.bind_eq_some_iff.mp hn
      obtain rfl := whnf_vanishing.unique ⟨n, hv⟩
      have hargs : ([loop].mapM (bodies.nf n)).value = none := by
        rw [Traced.value_mapM, List.mapM_cons, nf_loop]
        rfl
      rw [Traced.value_bind] at hn
      obtain ⟨head, -, hn⟩ := Option.bind_eq_some_iff.mp hn
      change (([loop].mapM (bodies.nf n)) >>= _).value = some u at hn
      rw [Traced.value_bind, hargs] at hn
      cases hn

/-- A term may be bound as it stands or in normal form, but not in weak head normal form. -/
def plainView (σ : Signature) : View where
  whnf := σ.Whnf
  settles t u := u = t ∨ σ.Nf t u

/-- A rule is fired that does not match if terms are bound only as they stand or in normal form: the
rule before it looks at the body, and so the variable is gone. -/
theorem fire_without_match :
    (bodies.Reachable fun rule => rule.Admissible ∧ rule.LeftLinear)
      ∧ bodies.isConstant ⟨"f"⟩ = false
      ∧ (bodies.fire 9 ⟨"f"⟩ [.abst "x" none vanishing]).value
        = some (some (.appl (.symb ⟨"g"⟩) loop, 1))
      ∧ ∀ rule ∈ bodies.rulesOf ⟨"f"⟩, ∀ θ,
        ¬ rule.Matches bodies.plainView [.abst "x" none vanishing] θ := by
  refine ⟨reachable_bodies, by cbv, by cbv, fun rule hrule θ hmatch => ?_⟩
  have harg : bodies.Whnf (.abst "x" none vanishing) (.abst "x" none vanishing) := ⟨9, by cbv⟩
  replace hrule : rule ∈ [constantRule, bodyRule] := hrule
  -- either pattern is an abstraction, so its body is matched with the body
  have hbody : ∀ {x p η}, Matches bodies.plainView 0 (.abst x none p) (.abst "x" none vanishing) η →
      ∃ η, Matches bodies.plainView 1 p vanishing η := by
    intro x p η h
    cases h with
    | @abst _ _ _ _ _ _ _ u _ hwhnf hp =>
        cases harg.unique hwhnf
        exact ⟨_, hp⟩
    | symb hp => cases hp
    | bvar hp => cases hp
  rcases List.mem_cons.mp hrule with rfl | hrule
  · cases hmatch with
    | cons hp _ =>
        obtain ⟨η, h⟩ := hbody hp
        cases h with
        | symb hp hwhnf hu =>
            cases hp
            cases whnf_vanishing.unique hwhnf
            have hhead := (Prod.mk.inj (show (Term.symb ⟨"g"⟩, [loop]) = _ from hu)).1
            exact absurd (Term.symb.inj hhead) (by decide)
        | bvar hp => cases hp
  · obtain rfl := List.mem_singleton.mp hrule
    cases hmatch with
    | cons hp _ =>
        obtain ⟨η, h⟩ := hbody hp
        cases h with
        | named hsettles _ huses =>
            rcases hsettles with rfl | hnf
            · rw [show vanishing.usesOnly [] 1 = false by cbv] at huses
              cases huses
            · exact nf_vanishing _ hnf
        | symb hp => cases hp
        | bvar hp => cases hp

end Signature

end LambdaPi
