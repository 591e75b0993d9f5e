import LambdaPi.Proofs.Firing

/-!
# What reduction stays within

Reduction, normalization and conversion call each other through matching, so a property of one of
them is proved for all of them together. `Signature.Contains` says what has to be checked: the
relation `R` has to contain each single step and be closed under the ways in which steps are put
together, and the relation `A` has to contain each way in which a comparison may succeed. Then
whatever reduction returns is related by `R` to what it was given, and convertible terms are related
by `A`, on any budget: `Signature.Contains.whnf`, `nf`, `convertible` and `fire`.
-/

namespace LambdaPi

namespace Traced

variable {α β : Type}

/-- The value of a computation for each element of a list depends on the values alone. -/
theorem value_mapM (f : α → Traced β) (as : List α) :
    (as.mapM f).value = as.mapM fun a => (f a).value := by
  have hloop : ∀ (as : List α) (acc : List β),
      (List.mapM.loop f as acc).value = List.mapM.loop (fun a => (f a).value) as acc := by
    intro as
    induction as with
    | nil => exact fun acc => rfl
    | cons a as ih =>
        intro acc
        simp only [List.mapM.loop, value_bind, ih]
        rfl
  exact hloop as []

theorem mapM_some {f : α → Option β} {as : List α} {bs : List β} (h : as.mapM f = some bs) :
    as.length = bs.length
      ∧ ∀ (i : Nat) (a : α) (b : β), as[i]? = some a → bs[i]? = some b → f a = some b := by
  induction as generalizing bs with
  | nil =>
      obtain rfl := Option.some.inj h
      exact ⟨rfl, nofun⟩
  | cons a as ih =>
      rw [List.mapM_cons] at h
      obtain ⟨b, hb, h⟩ := Option.bind_eq_some_iff.mp h
      obtain ⟨bs', hbs, h⟩ := Option.bind_eq_some_iff.mp h
      obtain rfl := Option.some.inj h
      obtain ⟨hlen, hall⟩ := ih hbs
      refine ⟨congrArg (· + 1) hlen, fun i a' b' ha hb' => ?_⟩
      cases i with
      | zero =>
          obtain rfl := Option.some.inj ha
          obtain rfl := Option.some.inj hb'
          exact hb
      | succ i => exact hall i a' b' ha hb'

end Traced

namespace Signature

/-- `R` contains the steps of reduction and `A` those of comparison. -/
structure Contains (σ : Signature) (R A : Term → Term → Prop) : Prop where
  refl : ∀ t, R t t
  trans : ∀ {t u v}, R t u → R u v → R t v
  appl : ∀ {f f' a a'}, R f f' → R a a' → R (.appl f a) (.appl f' a')
  prod : ∀ {x A A' B B'}, R A A' → R B B' → R (.prod x A B) (.prod x A' B')
  abst : ∀ {x t t'}, R t t' → R (.abst x none t) (.abst x none t')
  annotated : ∀ {x B B' t t'}, R B B' → R t t' → R (.abst x (some B) t) (.abst x (some B') t')
  mvar : ∀ {m} {args args' : List Term}, args.length = args'.length →
    (∀ (i : Nat) (a a' : Term), args[i]? = some a → args'[i]? = some a' → R a a') →
    R (.mvar m args) (.mvar m args')
  beta : ∀ {x B t u}, R (.appl (.abst x B t) u) (t.subst u)
  rule : ∀ {s rule args occ θ}, rule ∈ σ.rulesOf s → rule.Matches ⟨R, R⟩ args occ →
    Collected A θ occ → R ((Term.symb s).apply (args.take rule.arity)) (rule.instantiate θ)
  equal : ∀ {t u : Term}, t.equals u = true → A t u
  reduced : ∀ {t t' u u'}, R t t' → R u u' → A t' u' → A t u
  parts : ∀ {t u : Term} {depth : Nat} {parts : List Comparison},
    t.sameHead depth u = some parts → (∀ c ∈ parts, A c.left c.right) → A t u
  args : ∀ {s : Symbol} {as bs : List Term} (depth : Nat), as.length = bs.length →
    (∀ c ∈ Term.compareArgs depth as bs, A c.left c.right) →
    A ((Term.symb s).apply as) ((Term.symb s).apply bs)
  eta : ∀ {t u : Term} {depth : Nat} {c : Comparison}, σ.eta = true →
    etaPart? depth t u = some c → A c.left c.right → A t u

/-- One step at the head of a spine. -/
theorem headStep?_cases {σ : Signature} {red : Reducer} {head head' : Term} {args args' : List Term}
    (h : (σ.headStep? red head args).value = some (some (head', args'))) :
    (∃ f a, head = .appl f a ∧ (Term.appl f a).unapplyOnto args = (head', args'))
      ∨ (∃ x B body a, head = .abst x B body ∧ args = a :: args' ∧ head' = body.subst a)
      ∨ ∃ s k, head = .symb s ∧ (σ.fireWith red s args).value = some (some (head', k))
        ∧ args' = args.drop k := by
  simp only [headStep?, Traced.value_bind, Traced.value_emit, Option.bind_some] at h
  split at h
  · next f a => exact Or.inl ⟨f, a, rfl, Option.some.inj (Option.some.inj h)⟩
  · next x B body a rest =>
    obtain ⟨rfl, rfl⟩ := Prod.mk.inj (Option.some.inj (Option.some.inj h))
    exact Or.inr (Or.inl ⟨x, B, body, a, rfl, rfl, rfl⟩)
  · next s =>
    rw [Traced.value_bind] at h
    obtain ⟨fired, hfired, h⟩ := Option.bind_eq_some_iff.mp h
    cases fired with
    | none => cases h
    | some fired =>
        obtain ⟨t, k⟩ := fired
        obtain ⟨rfl, rfl⟩ := Prod.mk.inj (Option.some.inj (Option.some.inj h))
        exact Or.inr (Or.inr ⟨s, k, rfl, hfired, rfl⟩)
  · cases h

namespace Contains

variable {σ : Signature} {R A : Term → Term → Prop} {P : Rule → Prop}

theorem apply (h : σ.Contains R A) {f g : Term} (hfg : R f g) {as bs : List Term}
    (hlen : as.length = bs.length)
    (hargs : ∀ (i : Nat) (a b : Term), as[i]? = some a → bs[i]? = some b → R a b) :
    R (f.apply as) (g.apply bs) :=
  Term.apply_rel h.appl hfg hlen hargs

theorem apply_left (h : σ.Contains R A) {f g : Term} (hfg : R f g) (args : List Term) :
    R (f.apply args) (g.apply args) :=
  h.apply hfg rfl fun _ a _ ha hb => Option.some.inj (ha.symm.trans hb) ▸ h.refl a

theorem lawful (h : σ.Contains R A) : (View.mk R R).Lawful where
  keep := h.refl
  fixed {_ u} _ := h.refl u
  trans := h.trans
  settle := h.trans

section

variable (h : σ.Contains R A)

include h

theorem fireWith (hσ : σ.Reachable P) {red : Reducer} (hred : red.Within ⟨R, R⟩ A) {s : Symbol}
    {args : List Term} {t : Term} {k : Nat}
    (hfire : (σ.fireWith red s args).value = some (some (t, k))) :
    R ((Term.symb s).apply (args.take k)) t := by
  obtain ⟨rule, occ, θ, hrule, hmatch, hcoll, rfl, rfl⟩ :=
    hσ.fireWith_matches h.lawful hred hfire
  exact h.rule hrule hmatch hcoll

theorem headStep? (hσ : σ.Reachable P) {red : Reducer} (hred : red.Within ⟨R, R⟩ A)
    {head head' : Term} {args args' : List Term}
    (hstep : (σ.headStep? red head args).value = some (some (head', args'))) :
    R (head.apply args) (head'.apply args') := by
  rcases headStep?_cases hstep with ⟨f, a, rfl, hun⟩ | ⟨x, B, body, a, rfl, rfl, rfl⟩
    | ⟨s, k, rfl, hfire, rfl⟩
  · have happly := Term.apply_unapplyOnto (.appl f a) args
    rw [hun] at happly
    exact happly ▸ h.refl _
  · exact h.apply_left h.beta args'
  · have hleft : (Term.symb s).apply args
        = ((Term.symb s).apply (args.take k)).apply (args.drop k) := by
      rw [← Term.apply_append, List.take_append_drop]
    exact hleft ▸ h.apply_left (h.fireWith hσ hred hfire) _

theorem mapParts {f : Term → Traced Term}
    (hf : ∀ {t u : Term}, (f t).value = some u → R t u) {t u : Term}
    (ht : (Signature.mapParts f t).value = some u) : R t u := by
  unfold Signature.mapParts at ht
  split at ht <;> simp only [Traced.value_bind, Traced.value_pure] at ht
  · obtain ⟨A', hA, ht⟩ := Option.bind_eq_some_iff.mp ht
    obtain ⟨B', hB, ht⟩ := Option.bind_eq_some_iff.mp ht
    obtain rfl := Option.some.inj ht
    exact h.prod (hf hA) (hf hB)
  · obtain ⟨t', ht', ht⟩ := Option.bind_eq_some_iff.mp ht
    obtain rfl := Option.some.inj ht
    exact h.abst (hf ht')
  · obtain ⟨A', hA, ht⟩ := Option.bind_eq_some_iff.mp ht
    obtain ⟨t', ht', ht⟩ := Option.bind_eq_some_iff.mp ht
    obtain rfl := Option.some.inj ht
    exact h.annotated (hf hA) (hf ht')
  · obtain ⟨args', hargs, ht⟩ := Option.bind_eq_some_iff.mp ht
    obtain rfl := Option.some.inj ht
    rw [Traced.value_mapM] at hargs
    obtain ⟨hlen, hall⟩ := Traced.mapM_some hargs
    exact h.mvar hlen fun i a a' ha ha' => hf (hall i a a' ha ha')
  · obtain rfl := Option.some.inj ht
    exact h.refl _

theorem whnfBy {spine? : Term → List Term → Traced (Option Term)}
    (hspine : ∀ {head args u}, (spine? head args).value = some (some u) → R (head.apply args) u)
    {t u : Term} (ht : (Signature.whnfBy spine? t).value = some u) : R t u := by
  simp only [Signature.whnfBy, Traced.value_bind, Traced.value_pure] at ht
  obtain ⟨u?, hu, ht⟩ := Option.bind_eq_some_iff.mp ht
  obtain rfl := Option.some.inj ht
  cases u? with
  | none => exact h.refl t
  | some u =>
      have := hspine hu
      rwa [Term.apply_unapply] at this

/-- What is left to compare of two terms in weak head normal form decides. -/
theorem whnfParts? {depth : Nat} {t u : Term} {parts : List Comparison}
    (hparts : σ.whnfParts? depth t u = some parts) (hall : ∀ c ∈ parts, A c.left c.right) :
    A t u := by
  unfold Signature.whnfParts? at hparts
  split at hparts
  · next parts' hsame =>
    obtain rfl := Option.some.inj hparts
    exact h.parts hsame fun c hc => hall c (List.mem_reverse.mpr hc)
  · split at hparts
    · next heta =>
      obtain ⟨c, hc, rfl⟩ := Option.map_eq_some_iff.mp hparts
      exact h.eta heta hc (hall c (List.mem_singleton.mpr rfl))
    · cases hparts

theorem injectiveParts? {c : Comparison} {parts : List Comparison}
    (hparts : σ.injectiveParts? c = some parts) (hall : ∀ d ∈ parts, A d.left d.right) :
    A c.left c.right := by
  unfold Signature.injectiveParts? at hparts
  split at hparts
  · next s as t bs hleft hright =>
    split at hparts
    · next hs =>
      obtain ⟨rfl, hlen, -⟩ := hs
      obtain rfl := Option.some.inj hparts
      rw [Term.eq_apply_of_unapply hleft, Term.eq_apply_of_unapply hright]
      exact h.args c.depth hlen hall
    · cases hparts
  · cases hparts

/-- All three functions on one budget. -/
theorem within (hσ : σ.Reachable P) (budget : Nat) :
    (∀ {head args u}, (σ.spine? budget head args).value = some (some u) → R (head.apply args) u)
      ∧ (∀ {t u}, (σ.nf budget t).value = some u → R t u)
      ∧ ∀ {cs}, (σ.agree budget cs).value = some true → ∀ c ∈ cs, A c.left c.right := by
  induction budget with
  | zero =>
      refine ⟨fun hu => ?_, fun hu => ?_, fun hu => ?_⟩
      · rw [spine?] at hu; cases hu
      · rw [Signature.nf] at hu; cases hu
      · rw [agree] at hu; cases hu
  | succ n ih =>
      obtain ⟨hspine, hnf, hagree⟩ := ih
      have hwhnf : ∀ {t u}, (Signature.whnfBy (σ.spine? n) t).value = some u → R t u :=
        h.whnfBy hspine
      have hred : (σ.reducer n).Within ⟨R, R⟩ A :=
        ⟨hwhnf, hnf, fun hu => hagree hu _ (List.mem_singleton.mpr rfl)⟩
      refine ⟨fun {head args u} hu => ?_, fun {t u} hu => ?_, fun {cs} hu => ?_⟩
      · rw [spine?, Traced.value_bind] at hu
        obtain ⟨step, hstep, hu⟩ := Option.bind_eq_some_iff.mp hu
        cases step with
        | none => cases hu
        | some next =>
            obtain ⟨head', args'⟩ := next
            have hfirst := h.headStep? hσ hred hstep
            simp only [Traced.value_bind, Traced.value_pure] at hu
            obtain ⟨rest?, hrest, hu⟩ := Option.bind_eq_some_iff.mp hu
            obtain rfl := Option.some.inj (Option.some.inj hu)
            cases rest? with
            | none => exact hfirst
            | some rest => exact h.trans hfirst (hspine hrest)
      · simp only [Signature.nf, Traced.value_bind, Traced.value_pure] at hu
        obtain ⟨v, hv, hu⟩ := Option.bind_eq_some_iff.mp hu
        obtain ⟨head, hhead, hu⟩ := Option.bind_eq_some_iff.mp hu
        obtain ⟨args, hargs, hu⟩ := Option.bind_eq_some_iff.mp hu
        obtain rfl := Option.some.inj hu
        rw [Traced.value_mapM] at hargs
        obtain ⟨hlen, hall⟩ := Traced.mapM_some hargs
        have hparts := h.apply (h.mapParts hnf hhead) hlen fun i a b ha hb =>
          hnf (hall i a b ha hb)
        rw [Term.apply_unapply] at hparts
        exact h.trans (hwhnf hv) hparts
      · cases cs with
        | nil => exact nofun
        | cons c rest =>
            simp only [agree, Traced.value_bind, Traced.value_emit, Option.bind_some] at hu
            refine List.forall_mem_cons.mpr ?_
            split at hu
            · next hequal => exact ⟨h.equal hequal, hagree hu⟩
            · split at hu
              · next parts hparts =>
                obtain ⟨hleft, hright⟩ := List.forall_mem_append.mp (hagree hu)
                exact ⟨h.injectiveParts? hparts hleft, hright⟩
              · simp only [Traced.value_bind] at hu
                obtain ⟨t, ht, hu⟩ := Option.bind_eq_some_iff.mp hu
                obtain ⟨u, hu', hu⟩ := Option.bind_eq_some_iff.mp hu
                split at hu
                · next parts hparts =>
                  obtain ⟨hleft, hright⟩ := List.forall_mem_append.mp (hagree hu)
                  exact ⟨h.reduced (hwhnf ht) (hwhnf hu') (h.whnfParts? hparts hleft), hright⟩
                · cases hu

variable (hσ : σ.Reachable P) {budget : Nat}

include hσ

theorem whnf {t u : Term} (hu : (σ.whnf budget t).value = some u) : R t u :=
  h.whnfBy (h.within hσ budget).1 hu

theorem nf {t u : Term} (hu : (σ.nf budget t).value = some u) : R t u :=
  (h.within hσ budget).2.1 hu

theorem convertible {t u : Term} (hu : (σ.convertible budget t u).value = some true) : A t u :=
  (h.within hσ budget).2.2 hu _ (List.mem_singleton.mpr rfl)

theorem reducer : (σ.reducer budget).Within ⟨R, R⟩ A :=
  ⟨h.whnf hσ, h.nf hσ, h.convertible hσ⟩

theorem fire {s : Symbol} {args : List Term} {t : Term} {k : Nat}
    (hu : (σ.fire budget s args).value = some (some (t, k))) :
    R ((Term.symb s).apply (args.take k)) t :=
  h.fireWith hσ (h.reducer hσ) hu

end

end Contains

end Signature

end LambdaPi
