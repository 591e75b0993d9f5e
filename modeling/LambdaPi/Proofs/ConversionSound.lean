import Mathlib
import LambdaPi.Proofs.ReductionWithin

/-!
# Reduction is sound for conversion

Everything the engine does to terms is a conversion: what is fired, what a term is reduced to, and
two terms that are found convertible. By `ReductionWithin` this comes down to single steps, and all
but one are constructors of conversion. The remaining one is the firing of a rule.

When a rule matches, its left-hand side has an instance that is convertible with the arguments, and
the term that is built from the bindings is the same instance of the right-hand side. Both use the
values that bindings give to meta-variables (`Bindings.valuation`): a binding applied to new
variables is a term with holes.
-/

namespace LambdaPi

/-! ## Bindings as values -/

theorem Holed.uniform_fill (m : Nat) (args : List Term) (c : Nat) :
    Assignment.Uniform fun n x =>
      if n < m then args.getD n (.bvar n x) else .bvar (n - m + c) x := by
  intro n x y
  simp only [List.getD_eq_getElem?_getD]
  split
  · cases args[n]? <;> rfl
  · rfl

theorem Holed.nameless_fill_congr (h : Holed) {as bs : List Term}
    (hargs : as.map Term.nameless = bs.map Term.nameless) (c : Nat) :
    (h.fill as c).nameless = (h.fill bs c).nameless := by
  refine Term.nameless_inst_congr (uniform_fill h.holes as c) (uniform_fill h.holes bs c) ?_ rfl
  funext n x
  have key : ∀ args : List Term, (args[n]?.getD (.bvar n none)).nameless
      = (args.map Term.nameless)[n]?.getD (.bvar n none) := by
    intro args
    rw [List.getElem?_map]
    cases args[n]? <;> rfl
  simp only [Assignment.nameless, List.getD_eq_getElem?_getD]
  split
  · rw [key, key, hargs]
  · rfl

namespace Binding

/-- The bound term with its arguments as holes. -/
def holed (b : Binding) : Holed :=
  ⟨b.arity, b.instantiate (newVariables b.arity) b.arity⟩

variable {b : Binding} {args : List Term}

/-- Filling the holes is using the binding with other arguments. -/
theorem nameless_fill_holed (h : b.MatchedBy args) {us : List Term} (hlen : us.length = b.arity)
    (c : Nat) : (b.holed.fill us c).nameless = (b.instantiate us c).nameless := by
  have huniform := Holed.uniform_fill b.arity us c
  have hbody := nameless_instantiate b (newVariables b.arity) b.arity
  rw [nameless_instantiate]
  refine (Term.nameless_inst_congr huniform huniform rfl hbody).trans ?_
  rw [Term.inst_inst]
  refine Term.nameless_inst_congr_free (fun n x hn => ?_) h.valid
  rw [Bool.or_eq_true, decide_eq_true_eq] at hn
  by_cases hdepth : b.depth ≤ n
  · simp only [assignment, if_neg (Nat.not_lt.mpr hdepth), Term.inst_bvar]
    rw [if_neg (by omega), Nat.add_sub_cancel]
  · obtain ⟨k, hk⟩ := Option.isSome_iff_exists.mp (hn.resolve_left hdepth)
    obtain ⟨name, hname⟩ := (localPositions_getD h.positions n k).mp hk
    have hklt : k < b.arity := h.arity ▸ (List.getElem?_eq_some_iff.mp hname).1
    have hvar : (newVariables b.arity)[k]? = some (.bvar k none) := by
      simp [newVariables, hklt]
    simp only [assignment, if_pos (Nat.lt_of_not_le hdepth), hk, Option.bind_some, hvar,
      Option.getD_some, Term.inst_bvar, if_pos hklt]
    rw [List.getD_eq_getElem?_getD, List.getElem?_eq_getElem (hlen ▸ hklt)]
    rfl

end Binding

/-- The values that bindings give to meta-variables. -/
def Bindings.valuation (θ : Bindings) : Valuation :=
  fun X => (θ.lookup X).map Binding.holed

/-! ## Right-hand sides -/

namespace Term

/-- Putting bindings in place is putting their values in place. -/
theorem nameless_fill {θ : Bindings} (hθ : ∀ X b, θ.lookup X = some b → ∃ as, b.MatchedBy as)
    {t : Term} (hlen : ∀ X args b, .mvar (some X) args ∈ t.subterms → θ.lookup X = some b →
      args.length = b.arity) (c : Nat) :
    (t.fill θ c).nameless = (t.valuate θ.valuation c).nameless := by
  induction t generalizing c with
  | kind | type | symb | bvar | joker => rfl
  | appl f a ihf iha =>
      simp only [fill, valuate, nameless,
        ihf fun X args b hX => hlen X args b (mem_subterms_appl_left hX _),
        iha fun X args b hX => hlen X args b (mem_subterms_appl_right hX _)]
  | prod x A B ihA ihB =>
      simp only [fill, valuate, nameless,
        ihA fun X args b hX => hlen X args b (mem_subterms_prod_left hX _ _),
        ihB fun X args b hX => hlen X args b (mem_subterms_prod_right hX _ _)]
  | abst x A t ihA iht =>
      have hann : (A.map (fill θ c)).map nameless
          = (A.map (valuate θ.valuation c)).map nameless := by
        cases A with
        | none => rfl
        | some B =>
            exact congrArg some (ihA B rfl (fun X args b hX =>
              hlen X args b (mem_subterms_abst_ann hX _ _)) c)
      simp only [fill, valuate, nameless, fillAnn_eq_map, valuateAnn_eq_map, namelessAnn_eq_map,
        hann, iht fun X args b hX => hlen X args b (mem_subterms_abst_body hX _ _)]
  | mvar m args ih =>
      have hargs : (args.map (fill θ c)).map nameless
          = (args.map (valuate θ.valuation c)).map nameless := by
        rw [List.map_map, List.map_map]
        exact List.map_congr_left fun a ha => ih a ha (fun X as b hX =>
          hlen X as b (mem_subterms_mvar hX ha _)) c
      cases m with
      | none =>
          simp only [fill, valuate, fillArgs_eq_map, valuateArgs_eq_map, Option.bind_none, nameless,
            namelessArgs_eq_map, hargs]
      | some X =>
          simp only [fill, valuate, fillArgs_eq_map, valuateArgs_eq_map, Option.bind_some,
            Bindings.valuation]
          cases hX : θ.lookup X with
          | none => simp only [Option.map_none, nameless, namelessArgs_eq_map, hargs]
          | some b =>
              obtain ⟨as, has⟩ := hθ X b hX
              have hl := hlen X args b (mem_subterms_self _) hX
              simp only [Option.map_some]
              rw [← Binding.nameless_fill_holed has (by simpa using hl)]
              exact Holed.nameless_fill_congr b.holed hargs c

end Term

/-! ## Left-hand sides -/

theorem exists_list {β : Type} {n : Nat} {P : Nat → β → Prop} (h : ∀ i < n, ∃ b, P i b) :
    ∃ bs : List β, n = bs.length ∧ ∀ (i : Nat) (b : β), bs[i]? = some b → P i b := by
  refine ⟨List.ofFn fun i : Fin n => (h i i.isLt).choose, by simp, fun i b hb => ?_⟩
  rw [List.getElem?_ofFn] at hb
  split at hb
  · next hi =>
    obtain rfl := Option.some.inj hb
    exact (h i hi).choose_spec
  · cases hb

/-- Every term has an instance. -/
theorem Instance.exists (θ : Valuation) (c : Nat) (p : Term) : ∃ t, Instance θ c p t := by
  induction p generalizing c with
  | kind => exact ⟨_, .kind⟩
  | type => exact ⟨_, .type⟩
  | symb => exact ⟨_, .symb⟩
  | bvar => exact ⟨_, .bvar⟩
  | joker => exact ⟨.joker, .joker⟩
  | appl f a ihf iha =>
      obtain ⟨f', hf⟩ := ihf c
      obtain ⟨a', ha⟩ := iha c
      exact ⟨_, .appl hf ha⟩
  | prod x A B ihA ihB =>
      obtain ⟨A', hA⟩ := ihA c
      obtain ⟨B', hB⟩ := ihB (c + 1)
      exact ⟨_, .prod hA hB⟩
  | abst x A t ihA iht =>
      obtain ⟨t', ht⟩ := iht (c + 1)
      cases A with
      | none => exact ⟨.abst x none t', .abst rfl nofun ht⟩
      | some A =>
          obtain ⟨A', hA⟩ := ihA A rfl c
          refine ⟨.abst x (some A') t', .abst rfl (fun B B' hB hB' => ?_) ht⟩
          obtain rfl := Option.some.inj hB
          obtain rfl := Option.some.inj hB'
          exact hA
  | mvar m args ih =>
      obtain ⟨args', hlen, hargs⟩ := exists_list
        (P := fun i a' => ∀ a, args[i]? = some a → Instance θ c a a') fun i hi => by
          obtain ⟨a', ha'⟩ := ih args[i] (List.getElem_mem hi) c
          refine ⟨a', fun a ha => ?_⟩
          rw [List.getElem?_eq_getElem hi] at ha
          exact Option.some.inj ha ▸ ha'
      replace hargs := fun i a a' ha ha' => hargs i a' ha' a ha
      cases m with
      | none => exact ⟨.joker, .unnamed⟩
      | some X =>
          cases hX : θ X with
          | none => exact ⟨_, .unbound hX hlen hargs⟩
          | some h => exact ⟨_, .bound hX hlen hargs⟩

theorem Instance.apply {θ : Valuation} {c : Nat} {f f' : Term} (hf : Instance θ c f f')
    {as bs : List Term} (hlen : as.length = bs.length)
    (h : ∀ (i : Nat) (a b : Term), as[i]? = some a → bs[i]? = some b → Instance θ c a b) :
    Instance θ c (f.apply as) (f'.apply bs) :=
  Term.apply_rel .appl hf hlen h

namespace Signature

variable {σ : Signature}

/-- The values agree with every occurrence that was matched. -/
def Represents (σ : Signature) (θ : Valuation) (occ : Bindings) : Prop :=
  ∀ X b, (X, b) ∈ occ → ∃ h, θ X = some h ∧ h.holes = b.arity ∧ σ.Conv h.body b.holed.body

/-- The occurrences in one of several arguments. -/
theorem Represents.part {θ : Valuation} {θs : List Bindings} (h : σ.Represents θ θs.flatten)
    {ps : List Term} (hlen : ps.length = θs.length) {i : Nat} {q : Term} (hq : ps[i]? = some q) :
    ∃ η, θs[i]? = some η ∧ σ.Represents θ η := by
  have hi : i < θs.length := hlen ▸ (List.getElem?_eq_some_iff.mp hq).1
  exact ⟨θs[i], List.getElem?_eq_getElem hi, fun X b hb =>
    h X b (List.mem_flatten.mpr ⟨_, List.getElem_mem hi, hb⟩)⟩

theorem Conv.fill (hσ : ∀ s, ∀ rule ∈ σ.rulesOf s, rule.Regular) {h h' : Holed}
    (hholes : h.holes = h'.holes) (hbody : σ.Conv h.body h'.body) (args : List Term) (c : Nat) :
    σ.Conv (h.fill args c) (h'.fill args c) := by
  unfold Holed.fill
  rw [hholes]
  exact hbody.inst hσ (Holed.uniform_fill h'.holes args c)

/-- The arguments of a symbol or variable, one by one. -/
theorem exists_instances {θ : Valuation} {d : Nat} {ps ts : List Term}
    (hts : ps.length = ts.length)
    (h : ∀ (i : Nat) (q v : Term), ps[i]? = some q → ts[i]? = some v →
      ∃ v', Instance θ d q v' ∧ σ.Conv v v') :
    ∃ ts', (∀ {f f'}, Instance θ d f f' → Instance θ d (f.apply ps) (f'.apply ts'))
      ∧ ∀ {g f'}, σ.Conv g f' → σ.Conv (g.apply ts) (f'.apply ts') := by
  obtain ⟨ts', hlen, hpoint⟩ := exists_list (n := ps.length) (P := fun i v' => ∀ q v,
      ps[i]? = some q → ts[i]? = some v → Instance θ d q v' ∧ σ.Conv v v') fun i hi => by
    obtain ⟨v', hv'⟩ := h i _ _ (List.getElem?_eq_getElem hi) (List.getElem?_eq_getElem (hts ▸ hi))
    refine ⟨v', fun q v hq hv => ?_⟩
    rw [List.getElem?_eq_getElem hi] at hq
    rw [List.getElem?_eq_getElem (hts ▸ hi)] at hv
    exact Option.some.inj hq ▸ Option.some.inj hv ▸ hv'
  refine ⟨ts', fun hf => hf.apply hlen fun i q v' hq hv' => ?_,
    fun hg => hg.apply_congr (hts.symm.trans hlen) fun i v v' hv hv' => ?_⟩
  · have hi := (List.getElem?_eq_some_iff.mp hq).1
    exact (hpoint i v' hv' q _ hq (List.getElem?_eq_getElem (hts ▸ hi))).1
  · have hi := (List.getElem?_eq_some_iff.mp hv).1
    exact (hpoint i v' hv' _ v (List.getElem?_eq_getElem (hts ▸ hi)) hv).2

/-- A term that matches a pattern up to conversion is convertible with an instance of it. -/
theorem exists_instance (hσ : ∀ s, ∀ rule ∈ σ.rulesOf s, rule.Regular) {θ : Valuation} {d : Nat}
    {p t : Term} {occ : Bindings} (h : Matches ⟨σ.Conv, σ.Conv⟩ d p t occ)
    (hθ : σ.Represents θ occ) : ∃ t', Instance θ d p t' ∧ σ.Conv t t' := by
  induction h with
  | joker => exact ⟨_, .joker, .refl _⟩
  | unnamed => exact ⟨_, .unnamed, .refl _⟩
  | @named d X as t u positions htu hpositions huses =>
      obtain ⟨h, hX, hholes, hbody⟩ := hθ X _ (List.mem_singleton.mpr rfl)
      have hmatched : Binding.MatchedBy ⟨u, d, positions⟩ as :=
        ⟨hpositions, (Binding.valid_eq_usesOnly hpositions u).trans huses⟩
      refine ⟨h.fill as d, .bound hX rfl (fun i a a' ha ha' => ?_), .trans htu (.symm ?_)⟩
      · -- the arguments are variables, which have no instance but themselves
        obtain rfl := Option.some.inj (ha.symm.trans ha')
        obtain ⟨x, name, rfl, -⟩ := localPositions_vars hpositions a (List.mem_of_getElem? ha)
        exact .bvar
      · refine .trans (.fill hσ hholes hbody as d) (.names ?_)
        rw [Binding.nameless_fill_holed hmatched hmatched.arity.symm]
        exact Binding.nameless_instantiate_args hpositions hmatched.valid
  | @abst d x A q t y B u θ₀ htu _ ih =>
      obtain ⟨u', hinst, hconv⟩ := ih hθ
      obtain ⟨A', hA', hann⟩ : ∃ A' : Option Term, A.isSome = A'.isSome
          ∧ ∀ B B', A = some B → A' = some B' → Instance θ d B B' := by
        cases A with
        | none => exact ⟨none, rfl, nofun⟩
        | some C =>
            obtain ⟨C', hC⟩ := Instance.exists θ d C
            refine ⟨some C', rfl, fun B B' hB hB' => ?_⟩
            exact Option.some.inj hB ▸ Option.some.inj hB' ▸ hC
      exact ⟨.abst x A' u', .abst hA' hann hinst, .trans htu (.abst_congr hconv)⟩
  | @symb d p t u s ps ts θs hp htu hu hts hθs _ ih =>
      obtain ⟨ts', hinst, hconv⟩ := exists_instances hts fun i q v hq hv => by
        obtain ⟨η, hη, hrep⟩ := hθ.part hθs hq
        exact ih i q v η hq hv hη hrep
      rw [Term.eq_apply_of_unapply hp]
      refine ⟨_, hinst .symb, .trans htu ?_⟩
      rw [Term.eq_apply_of_unapply hu]
      exact hconv (.refl _)
  | @bvar d p t u n x y ps ts θs hp htu hu hts hθs _ ih =>
      obtain ⟨ts', hinst, hconv⟩ := exists_instances hts fun i q v hq hv => by
        obtain ⟨η, hη, hrep⟩ := hθ.part hθs hq
        exact ih i q v η hq hv hη hrep
      rw [Term.eq_apply_of_unapply hp]
      refine ⟨_, hinst .bvar, .trans htu ?_⟩
      rw [Term.eq_apply_of_unapply hu]
      exact hconv (.names rfl)

/-! ## Steps are conversions -/

/-- Firing a rule that matches up to conversion is a conversion. -/
theorem conv_rule {P : Rule → Prop} (hσ : σ.Reachable P) (hP : ∀ rule, P rule → rule.Regular)
    {s : Symbol} {rule : Rule} {args : List Term} {occ θ : Bindings} (hrule : rule ∈ σ.rulesOf s)
    (hmatch : rule.Matches ⟨σ.Conv, σ.Conv⟩ args occ) (hcoll : Collected σ.Conv θ occ) :
    σ.Conv ((Term.symb s).apply (args.take rule.arity)) (rule.instantiate θ) := by
  have hregular : ∀ s, ∀ rule ∈ σ.rulesOf s, rule.Regular := fun s rule hrule =>
    hP rule ((hσ.coherent s).holds rule hrule)
  have hreg := hregular s rule hrule
  have hhead : rule.head = s := (hσ.coherent s).head rule hrule
  have hlookup : ∀ {X b}, θ.lookup X = some b →
      ∃ as, .mvar (some X) as ∈ rule.lhs.subterms ∧ b.MatchedBy as := fun hX =>
    hmatch.occurrence (hcoll.occurs _ _ (mem_of_lookup hX))
  have hrep : σ.Represents θ.valuation occ := by
    intro X b hb
    obtain ⟨b₀, hb₀, hagree⟩ := hcoll.agrees X b hb
    obtain ⟨as, has, hmatched⟩ := hmatch.occurrence hb
    obtain ⟨as₀, has₀, hmatched₀⟩ := hlookup hb₀
    have harity : b₀.arity = b.arity := by
      rw [hmatched.arity, hmatched₀.arity, hreg.lhs_arity has₀ has]
    refine ⟨b₀.holed, by rw [Bindings.valuation, hb₀]; rfl, harity, ?_⟩
    rcases hagree with rfl | hagree
    · exact .refl _
    · simpa only [Binding.holed, harity] using hagree
  have hfits : θ.valuation.Fits rule.lhs := by
    intro X h hX
    obtain ⟨b, hb, rfl⟩ := Option.map_eq_some_iff.mp hX
    obtain ⟨as, has, hmatched⟩ := hlookup hb
    exact ⟨⟨as, has⟩, fun bs hbs => (hreg.lhs_arity hbs has).trans hmatched.arity.symm⟩
  obtain ⟨θs, rfl, hts, hθs, hall⟩ := MatchesAll.getElem? hmatch
  obtain ⟨ts', hinst, hconv⟩ := exists_instances hts fun i q v hq hv => by
    obtain ⟨η, hη, hrep'⟩ := hrep.part hθs hq
    exact exists_instance hregular (hall i q v η hq hv hη) hrep'
  have hrhs : (rule.instantiate θ).nameless = (rule.rhs.valuate θ.valuation 0).nameless := by
    rw [rule.instantiate_eq_fill]
    refine Term.nameless_fill (fun X b hX => ?_) (fun X as b hX hb => ?_) 0
    · obtain ⟨as, -, hmatched⟩ := hlookup hX
      exact ⟨as, hmatched⟩
    · obtain ⟨as', has', hmatched⟩ := hlookup hb
      rw [hmatched.arity, hreg.rhs_arity has' hX]
  refine .trans (hconv (.refl _)) (.trans (.rule hrule hfits ?_) (.names hrhs.symm))
  exact hhead ▸ hinst .symb

theorem forall_compareArgs {R : Term → Term → Prop} {depth : Nat} {as bs : List Term}
    (h : ∀ c ∈ Term.compareArgs depth as bs, R c.left c.right) :
    ∀ (i : Nat) (a b : Term), as[i]? = some a → bs[i]? = some b → R a b := by
  induction as generalizing bs with
  | nil => exact fun i a b ha => nomatch ha
  | cons a as ih =>
      cases bs with
      | nil => exact fun i a b _ hb => nomatch hb
      | cons b bs =>
          obtain ⟨hhead, htail⟩ := List.forall_mem_cons.mp h
          intro i c d hc hd
          cases i with
          | zero =>
              obtain rfl := Option.some.inj hc
              obtain rfl := Option.some.inj hd
              exact hhead
          | succ i => exact ih htail i c d hc hd

/-- Terms with one outermost constructor are convertible if their parts are. Annotations need not be
compared. -/
theorem conv_parts {t u : Term} {depth : Nat} {parts : List Comparison}
    (h : t.sameHead depth u = some parts) (hall : ∀ c ∈ parts, σ.Conv c.left c.right) :
    σ.Conv t u := by
  unfold Term.sameHead at h
  split at h
  · exact .refl _
  · exact .refl _
  · exact .refl _
  · split at h
    · next hs => exact hs ▸ .refl _
    · cases h
  · split at h
    · next hn => exact hn ▸ .names rfl
    · cases h
  · obtain rfl := Option.some.inj h
    rw [List.forall_mem_cons, List.forall_mem_cons] at hall
    exact .appl hall.1 hall.2.1
  · obtain rfl := Option.some.inj h
    rw [List.forall_mem_cons, List.forall_mem_cons] at hall
    exact .prod_congr hall.1 hall.2.1
  · obtain rfl := Option.some.inj h
    exact .abst_congr (hall _ (List.mem_append_right _ (List.mem_singleton.mpr rfl)))
  · split at h
    · next hm =>
      obtain ⟨rfl, hlen⟩ := hm
      obtain rfl := Option.some.inj h
      exact .mvar hlen (forall_compareArgs hall)
    · cases h
  · cases h

theorem conv_of_allEqual {cs : List Comparison} (h : Comparison.allEqual cs = true) :
    ∀ c ∈ cs, σ.Conv c.left c.right := by
  fun_induction Comparison.allEqual cs with
  | case1 =>
      intro c hc
      cases hc
  | case2 => cases h
  | case3 c rest parts hparts ih =>
      obtain ⟨hleft, hright⟩ := List.forall_mem_append.mp (ih h)
      refine List.forall_mem_cons.mpr ⟨conv_parts hparts fun d hd => ?_, hright⟩
      exact hleft d (List.mem_reverse.mpr hd)

theorem conv_etaPart? {t u : Term} {depth : Nat} {c : Comparison} (heta : σ.eta = true)
    (h : etaPart? depth t u = some c) (hc : σ.Conv c.left c.right) : σ.Conv t u := by
  -- an abstraction whose body is an applied term is that term
  have expanded : ∀ {x : String} {A : Option Term} {body v : Term},
      σ.Conv body (.appl (v.lift 1) (.bvar 0 none)) → σ.Conv (.abst x A body) v :=
    fun hbody => .trans (.abst_congr hbody) (.eta (x := "") heta)
  unfold etaPart? at h
  split at h
  · cases h
  · obtain rfl := Option.some.inj h
    exact expanded hc
  · obtain rfl := Option.some.inj h
    exact .symm (expanded hc)
  · cases h

/-- Every step of reduction and of comparison is a conversion. -/
theorem contains_conv {P : Rule → Prop} (hσ : σ.Reachable P)
    (hP : ∀ rule, P rule → rule.Regular) : σ.Contains σ.Conv σ.Conv where
  refl := .refl
  trans := .trans
  appl := .appl
  prod := .prod
  abst := .abst
  annotated _ ht := .abst_congr ht
  mvar := .mvar
  beta := .beta
  rule := conv_rule hσ hP
  equal {t u} h := by
    rw [Term.equals_eq_allEqual] at h
    exact conv_of_allEqual h _ (List.mem_singleton.mpr rfl)
  reduced ht hu h := .trans ht (.trans h (.symm hu))
  parts := conv_parts
  args _ hlen hall := .apply_congr (.refl _) hlen (forall_compareArgs hall)
  eta := conv_etaPart?

/-- Whatever evaluation returns is convertible with what it was given: a symbol applied to the
arguments that a rule consumes with what the rule gives, a term with its weak head normal form and
its normal form, and two terms that are found convertible. -/
theorem evaluation_within_conv (hσ : σ.Reachable Rule.Admissible) (budget : Nat) :
    (∀ s args t k, (σ.fire budget s args).value = some (some (t, k)) →
        k ≤ args.length ∧ σ.Conv ((Term.symb s).apply (args.take k)) t)
      ∧ (∀ t u, (σ.whnf budget t).value = some u → σ.Conv t u)
      ∧ (∀ t u, (σ.nf budget t).value = some u → σ.Conv t u)
      ∧ ∀ t u, (σ.convertible budget t u).value = some true → σ.Conv t u := by
  have hconv := contains_conv hσ fun rule => Rule.Admissible.regular
  refine ⟨fun s args t k hfire => ⟨?_, hconv.fire hσ hfire⟩, fun t u => hconv.whnf hσ,
    fun t u => hconv.nf hσ, fun t u => hconv.convertible hσ⟩
  obtain ⟨rule, occ, θ, -, hmatch, -, -, rfl⟩ :=
    hσ.fireWith_matches hconv.lawful (hconv.reducer hσ) hfire
  exact hmatch.arity_le

/-- The rule `f X X (x => Y[x]) --> Y[X]`: one meta-variable occurs twice, the other under a
binder. -/
def diagonalRule : Rule where
  name := "diagonal"
  head := ⟨"f"⟩
  args := [.mvar (some (.named "X")) [], .mvar (some (.named "X")) [],
    .abst "x" none (.mvar (some (.named "Y")) [.bvar 0 none])]
  rhs := .mvar (some (.named "Y")) [.mvar (some (.named "X")) []]

/-- A signature with that rule. -/
def diagonal : Signature where
  entries := [(⟨"f"⟩, ⟨.type, false, false⟩)]
  ruleSets := [(⟨"f"⟩, .ofRules [diagonalRule])]

theorem reachable_diagonal : diagonal.Reachable Rule.Admissible := by
  have hdeclared : Signature.Reachable Rule.Admissible { diagonal with ruleSets := [] } :=
    .declare .empty (show ({} : Signature).declare ⟨"f"⟩ .type false = .ok _ from rfl)
  have hrule : Rule.ofSides "diagonal" diagonalRule.lhs diagonalRule.rhs = .ok diagonalRule := by
    cbv
  exact .addRule hdeclared (Or.inl ⟨_, _, _, hrule⟩) (by cbv)

/-- The two arguments that stand for one meta-variable are compared up to conversion, and the second
of them is kept. -/
theorem evaluation_within_conv_diagonal :
    (diagonal.fire 9 ⟨"f"⟩ [.appl (.abst "x" none (.bvar 0 none)) (.symb ⟨"a"⟩), .symb ⟨"a"⟩,
        .abst "z" none (.appl (.bvar 0 none) (.bvar 0 none))]).value
      = some (some (.appl (.symb ⟨"a"⟩) (.symb ⟨"a"⟩), 3))
    ∧ diagonal.Conv ((Term.symb ⟨"f"⟩).apply [.appl (.abst "x" none (.bvar 0 none)) (.symb ⟨"a"⟩),
        .symb ⟨"a"⟩, .abst "z" none (.appl (.bvar 0 none) (.bvar 0 none))])
      (.appl (.symb ⟨"a"⟩) (.symb ⟨"a"⟩)) := by
  have hfire : (diagonal.fire 9 ⟨"f"⟩ [.appl (.abst "x" none (.bvar 0 none)) (.symb ⟨"a"⟩),
      .symb ⟨"a"⟩, .abst "z" none (.appl (.bvar 0 none) (.bvar 0 none))]).value
      = some (some (.appl (.symb ⟨"a"⟩) (.symb ⟨"a"⟩), 3)) := by cbv
  exact ⟨hfire, ((evaluation_within_conv reachable_diagonal 9).1 _ _ _ _ hfire).2⟩

end Signature

end LambdaPi
