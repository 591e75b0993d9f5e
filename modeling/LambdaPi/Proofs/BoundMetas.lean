import Mathlib
import LambdaPi.Proofs.Marks

/-!
# Meta-variables that a match binds

A rule is accepted if every meta-variable of its right-hand side occurs on the left. Where it occurs
makes a difference: matching looks at the bodies of abstractions and not at their annotations, and it
never looks into the arguments of a meta-variable without a name. A meta-variable that occurs in such
places only is never bound. `Term.patternMetas` are the others, and those are bound by every match
(`MatchesAll.binds_iff`).

An instance of the right-hand side therefore shows a meta-variable only if it comes from the terms
that were matched, or if on the left it stands only where matching does not look.
-/

namespace LambdaPi

/-! ## Meta-variables that matching looks at -/

namespace Term

/-- The named meta-variables of a pattern, but for those in annotations and those in the arguments of
meta-variables. -/
def patternMetas : Term → List MetaName
  | mvar (some X) _ => [X]
  | appl f a => f.patternMetas ++ a.patternMetas
  | prod _ A B => A.patternMetas ++ B.patternMetas
  | abst _ _ t => t.patternMetas
  | _ => []

theorem mem_patternMetas_apply {X : MetaName} {f : Term} {args : List Term} :
    X ∈ (f.apply args).patternMetas ↔ X ∈ f.patternMetas ∨ ∃ a ∈ args, X ∈ a.patternMetas := by
  induction args generalizing f with
  | nil => simp
  | cons a args ih =>
      simp only [apply_cons, ih, patternMetas, List.mem_append, List.mem_cons, exists_eq_or_imp,
        or_assoc]

end Term

/-- A match of a head applied to patterns binds what the patterns bind. -/
theorem flatten_binds_iff {X : MetaName} {ps ts : List Term}
    {θs : List Bindings} (hts : ps.length = ts.length) (hθs : ps.length = θs.length)
    (h : ∀ (i : Nat) (q v : Term) (θ : Bindings), ps[i]? = some q → ts[i]? = some v →
      θs[i]? = some θ → ((∃ b, (X, b) ∈ θ) ↔ X ∈ q.patternMetas)) :
    (∃ b, (X, b) ∈ θs.flatten) ↔ ∃ q ∈ ps, X ∈ q.patternMetas := by
  constructor
  · rintro ⟨b, hb⟩
    obtain ⟨i, q, v, θ, hq, hv, hθ, hb⟩ := mem_flatten_args hts hθs hb
    exact ⟨q, List.mem_of_getElem? hq, (h i q v θ hq hv hθ).mp ⟨b, hb⟩⟩
  · rintro ⟨q, hq, hX⟩
    obtain ⟨i, hi⟩ := List.mem_iff_getElem?.mp hq
    have hlt := (List.getElem?_eq_some_iff.mp hi).1
    have hθ := List.getElem?_eq_getElem (hθs ▸ hlt)
    obtain ⟨b, hb⟩ := (h i q _ _ hi (List.getElem?_eq_getElem (hts ▸ hlt)) hθ).mpr hX
    exact ⟨b, List.mem_flatten.mpr ⟨_, List.mem_of_getElem? hθ, hb⟩⟩

theorem Matches.binds_iff {V : View} {d : Nat} {p t : Term} {occ : Bindings}
    (h : Matches V d p t occ) (X : MetaName) :
    (∃ b, (X, b) ∈ occ) ↔ X ∈ p.patternMetas := by
  induction h with
  | joker | unnamed => simp [Term.patternMetas]
  | named => simp [Term.patternMetas]
  | abst _ _ ih => exact ih
  | symb hp _ _ hts hθs _ ih =>
      rw [Term.eq_apply_of_unapply hp, Term.mem_patternMetas_apply,
        flatten_binds_iff hts hθs ih]
      simp [Term.patternMetas]
  | bvar hp _ _ hts hθs _ ih =>
      rw [Term.eq_apply_of_unapply hp, Term.mem_patternMetas_apply,
        flatten_binds_iff hts hθs ih]
      simp [Term.patternMetas]

theorem MatchesAll.binds_iff {V : View} {ds : List Nat} {ps ts : List Term} {occ : Bindings}
    (h : MatchesAll V ds ps ts occ) (X : MetaName) :
    (∃ b, (X, b) ∈ occ) ↔ ∃ p ∈ ps, X ∈ p.patternMetas := by
  induction h with
  | nil => simp
  | cons hp _ ih =>
      simp only [List.mem_append, exists_or, hp.binds_iff X, ih, List.mem_cons, exists_eq_or_imp]

theorem Collected.lookup_iff {A : Term → Term → Prop} {θ occ : Bindings} (h : Collected A θ occ)
    (X : MetaName) : (∃ b, θ.lookup X = some b) ↔ ∃ b, (X, b) ∈ occ := by
  constructor
  · rintro ⟨b, hb⟩
    exact ⟨b, h.occurs X b (mem_of_lookup hb)⟩
  · rintro ⟨b, hb⟩
    obtain ⟨b₀, hb₀, -⟩ := h.agrees X b hb
    exact ⟨b₀, hb₀⟩

/-! ## Accepted rules -/

/-- A meta-variable of the right-hand side has a name and occurs on the left. -/
theorem Rule.rhs_mvar_of_ofSides {name : String} {lhs rhs : Term} {rule : Rule}
    (h : Rule.ofSides name lhs rhs = .ok rule) {m : Option MetaName}
    (hm : rule.rhs.Has (.mvar m)) : ∃ X, m = some X ∧ rule.lhs.Has (.mvar (some X)) := by
  obtain ⟨hlhs, -, rfl, -, -, -, hrhs⟩ := ofSides_ok_iff.mp h
  obtain ⟨u, hu, hmark⟩ := hm
  cases u with
  | mvar m' as =>
      obtain rfl := Mark.mvar.inj (Option.some.inj hmark)
      obtain ⟨X, rfl, hX⟩ := (hrhs _ hu).2 m' as rfl
      obtain ⟨v, hv, hX⟩ := List.mem_filterMap.mp hX
      refine ⟨X, rfl, v, ?_, ?_⟩
      · rwa [Rule.lhs, ← Term.eq_apply_of_unapply hlhs]
      · split at hX
        · obtain ⟨rfl, -⟩ := Prod.mk.inj (Option.some.inj hX)
          rfl
        · cases hX
  | symb | joker | abst => cases hmark
  | kind | type | bvar | appl | prod => cases hmark

/-! ## What matching sees -/

/-- What matching may come upon in a term: the term itself, what it is reduced to, and parts. -/
inductive Reducer.Sees (red : Reducer) (t : Term) : Term → Prop
  | self : Sees red t t
  | whnf {u v} : Sees red t u → (red.whnf u).value = some v → Sees red t v
  | nf {u v} : Sees red t u → (red.nf u).value = some v → Sees red t v
  | part {u v shape parts} : Sees red t u → u.shape? = some (shape, parts) → v ∈ parts →
      Sees red t v

namespace Reducer

/-- A view in which a term may be replaced by anything that is seen wherever the term is. -/
def sight (red : Reducer) : View where
  whnf u v := ∀ t, red.Sees t u → red.Sees t v
  settles u v := ∀ t, red.Sees t u → red.Sees t v

theorem lawful_sight (red : Reducer) : red.sight.Lawful where
  keep _ _ := id
  fixed _ _ := id
  trans h h' t ht := h' t (h t ht)
  settle h h' t ht := h' t (h t ht)

theorem within_sight (red : Reducer) : red.Within red.sight fun _ _ => True where
  whnf h _ ht := ht.whnf h
  nf h _ ht := ht.nf h
  convertible _ := trivial

theorem sees_of_matches {red : Reducer} {d : Nat} {p t : Term} {occ : Bindings}
    (h : Matches red.sight d p t occ) {X : MetaName} {b : Binding} (hb : (X, b) ∈ occ) :
    red.Sees t b.term := by
  refine Matches.bound (Q := red.Sees t) ?_ ?_ ?_ h .self hb
  · exact fun hu (huv : red.sight.whnf _ _) => huv t hu
  · exact fun hu (huv : red.sight.settles _ _) => huv t hu
  · exact fun hu hparts v hv => hu.part hparts hv

end Reducer

/-! ## What is bound -/

/-- The rule that a tree finds is one of those it was compiled of, and its patterns match the
columns, the last argument being the first column. -/
theorem DecisionTree.matches_of_find {rules : List Rule} {arity : Nat} {tree : DecisionTree}
    (htree : compile rules arity = .ok tree) {red : Reducer} {columns : List Term}
    (hlen : columns.length = arity) {rule : Rule} {θ : Bindings}
    (h : (tree.find red columns).value = some (some (rule, θ))) :
    rule ∈ rules ∧ ∃ occ, MatchesAll red.sight (List.replicate arity 0) (rowOf arity rule).columns
      columns occ ∧ Collected (fun _ _ => True) θ occ := by
  obtain ⟨-, harity, -, hcompiled⟩ := compile_ok htree
  have hverdict := hcompiled.verdict red.lawful_sight red.within_sight
    (fun h : False => h.elim) (aligned_matrixOf harity) (fun h => h.elim)
    (by simp [matrixOf, hlen]) (.unseen columns) h
  rw [Column.map_term_unseen] at hverdict
  obtain ⟨before, row, after, occ, hsplit, hrow, hmatch, hcoll, -⟩ := hverdict
  obtain ⟨rule', hrule', rfl⟩ : ∃ rule' ∈ rules, rowOf arity rule' = row :=
    List.mem_map.mp (show row ∈ (matrixOf rules arity).rows by rw [hsplit]; simp)
  obtain rfl : rule' = rule := hrow
  exact ⟨hrule', occ, hmatch, hcoll⟩

/-- Of the meta-variables of its right-hand side, a rule that is found binds exactly those that occur
in its patterns outside of annotations and of the arguments of meta-variables. In the instance of the
right-hand side, any other meta-variable was seen in the columns. -/
theorem find_binds_patternMetas {rules : List Rule} {arity : Nat} {tree : DecisionTree}
    (hrules : ∀ rule ∈ rules, ∃ name lhs rhs, Rule.ofSides name lhs rhs = .ok rule)
    (htree : DecisionTree.compile rules arity = .ok tree) (σ : Signature) (budget : Nat)
    {columns : List Term} (hlen : columns.length = arity) {rule : Rule} {θ : Bindings}
    (hfind : (tree.find (σ.reducer budget) columns).value = some (some (rule, θ))) :
    rule ∈ rules
      ∧ (∀ m, rule.rhs.Has (.mvar m) → ∃ X, m = some X ∧ rule.lhs.Has (.mvar (some X))
        ∧ ((∃ b, θ.lookup X = some b) ↔ ∃ p ∈ rule.args, X ∈ p.patternMetas))
      ∧ ∀ m, (rule.instantiate θ).Has (.mvar m) →
        (∃ t ∈ columns, ∃ u, (σ.reducer budget).Sees t u ∧ u.Has (.mvar m))
        ∨ ∃ X, m = some X ∧ rule.rhs.Has (.mvar m) ∧ ∀ p ∈ rule.args, X ∉ p.patternMetas := by
  obtain ⟨hrule, occ, hmatch, hcoll⟩ := DecisionTree.matches_of_find htree hlen hfind
  obtain ⟨name, lhs, rhs, hsides⟩ := hrules rule hrule
  have hbinds : ∀ X, (∃ b, θ.lookup X = some b) ↔ ∃ p ∈ rule.args, X ∈ p.patternMetas := by
    intro X
    rw [hcoll.lookup_iff, hmatch.binds_iff]
    simp only [DecisionTree.rowOf, List.mem_append, List.mem_reverse]
    constructor
    · rintro ⟨p, hp | hp, hX⟩
      · rw [List.eq_of_mem_replicate hp] at hX
        cases hX
      · exact ⟨p, hp, hX⟩
    · rintro ⟨p, hp, hX⟩
      exact ⟨p, Or.inr hp, hX⟩
  refine ⟨hrule, fun m hm => ?_, fun m hm => ?_⟩
  · obtain ⟨X, rfl, hlhs⟩ := Rule.rhs_mvar_of_ofSides hsides hm
    exact ⟨X, rfl, hlhs, hbinds X⟩
  · rw [rule.instantiate_eq_fill] at hm
    rcases Term.has_fill hm with ⟨hrhs, hfree⟩ | ⟨X, b, hX, hb⟩
    · obtain ⟨X, rfl, -⟩ := Rule.rhs_mvar_of_ofSides hsides hrhs
      refine Or.inr ⟨X, rfl, hrhs, fun p hp hX => ?_⟩
      obtain ⟨b, hb⟩ := (hbinds X).mpr ⟨p, hp, hX⟩
      cases (hfree X rfl).symm.trans hb
    · obtain ⟨d, p, t, θ', ht, -, hp, hbound⟩ :=
        hmatch.bound (hcoll.occurs X b (mem_of_lookup hX))
      exact Or.inl ⟨t, ht, b.term, Reducer.sees_of_matches hp hbound, hb⟩

/-! ## An annotation -/

/-- The rule `f (x : X => Y) --> Y X`: the meta-variable `X` stands in an annotation only. -/
def annotationRule : Rule :=
  ⟨"annotation", ⟨"f"⟩,
    [.abst "x" (some (.mvar (some (.named "X")) [])) (.mvar (some (.named "Y")) [])],
    .appl (.mvar (some (.named "Y")) []) (.mvar (some (.named "X")) [])⟩

/-- The tree of the rule for one argument: the body of an abstraction is bound to `Y`. -/
def annotationTree : DecisionTree :=
  ⟨1, .switch 0
    (.cons .abst (.test annotationRule [⟨1, .named "Y", [none], 1, [], false⟩] .fail) .nil) .fail⟩

/-- The meta-variable in the annotation is not bound, and it stays in the instance. -/
theorem find_binds_patternMetas_annotation :
    (∀ rule ∈ [annotationRule], ∃ name lhs rhs, Rule.ofSides name lhs rhs = .ok rule)
      ∧ DecisionTree.compile [annotationRule] 1 = .ok annotationTree
      ∧ ∃ θ, (annotationTree.find (({} : Signature).reducer 9)
          [.abst "x" none (.symb ⟨"a"⟩)]).value = some (some (annotationRule, θ))
        ∧ (∃ b, θ.lookup (.named "Y") = some b) ∧ θ.lookup (.named "X") = none
        ∧ (annotationRule.instantiate θ).Has (.mvar (some (.named "X")))
        ∧ ∀ m, (annotationRule.instantiate θ).Has (.mvar m) →
          (∃ t ∈ [Term.abst "x" none (.symb ⟨"a"⟩)], ∃ u,
            (({} : Signature).reducer 9).Sees t u ∧ u.Has (.mvar m))
          ∨ ∃ X, m = some X ∧ annotationRule.rhs.Has (.mvar m)
            ∧ ∀ p ∈ annotationRule.args, X ∉ p.patternMetas := by
  have hrules : ∀ rule ∈ [annotationRule], ∃ name lhs rhs, Rule.ofSides name lhs rhs = .ok rule :=
    List.forall_mem_singleton.mpr
      ⟨"annotation", annotationRule.lhs, annotationRule.rhs, by cbv⟩
  have htree : DecisionTree.compile [annotationRule] 1 = .ok annotationTree := by cbv
  have hfind : (annotationTree.find (({} : Signature).reducer 9)
      [.abst "x" none (.symb ⟨"a"⟩)]).value
        = some (some (annotationRule, [(.named "Y", ⟨.symb ⟨"a"⟩, 1, [none]⟩)])) := by cbv
  obtain ⟨-, hbinds, hseen⟩ := find_binds_patternMetas hrules htree {} 9 rfl hfind
  refine ⟨hrules, htree, _, hfind, ?_, rfl, ?_, hseen⟩
  · obtain ⟨Y, hY, -, hiff⟩ := hbinds (some (.named "Y")) (by simp [annotationRule])
    obtain rfl := Option.some.inj hY
    exact hiff.mpr ⟨_, List.mem_singleton.mpr rfl, List.mem_singleton.mpr rfl⟩
  · rw [show annotationRule.instantiate [(.named "Y", ⟨.symb ⟨"a"⟩, 1, [none]⟩)]
      = .appl (.symb ⟨"a"⟩) (.mvar (some (.named "X")) []) by cbv]
    simp

end LambdaPi
