import LambdaPi.Evaluation.Reduction
import LambdaPi.Proofs.Conversion
import LambdaPi.Proofs.TreeSearch

/-!
# Firing rules

Firing a rule consults the decision tree for the number of arguments at hand. In a signature that
was built by declarations (`Signature.Reachable`) that tree exists and is made of the rules with
that many arguments or fewer, in the order in which they were added. So what is fired is told by the
rules themselves: `Signature.Reachable.fireWith_some` and `Signature.Reachable.fireWith_none`.
-/

namespace LambdaPi

/-! ## Rules that match arguments -/

namespace Rule

/-- The patterns of the rule match the first arguments, one by one. -/
def Matches (V : View) (rule : Rule) (args : List Term) (θ : Bindings) : Prop :=
  MatchesAll V (List.replicate rule.arity 0) rule.args (args.take rule.arity) θ

/-- No meta-variable occurs twice on the left. -/
def LeftLinear (rule : Rule) : Prop :=
  rule.lhs.metaNames.Nodup

theorem Matches.arity_le {V : View} {rule : Rule} {args : List Term} {θ : Bindings}
    (h : rule.Matches V args θ) : rule.arity ≤ args.length := by
  have hlen := h.lengths.2
  rw [List.length_take] at hlen
  exact Nat.le_trans (Nat.le_of_eq hlen.symm) (Nat.min_le_right ..)

theorem Matches.occurrence {V : View} {rule : Rule} {args : List Term} {occ : Bindings}
    (h : rule.Matches V args occ) {X : MetaName} {b : Binding} (hb : (X, b) ∈ occ) :
    ∃ as, .mvar (some X) as ∈ rule.lhs.subterms ∧ b.MatchedBy as := by
  obtain ⟨p, hp, as, has, hmatched⟩ := MatchesAll.occurrence h hb
  exact ⟨as, Term.mem_subterms_apply has hp _, hmatched⟩

end Rule

namespace DecisionTree

theorem linear_rowOf {rule : Rule} (h : rule.LeftLinear) (arity : Nat) :
    (rowOf arity rule).Linear := by
  intro X
  have hX := List.nodup_iff_count.mp h X
  rw [Rule.lhs, Term.count_metaNames_apply] at hX
  rw [rowOf, Term.metaCount_append, Term.metaCount_jokers, Term.metaCount_reverse]
  omega

section

variable {V : View} {rule : Rule} {arity : Nat} {args : List Term}

theorem take_reverse_eq (h : rule.arity ≤ arity) :
    (args.take arity).reverse
      = ((args.take arity).drop rule.arity).reverse ++ (args.take rule.arity).reverse := by
  rw [← List.reverse_append, ← show (args.take arity).take rule.arity = args.take rule.arity by
    rw [List.take_take, Nat.min_eq_left h], List.take_append_drop]

theorem replicate_arity_eq (h : rule.arity ≤ arity) : List.replicate arity 0
    = List.replicate (arity - rule.arity) 0 ++ List.replicate rule.arity 0 := by
  rw [List.replicate_append_replicate, Nat.sub_add_cancel h]

/-- The arguments beyond those of the rule do not matter. -/
theorem matches_of_rowOf (harity : rule.arity ≤ arity) (hlen : arity ≤ args.length)
    {occ : Bindings}
    (h : MatchesAll V (List.replicate arity 0) (rowOf arity rule).columns
      (args.take arity).reverse occ) :
    ∃ occ', rule.Matches V args occ' ∧ SameBindings occ' occ := by
  rw [take_reverse_eq harity, replicate_arity_eq harity, rowOf] at h
  obtain ⟨θ, θ', rfl, hjokers, hargs⟩ := h.append_inv (by simp) (by simp; omega)
  obtain ⟨occ', hall, hsame⟩ := hargs.reverse
  simp only [List.reverse_replicate, List.reverse_reverse] at hall
  rw [hjokers.eq_nil_of_jokers]
  exact ⟨occ', hall, hsame⟩

theorem rowOf_of_matches (harity : rule.arity ≤ arity) (hlen : arity ≤ args.length)
    {occ : Bindings} (h : rule.Matches V args occ) :
    ∃ occ', MatchesAll V (List.replicate arity 0) (rowOf arity rule).columns
      (args.take arity).reverse occ' := by
  obtain ⟨occ', hargs, -⟩ := MatchesAll.reverse h
  rw [List.reverse_replicate] at hargs
  rw [take_reverse_eq harity, replicate_arity_eq harity, rowOf]
  exact ⟨_, (MatchesAll.jokers (n := arity - rule.arity) (by simp) (by simp; omega)).append hargs⟩

end

end DecisionTree

/-! ## Signatures built by declarations -/

/-- Signatures built by declaring symbols, marking them and adding rules that satisfy `P`. -/
inductive Signature.Reachable (P : Rule → Prop) : Signature → Prop
  | empty : Reachable P {}
  | eta {σ} (eta : Bool) : Reachable P σ → Reachable P { σ with eta }
  | declare {σ σ' s A obligation} : Reachable P σ → σ.declare s A obligation = .ok σ' →
      Reachable P σ'
  | setProven {σ σ' s} : Reachable P σ → σ.setProven s = .ok σ' → Reachable P σ'
  | declareConstant {σ} (s : Symbol) : Reachable P σ → Reachable P (σ.declareConstant s)
  | declareInjective {σ} (s : Symbol) : Reachable P σ → Reachable P (σ.declareInjective s)
  | addRule {σ σ' rule} : Reachable P σ → P rule → σ.addRule rule = .ok σ' → Reachable P σ'

theorem arity_le_longestArity {rules : List Rule} {rule : Rule} (h : rule ∈ rules) :
    rule.arity ≤ longestArity rules := by
  have hfold : ∀ (rules : List Rule) (n : Nat), n ≤ rules.foldl (fun n r => max n r.arity) n
      ∧ ∀ r ∈ rules, r.arity ≤ rules.foldl (fun n r => max n r.arity) n := by
    intro rules
    induction rules with
    | nil => exact fun n => ⟨Nat.le_refl n, nofun⟩
    | cons r rules ih =>
        intro n
        obtain ⟨hle, hall⟩ := ih (max n r.arity)
        refine ⟨Nat.le_trans (Nat.le_max_left ..) hle, List.forall_mem_cons.mpr ⟨?_, hall⟩⟩
        exact Nat.le_trans (Nat.le_max_right ..) hle
  exact (hfold rules 0).2 rule h

theorem filter_eq_nil_of_treeUpTo {rules : List Rule} {arity : Nat}
    (h : treeUpTo rules arity = .ok none) : rules.filter (·.arity ≤ arity) = [] := by
  unfold treeUpTo at h
  split at h
  · assumption
  · next rule rest _ =>
    cases hc : DecisionTree.compile (rule :: rest) arity <;> rw [hc] at h <;> cases h

theorem compile_of_treeUpTo {rules : List Rule} {arity : Nat} {tree : DecisionTree}
    (h : treeUpTo rules arity = .ok (some tree)) :
    DecisionTree.compile (rules.filter (·.arity ≤ arity)) arity = .ok tree := by
  unfold treeUpTo at h
  split at h
  · cases h
  · next rule rest hfilter =>
    rw [hfilter]
    cases hc : DecisionTree.compile (rule :: rest) arity <;> rw [hc] at h <;> cases h
    rfl

theorem exists_treeUpTo {rules : List Rule} {s : Symbol} (hhead : ∀ rule ∈ rules, rule.head = s)
    (hpatterns : ∀ rule ∈ rules, ∀ p ∈ rule.args, PatternAt 0 p) (arity : Nat) :
    ∃ cell, treeUpTo rules arity = .ok cell := by
  unfold treeUpTo
  split
  · exact ⟨none, rfl⟩
  · next rule rest hfilter =>
    have hmem : ∀ r ∈ rule :: rest, r ∈ rules ∧ r.arity ≤ arity := by
      intro r hr
      rw [← hfilter] at hr
      simpa using List.mem_filter.mp hr
    obtain ⟨tree, htree⟩ := DecisionTree.compile_ok_iff.mpr ⟨List.cons_ne_nil rule rest,
      fun r hr r' hr' => (hhead r (hmem r hr).1).trans (hhead r' (hmem r' hr').1).symm,
      fun r hr => (hmem r hr).2, fun r hr => hpatterns r (hmem r hr).1⟩
    exact ⟨some tree, by rw [htree]; rfl⟩

namespace RuleSet

/-- The given rules and no flags. -/
def ofRules (rules : List Rule) : RuleSet :=
  { rules, trees := treesOf rules }

/-- The rules of a symbol satisfy `P` and can be compiled, and the trees are theirs. -/
structure Coherent (P : Rule → Prop) (s : Symbol) (r : RuleSet) : Prop where
  head : ∀ rule ∈ r.rules, rule.head = s
  holds : ∀ rule ∈ r.rules, P rule
  patterns : ∀ rule ∈ r.rules, ∀ p ∈ rule.args, PatternAt 0 p
  trees : r.rules = [] ∧ r.trees = [] ∨ r.trees = treesOf r.rules

variable {P : Rule → Prop} {s : Symbol} {r : RuleSet}

theorem Coherent.empty : Coherent P s {} :=
  ⟨nofun, nofun, nofun, Or.inl ⟨rfl, rfl⟩⟩

theorem treeFor?_of_treesOf (h : r.trees = treesOf r.rules) (nargs : Nat) :
    r.treeFor? nargs = some (min nargs (longestArity r.rules),
      treeUpTo r.rules (min nargs (longestArity r.rules))) := by
  have hlen : r.trees.length - 1 = longestArity r.rules := by simp [h, treesOf]
  rw [treeFor?, hlen, h, treesOf, List.getElem?_map,
    List.getElem?_range (Nat.lt_succ_of_le (Nat.min_le_right ..))]
  rfl

/-- A rule is added exactly if the tree for its own number of arguments can be compiled. -/
theorem addRule_eq (r : RuleSet) (rule : Rule) :
    r.addRule rule = (treeUpTo (r.rules ++ [rule]) rule.arity).map fun _ =>
      { r with rules := r.rules ++ [rule], trees := treesOf (r.rules ++ [rule]) } := by
  have htree := treeFor?_of_treesOf
    (show ({ r with rules := r.rules ++ [rule], trees := treesOf (r.rules ++ [rule]) } :
      RuleSet).trees = _ from rfl) rule.arity
  have hmem : rule ∈ r.rules ++ [rule] := List.mem_append_right _ (List.mem_singleton.mpr rfl)
  rw [Nat.min_eq_left (arity_le_longestArity hmem)] at htree
  simp only [addRule, htree]
  cases treeUpTo (r.rules ++ [rule]) rule.arity <;> rfl

theorem addRule_ok {rule : Rule} {r' : RuleSet} (h : r.addRule rule = .ok r') :
    r' = { r with rules := r.rules ++ [rule], trees := treesOf (r.rules ++ [rule]) }
      ∧ ∃ cell, treeUpTo (r.rules ++ [rule]) rule.arity = .ok cell := by
  rw [addRule_eq] at h
  cases hcell : treeUpTo (r.rules ++ [rule]) rule.arity with
  | error e => rw [hcell] at h; cases h
  | ok cell => rw [hcell] at h; exact ⟨(Except.ok.inj h).symm, cell, rfl⟩

/-- A rule is added only if its own patterns can be compiled. -/
theorem Coherent.addRule {rule : Rule} {r' : RuleSet} (h : Coherent P rule.head r) (hP : P rule)
    (hadd : r.addRule rule = .ok r') : Coherent P rule.head r' := by
  obtain ⟨rfl, cell, hcell⟩ := addRule_ok hadd
  have hmem : rule ∈ (r.rules ++ [rule]).filter (·.arity ≤ rule.arity) :=
    List.mem_filter.mpr ⟨List.mem_append_right _ (List.mem_singleton.mpr rfl), by simp⟩
  have hpatterns : ∀ p ∈ rule.args, PatternAt 0 p := by
    cases cell with
    | none => rw [filter_eq_nil_of_treeUpTo hcell] at hmem; cases hmem
    | some tree =>
        exact (DecisionTree.compile_ok_iff.mp ⟨tree, compile_of_treeUpTo hcell⟩).2.2.2 rule hmem
  have hall : ∀ {Q : Rule → Prop}, (∀ r' ∈ r.rules, Q r') → Q rule →
      ∀ r' ∈ r.rules ++ [rule], Q r' :=
    fun hold hnew r' hr' => (List.mem_append.mp hr').elim (hold r')
      fun hr' => List.mem_singleton.mp hr' ▸ hnew
  exact ⟨hall h.head rfl, hall h.holds hP, hall h.patterns hpatterns, Or.inr rfl⟩

end RuleSet

namespace Signature

theorem ruleSet?_enter (σ : Signature) (s s' : Symbol) (r : RuleSet) :
    ({ σ with ruleSets := σ.ruleSets.enter s r } : Signature).ruleSet? s'
      = if s' = s then some r else σ.ruleSet? s' := by
  unfold ruleSet?
  split
  · next h => rw [h, Table.find?_enter_self]
  · next h => rw [Table.find?_enter_of_ne h]

theorem Reachable.coherent {P : Rule → Prop} {σ : Signature} (h : σ.Reachable P) (s : Symbol) :
    ((σ.ruleSet? s).getD {}).Coherent P s := by
  induction h generalizing s with
  | empty => exact .empty
  | eta _ _ ih => exact ih s
  | declare _ hdecl ih =>
      unfold Signature.declare at hdecl
      split at hdecl
      · cases hdecl
      · obtain rfl := Except.ok.inj hdecl
        exact ih s
  | setProven _ hset ih =>
      unfold Signature.setProven at hset
      split at hset
      · cases hset
      · obtain rfl := Except.ok.inj hset
        exact ih s
  | declareConstant s' _ ih =>
      rw [Signature.declareConstant, ruleSet?_enter]
      split
      · next hs =>
        obtain ⟨hhead, hholds, hpatterns, htrees⟩ := ih s
        exact hs ▸ ⟨hhead, hholds, hpatterns, htrees⟩
      · exact ih s
  | declareInjective s' _ ih =>
      rw [Signature.declareInjective, ruleSet?_enter]
      split
      · next hs =>
        obtain ⟨hhead, hholds, hpatterns, htrees⟩ := ih s
        exact hs ▸ ⟨hhead, hholds, hpatterns, htrees⟩
      · exact ih s
  | @addRule σ σ' rule _ hP hadd ih =>
      unfold Signature.addRule at hadd
      split at hadd
      · split at hadd
        · cases hadd
        · next r hr =>
          obtain rfl := Except.ok.inj hadd
          rw [ruleSet?_enter]
          split
          · next hs => exact hs ▸ (ih rule.head).addRule hP hr
          · exact ih s
      · cases hadd

/-! ## What is fired -/

section

variable {P : Rule → Prop} {σ : Signature} {s : Symbol} {nargs : Nat}

theorem Reachable.consult_some (hσ : σ.Reachable P) {tree : DecisionTree}
    (h : (σ.consult s nargs).value = some (some tree)) :
    tree.arity ≤ nargs ∧ (∀ rule ∈ σ.rulesOf s, rule.arity ≤ nargs → rule.arity ≤ tree.arity)
      ∧ (DecisionTree.matrixOf ((σ.rulesOf s).filter (·.arity ≤ tree.arity)) tree.arity).Compiled
        tree.root := by
  have hcoh := hσ.coherent s
  unfold rulesOf
  unfold consult treeFor? at h
  cases hr : σ.ruleSet? s with
  | none => rw [hr] at h; cases h
  | some r =>
      rw [hr] at hcoh h
      simp only [Option.getD_some] at hcoh ⊢
      cases hconst : r.constant with
      | true => simp [hconst] at h
      | false =>
          rcases hcoh.trees with ⟨-, hnil⟩ | htrees
          · simp [hconst, RuleSet.treeFor?, hnil] at h
          · obtain ⟨cell, hcell⟩ :=
              exists_treeUpTo hcoh.head hcoh.patterns (min nargs (longestArity r.rules))
            simp only [hconst, Bool.false_eq_true, if_false, RuleSet.treeFor?_of_treesOf htrees,
              hcell, Traced.value_bind, Traced.value_emit, Option.bind_some, Traced.value_pure,
              Option.some.injEq] at h
            subst h
            obtain ⟨-, -, harity, hcompiled⟩ := DecisionTree.compile_ok (compile_of_treeUpTo hcell)
            rw [harity]
            refine ⟨Nat.min_le_left .., fun rule hrule hle => ?_, hcompiled⟩
            exact Nat.le_min.mpr ⟨hle, arity_le_longestArity hrule⟩

theorem Reachable.consult_none (hσ : σ.Reachable P) (hconst : σ.isConstant s = false)
    (h : (σ.consult s nargs).value = some none) : ∀ rule ∈ σ.rulesOf s, nargs < rule.arity := by
  have hcoh := hσ.coherent s
  unfold rulesOf
  unfold isConstant at hconst
  unfold consult treeFor? at h
  cases hr : σ.ruleSet? s with
  | none => exact nofun
  | some r =>
      rw [hr] at hcoh h hconst
      simp only [Option.getD_some] at hcoh hconst ⊢
      rcases hcoh.trees with ⟨hnil, -⟩ | htrees
      · rw [hnil]
        exact nofun
      · obtain ⟨cell, hcell⟩ :=
          exists_treeUpTo hcoh.head hcoh.patterns (min nargs (longestArity r.rules))
        simp only [hconst, Bool.false_eq_true, if_false, RuleSet.treeFor?_of_treesOf htrees,
          hcell, Traced.value_bind, Traced.value_emit, Option.bind_some, Traced.value_pure,
          Option.some.injEq] at h
        subst h
        intro rule hrule
        have hlong := arity_le_longestArity hrule
        have hout := List.filter_eq_nil_iff.mp (filter_eq_nil_of_treeUpTo hcell) rule hrule
        rw [decide_eq_true_eq] at hout
        omega

variable {V : View} {A : Term → Term → Prop} {red : Reducer} {strict : Prop} {args : List Term}

/-- A rule that the tree does not know has too many arguments, and one that it knows matches only if
its row does. -/
theorem Reachable.not_matches (hσ : σ.Reachable P) {tree : DecisionTree}
    (htree : (σ.consult s args.length).value = some (some tree)) {rule : Rule}
    (hrule : rule ∈ σ.rulesOf s)
    (h : rule.arity ≤ tree.arity → ∀ occ, ¬ MatchesAll V (List.replicate tree.arity 0)
      (DecisionTree.rowOf tree.arity rule).columns (args.take tree.arity).reverse occ)
    (occ : Bindings) : ¬ rule.Matches V args occ := by
  intro hmatch
  obtain ⟨hle, harity, -⟩ := hσ.consult_some htree
  have hknown := harity rule hrule hmatch.arity_le
  obtain ⟨occ', hrow⟩ := DecisionTree.rowOf_of_matches hknown hle hmatch
  exact h hknown occ' hrow

/-- What fires is an instance of the rule that the consulted tree finds. -/
theorem fireWith_cases {t : Term} {k : Nat}
    (h : (σ.fireWith red s args).value = some (some (t, k))) :
    ∃ tree rule θ, (σ.consult s args.length).value = some (some tree)
      ∧ (tree.find red (args.take tree.arity).reverse).value = some (some (rule, θ))
      ∧ t = rule.instantiate θ ∧ k = rule.arity := by
  rw [fireWith, Traced.value_bind] at h
  obtain ⟨tree?, htree, h⟩ := Option.bind_eq_some_iff.mp h
  cases tree? with
  | none => cases h
  | some tree =>
      simp only [Traced.value_bind] at h
      obtain ⟨found, hfind, h⟩ := Option.bind_eq_some_iff.mp h
      cases found with
      | none => cases h
      | some found =>
          obtain ⟨rule, θ⟩ := found
          simp only [Traced.value_bind, Traced.value_emit, Option.bind_some, Traced.value_pure,
            Option.some.injEq, Prod.mk.injEq] at h
          exact ⟨tree, rule, θ, htree, hfind, h.1.symm, h.2.symm⟩

section

variable (hσ : σ.Reachable P) (hV : V.Lawful) (hred : red.Within V A)
  (hexact : strict → V.Exact ∧ red.Settles V) (hlinear : strict → ∀ rule, P rule → rule.LeftLinear)

include hσ hV hred hexact hlinear

theorem Reachable.verdict {tree : DecisionTree}
    (htree : (σ.consult s args.length).value = some (some tree))
    {found : Option (Rule × Bindings)}
    (h : (tree.find red (args.take tree.arity).reverse).value = some found) :
    (DecisionTree.matrixOf ((σ.rulesOf s).filter (·.arity ≤ tree.arity)) tree.arity).Verdict V A
      strict (args.take tree.arity).reverse found := by
  obtain ⟨hle, -, hcompiled⟩ := hσ.consult_some htree
  have hshort : ∀ rule ∈ (σ.rulesOf s).filter (·.arity ≤ tree.arity), rule.arity ≤ tree.arity :=
    fun rule hrule => by simpa using (List.mem_filter.mp hrule).2
  have hverdict := hcompiled.verdict hV hred hexact (DecisionTree.aligned_matrixOf hshort)
    (fun hex row hrow => by
      obtain ⟨rule, hrule, rfl⟩ := List.mem_map.mp hrow
      exact DecisionTree.linear_rowOf
        (hlinear hex rule ((hσ.coherent s).holds rule (List.mem_filter.mp hrule).1)) tree.arity)
    (by simp [DecisionTree.matrixOf, hle]) (.unseen (args.take tree.arity).reverse) h
  rwa [Column.map_term_unseen] at hverdict

/-- The rule that is fired matches, and under `strict` no rule before it does. -/
theorem Reachable.fireWith_some {t : Term} {k : Nat}
    (h : (σ.fireWith red s args).value = some (some (t, k))) :
    ∃ before rule after occ θ, σ.rulesOf s = before ++ rule :: after ∧ rule.Matches V args occ
      ∧ Collected A θ occ ∧ t = rule.instantiate θ ∧ k = rule.arity
      ∧ (strict → ∀ r ∈ before, ∀ occ, ¬ r.Matches V args occ) := by
  obtain ⟨tree, rule, θ, htree, hfind, rfl, rfl⟩ := fireWith_cases h
  obtain ⟨before', row, after', occ, hsplit, hrow, hmatch, hcoll, hfirst⟩ :=
    hσ.verdict hV hred hexact hlinear htree hfind
  obtain ⟨l, l', hl, rfl, hl'⟩ := List.map_eq_append_iff.mp hsplit
  obtain ⟨rule', rest, rfl, rfl, -⟩ := List.map_eq_cons_iff.mp hl'
  obtain rfl : rule' = rule := hrow
  obtain ⟨b, b', hb, rfl, hb'⟩ := List.filter_eq_append_iff.mp hl
  obtain ⟨dropped, after, rfl, hdropped, hkept, -⟩ := List.filter_eq_cons_iff.mp hb'
  obtain ⟨hle, -, -⟩ := hσ.consult_some htree
  obtain ⟨occ', hmatches, hsame⟩ :=
    DecisionTree.matches_of_rowOf (by simpa using hkept) hle hmatch
  refine ⟨b ++ dropped, rule', after, occ', θ, by rw [hb, List.append_assoc], hmatches,
    hcoll.congr hsame.symm, rfl, rfl, fun hex r hr => ?_⟩
  have hmem : r ∈ σ.rulesOf s := by
    rw [hb, ← List.append_assoc]
    exact List.mem_append_left _ hr
  refine hσ.not_matches htree hmem fun hknown => ?_
  rcases List.mem_append.mp hr with hr | hr
  · refine hfirst hex _ (List.mem_map_of_mem ?_)
    exact List.mem_filter.mpr ⟨hr, by simpa using hknown⟩
  · exact absurd (by simpa using hknown) (hdropped r hr)

omit hexact hlinear in
theorem Reachable.fireWith_matches {t : Term} {k : Nat}
    (h : (σ.fireWith red s args).value = some (some (t, k))) :
    ∃ rule occ θ, rule ∈ σ.rulesOf s ∧ rule.Matches V args occ ∧ Collected A θ occ
      ∧ t = rule.instantiate θ ∧ k = rule.arity := by
  obtain ⟨before, rule, after, occ, θ, hsplit, hmatch, hcoll, ht, hk, -⟩ :=
    hσ.fireWith_some hV hred (fun h : False => h.elim) (fun h => h.elim) h
  exact ⟨rule, occ, θ, by rw [hsplit]; simp, hmatch, hcoll, ht, hk⟩

/-- If nothing is fired, then under `strict` no rule matches. -/
theorem Reachable.fireWith_none (hconst : σ.isConstant s = false)
    (h : (σ.fireWith red s args).value = some none) (hex : strict) :
    ∀ rule ∈ σ.rulesOf s, ∀ occ, ¬ rule.Matches V args occ := by
  intro rule hrule
  rw [fireWith, Traced.value_bind] at h
  obtain ⟨tree?, htree, h⟩ := Option.bind_eq_some_iff.mp h
  cases tree? with
  | none =>
      intro occ hmatch
      exact absurd hmatch.arity_le (Nat.not_le.mpr (hσ.consult_none hconst htree rule hrule))
  | some tree =>
      simp only [Traced.value_bind] at h
      obtain ⟨found, hfind, h⟩ := Option.bind_eq_some_iff.mp h
      cases found with
      | some found => cases h
      | none =>
          have hverdict := hσ.verdict hV hred hexact hlinear htree hfind
          exact hσ.not_matches htree hrule fun hknown => hverdict hex _
            (List.mem_map_of_mem (List.mem_filter.mpr ⟨hrule, by simpa using hknown⟩))

end

end

end Signature

end LambdaPi
