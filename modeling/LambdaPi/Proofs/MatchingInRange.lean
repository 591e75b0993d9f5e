import Mathlib
import LambdaPi.Proofs.ConversionSound
import LambdaPi.Proofs.FreeVariables

/-!
# Matching stays in range

A decision tree names columns by number and is compiled before there are any columns; the columns
grow while a tree is searched, by the parts of what was looked at. This module follows a search step
by step (`Search.Next`) and shows that every number stays below the number of columns, and that what
the use of a binding looks up among its positions is there (`Signature.matching_inRange`).

The invariant of a search is that it is in a tree compiled from a matrix that has no more columns
than the search (`Search.Fits`): opening a column gives both as many new ones, and going on without
opening it gives neither any. A search that has an answer follows such a path to the end, so nothing
is ever answered because a column is missing.

Replacing the variables of a term asks for one variable after another. For which ones is said by what
the result depends on (`Term.AsksOnly`): none of them is smaller than what is subtracted from it.
-/

namespace LambdaPi

/-! ## Asking for variables -/

namespace Term

/-- Replacing the variables of the term from `k` on asks for a variable `n`, where `j` variables are
left alone, only if `ok n j`: what a replacement says elsewhere makes no difference. -/
def AsksOnly (t : Term) (k : Nat) (ok : Nat → Nat → Prop) : Prop :=
  ∀ σ τ : Replacement, (∀ n j x, ok n j → σ n j x = τ n j x) → t.replace σ k = t.replace τ k

theorem AsksOnly.mono {t : Term} {k : Nat} {ok ok' : Nat → Nat → Prop} (h : t.AsksOnly k ok)
    (himp : ∀ n j, ok n j → ok' n j) : t.AsksOnly k ok' :=
  fun σ τ hστ => h σ τ fun n j x hok => hστ n j x (himp n j hok)

theorem replaceArgs_congr {σ τ : Replacement} {k : Nat} {args : List Term}
    (h : ∀ a ∈ args, a.replace σ k = a.replace τ k) :
    replaceArgs σ k args = replaceArgs τ k args := by
  induction args with
  | nil => rfl
  | cons a args ih =>
      obtain ⟨ha, hargs⟩ := List.forall_mem_cons.1 h
      simp only [replaceArgs, ha, ih hargs]

/-- A variable is replaced only where the term does not bind it, so that it is at least the number
of variables left alone there: those that are left alone from the start and those bound on the way. -/
theorem asksOnly_of_allFree {p : Nat → Bool} {t : Term} {k : Nat} (ht : t.allFree p k = true) :
    t.AsksOnly k fun n j => k ≤ j ∧ j ≤ n ∧ p (n - j) = true := by
  intro σ τ h
  have under : ∀ {k : Nat}, (∀ n j x, k ≤ j ∧ j ≤ n ∧ p (n - j) = true → σ n j x = τ n j x) →
      ∀ n j x, k + 1 ≤ j ∧ j ≤ n ∧ p (n - j) = true → σ n j x = τ n j x :=
    fun h n j x hn => h n j x ⟨Nat.le_of_succ_le hn.1, hn.2⟩
  induction t generalizing k with
  | kind | type | symb | joker => rfl
  | bvar n x =>
      simp only [allFree, Bool.or_eq_true, decide_eq_true_eq] at ht
      simp only [replace]
      split
      · rfl
      · next hn => rw [h n k x ⟨Nat.le_refl k, Nat.le_of_not_lt hn, ht.resolve_left hn⟩]
  | appl f a ihf iha =>
      rw [allFree, Bool.and_eq_true] at ht
      simp only [replace, ihf ht.1 h, iha ht.2 h]
  | prod x A B ihA ihB =>
      rw [allFree, Bool.and_eq_true] at ht
      simp only [replace, ihA ht.1 h, ihB ht.2 (under h)]
  | abst x A t ihA iht =>
      rw [allFree, Bool.and_eq_true, allFreeAnn_iff] at ht
      have hA : replaceAnn σ k A = replaceAnn τ k A := by
        cases A with
        | none => rfl
        | some A => simp only [replaceAnn, ihA A rfl (ht.1 A rfl) h]
      rw [replace, replace, hA, iht ht.2 (under h)]
  | mvar m args ih =>
      rw [allFree, allFreeArgs_iff] at ht
      simp only [replace, replaceArgs_congr fun a ha => ih a ha (ht a ha) h]

/-- Every variable is replaced by itself, except that those which do not satisfy `p` are marked. -/
def marking (p : Nat → Bool) : Replacement :=
  fun n j x => if p (n - j) then .bvar n x else .kind

theorem keepsNames_marking (p : Nat → Bool) : (marking p).KeepsNames := by
  intro n k x h
  unfold marking at h ⊢
  split
  · rfl
  · next hp => simp [hp, isVar] at h

theorem allFree_of_mapVars_marking {p : Nat → Bool} {t : Term} {k : Nat}
    (h : t.mapVars (marking fun _ => true) k = t.mapVars (marking p) k) :
    t.allFree p k = true := by
  induction t generalizing k with
  | kind | type | symb | joker => rfl
  | bvar n x =>
      by_cases hn : n < k
      · simp [allFree, hn]
      · by_cases hp : p (n - k) = true
        · simp [allFree, hp]
        · simp [mapVars, marking, hn, hp] at h
  | appl f a ihf iha =>
      simp only [mapVars, appl.injEq] at h
      rw [allFree, ihf h.1, iha h.2, Bool.and_self]
  | prod x A B ihA ihB =>
      simp only [mapVars, prod.injEq, true_and] at h
      rw [allFree, ihA h.1, ihB h.2, Bool.and_self]
  | abst x A t ihA iht =>
      simp only [mapVars, mapVarsAnn_eq_map, abst.injEq, true_and] at h
      rw [allFree, Bool.and_eq_true, allFreeAnn_iff]
      refine ⟨fun B hB => ihA B hB ?_, iht h.2⟩
      have hB' := h.1
      rw [hB] at hB'
      exact Option.some.inj hB'
  | mvar m args ih =>
      simp only [mapVars, mapVarsArgs_eq_map, mvar.injEq, true_and, List.map_inj_left] at h
      rw [allFree, allFreeArgs_iff]
      exact fun a ha => ih a ha (h a ha)

/-- All free variables of a term satisfy `p` just in case only such variables are asked for. -/
theorem allFree_iff_asksOnly {p : Nat → Bool} {t : Term} {k : Nat} :
    t.allFree p k = true ↔ t.AsksOnly k fun n j => k ≤ j ∧ j ≤ n ∧ p (n - j) = true := by
  refine ⟨asksOnly_of_allFree, fun h => allFree_of_mapVars_marking ?_⟩
  have hsame := h (marking fun _ => true) (marking p) fun n j x hn => by
    simp [marking, hn.2.2]
  rw [← (replace_yields_mapVars (keepsNames_marking _) t k).1,
    ← (replace_yields_mapVars (keepsNames_marking p) t k).1, hsame]

theorem allFree_true (t : Term) (k : Nat) : t.allFree (fun _ => true) k = true :=
  allFree_of_mapVars_marking rfl

/-- What is asked for is never smaller than the number of variables left alone there. -/
theorem asksOnly (t : Term) (k : Nat) : t.AsksOnly k fun n j => k ≤ j ∧ j ≤ n :=
  (asksOnly_of_allFree (allFree_true t k)).mono fun _ _ h => ⟨h.1, h.2.1⟩

end Term

/-! ## Bindings -/

/-- Using the binding stays in range: every variable that the pattern binds has its place among the
positions. When the bound term is instantiated, a variable is not smaller than the number of binders
it is lowered by, and if it is one of the pattern then, it has a position. The binding is valid just
in case the positions that are asked for are arguments. -/
structure Binding.InRange (b : Binding) : Prop where
  positions : b.positions.length = b.depth
  instantiate : b.term.AsksOnly 0 fun n k =>
    k ≤ n ∧ (n - k < b.depth → n - k < b.positions.length)
  valid : b.valid = true ↔ b.term.AsksOnly 0 fun n k =>
    k ≤ n ∧ (n - k < b.depth → ∃ i, b.positions[n - k]? = some (some i))

theorem Binding.InRange.of_length {b : Binding} (h : b.positions.length = b.depth) :
    b.InRange where
  positions := h
  instantiate := (b.term.asksOnly 0).mono fun _ _ hn => ⟨hn.2, fun hlt => h ▸ hlt⟩
  valid := by
    have hposition : ∀ x, (b.depth ≤ x || (b.positions.getD x none).isSome) = true
        ↔ (x < b.depth → ∃ i, b.positions[x]? = some (some i)) := by
      intro x
      rw [Bool.or_eq_true, decide_eq_true_eq, ← Nat.not_lt, ← imp_iff_not_or,
        List.getD_eq_getElem?_getD, Option.isSome_iff_exists]
      simp only [Option.getD_eq_iff, reduceCtorEq, and_false, or_false]
    rw [Binding.valid, Term.allFree_iff_asksOnly]
    simp only [hposition, Nat.zero_le, true_and]

namespace MetaTest

variable {red : Reducer}

theorem run_binding {test : MetaTest} {columns : List Column} {θ₀ θ : Bindings}
    (h : (test.run red columns θ₀).value = some (some θ)) :
    ∀ p ∈ θ, p ∈ θ₀ ∨ ∃ u, p = (test.name, test.binding u) := by
  intro p hp
  obtain ⟨c, b, -, hsettled, ⟨-, rfl⟩ | ⟨_, -, -, rfl⟩⟩ := run_cases h
  · obtain ⟨u, rfl, -⟩ := settle_cases hsettled
    rcases List.mem_append.mp hp with hp | hp
    · exact Or.inl hp
    · exact Or.inr ⟨u, List.mem_singleton.mp hp⟩
  · exact Or.inl hp

/-- Whatever is bound in the end was bound before or by one of the tests. -/
theorem runAll_binding {columns : List Column} {tests : List MetaTest} {θ₀ θ : Bindings}
    (h : (runAll red columns tests θ₀).value = some (some θ)) :
    ∀ p ∈ θ, p ∈ θ₀ ∨ ∃ test ∈ tests, ∃ u, p = (test.name, test.binding u) := by
  induction tests generalizing θ₀ with
  | nil =>
      obtain rfl := Option.some.inj (Option.some.inj h)
      exact fun p hp => Or.inl hp
  | cons test tests ih =>
      rw [runAll, Traced.value_bind] at h
      obtain ⟨θ₁?, hrun, h⟩ := Option.bind_eq_some_iff.mp h
      cases θ₁? with
      | none => cases h
      | some θ₁ =>
          intro p hp
          rcases ih h p hp with hp | ⟨test', htest', u, rfl⟩
          · rcases run_binding hrun p hp with hp | ⟨u, rfl⟩
            · exact Or.inl hp
            · exact Or.inr ⟨test, List.mem_cons_self .., u, rfl⟩
          · exact Or.inr ⟨test', List.mem_cons_of_mem _ htest', u, rfl⟩

end MetaTest

/-! ## Searches -/

theorem Branches.sizeOf_lt_of_get? {shape : Shape} {tree : Tree} :
    ∀ {branches : Branches}, branches.get? shape = some tree → sizeOf tree < sizeOf branches
  | .nil, h => nomatch h
  | .cons s tree' rest, h => by
      rw [Branches.get?] at h
      split at h
      · obtain rfl := Option.some.inj h
        simp only [Branches.cons.sizeOf_spec]
        omega
      · have := sizeOf_lt_of_get? h
        simp only [Branches.cons.sizeOf_spec]
        omega

/-- A search on its way through a tree: what is left of the tree, and the columns so far. -/
structure Search where
  tree : Tree
  columns : List Column

namespace Search

/-- One step of a search. -/
inductive Next (red : Reducer) : Search → Search → Prop
  /-- the column that is looked at has a shape for which there is a branch, and is opened -/
  | opened {i branches otherwise columns column t shape parts tree} :
      columns[i]? = some column → (column.whnf red).value = some t →
      t.shape? = some (shape, parts) → branches.get? shape = some tree →
      Next red ⟨.switch i branches otherwise, columns⟩
        ⟨tree, columns.set i ⟨t, true⟩ ++ parts.map .unseen⟩
  /-- the column that is looked at has no shape for which there is a branch -/
  | passed {i branches otherwise columns column t} :
      columns[i]? = some column → (column.whnf red).value = some t →
      (∀ shape parts, t.shape? = some (shape, parts) → branches.get? shape = none) →
      Next red ⟨.switch i branches otherwise, columns⟩ ⟨otherwise, columns.set i ⟨t, true⟩⟩
  /-- the meta-variables of the rule cannot be bound -/
  | refused {rule tests otherwise columns} :
      (MetaTest.runAll red columns tests []).value = some none →
      Next red ⟨.test rule tests otherwise, columns⟩ ⟨otherwise, columns⟩

/-- Any number of steps. -/
def Leads (red : Reducer) : Search → Search → Prop :=
  Relation.ReflTransGen (Next red)

/-- The end of a search, with what it has found. -/
inductive Ends (red : Reducer) : Search → Option (Rule × Bindings) → Prop
  | failed {columns} : Ends red ⟨.fail, columns⟩ none
  | fired {rule tests otherwise columns θ} :
      (MetaTest.runAll red columns tests []).value = some (some θ) →
      Ends red ⟨.test rule tests otherwise, columns⟩ (some (rule, θ))

/-- Whatever the search is about to look at is there: the column of a switch; or the columns of all
tests, and the positions of whatever is bound there. -/
def InRange (s : Search) : Prop :=
  match s.tree with
  | .fail => True
  | .switch i _ _ => i < s.columns.length
  | .test _ tests _ => ∀ test ∈ tests, test.column < s.columns.length
      ∧ ∀ t, (test.binding t).InRange

/-- The tree was compiled from a matrix of some of the rules that has no more columns than the
search. -/
def Fits (rules : List Rule) (s : Search) : Prop :=
  ∃ m : Matrix, m.Compiled s.tree ∧ m.Aligned ∧ m.depths.length ≤ s.columns.length
    ∧ ∀ row ∈ m.rows, row.rule ∈ rules

variable {red : Reducer} {rules : List Rule} {p q s : Search}

theorem Fits.inRange (h : s.Fits rules) : s.InRange := by
  obtain ⟨m, hcompiled, hm, hlen, -⟩ := h
  obtain ⟨tree, columns⟩ := s
  cases hcompiled with
  | fail => trivial
  | test hrows hrigid htests _ =>
      intro test htest
      obtain ⟨hpositions, -, k, hk, hdepth, -⟩ := Row.mem_metaTests htests htest
      have hlt : k < m.depths.length := (List.getElem?_eq_some_iff.mp hdepth).1
      refine ⟨?_, fun t => .of_length (localPositions_length hpositions)⟩
      rw [hk, Nat.zero_add]
      exact Nat.lt_of_lt_of_le hlt hlen
  | switch hrows hj _ _ _ _ =>
      have hfirst := hrows ▸ List.mem_cons_self ..
      have hd := hm.getElem?_depths hfirst (Row.lt_of_firstRigid? hj)
      exact Nat.lt_of_lt_of_le (List.getElem?_eq_some_iff.mp hd).1 hlen

/-- A step keeps the invariant. -/
theorem Fits.next (h : p.Fits rules) (hpq : Next red p q) : q.Fits rules := by
  obtain ⟨m, hcompiled, hm, hlen, hrules⟩ := h
  cases hpq with
  | @opened i branches otherwise columns column t shape parts tree _ _ hshape hbranch =>
      cases hcompiled with
      | switch hrows hj _ _ htrees _ =>
          refine ⟨m.specialize i shape, htrees shape tree (Branches.mem_of_get?_ofList hbranch),
            hm.specialize i shape, ?_, fun row' hrow' => ?_⟩
          · -- the matrix and the search grow by the parts of the column
            simpa [Matrix.specialize, Term.length_of_shape? hshape] using hlen
          · obtain ⟨row, hrow, hspec⟩ := List.mem_filterMap.mp hrow'
            rw [(Row.specialize_cases hspec).1]
            exact hrules row hrow
  | passed =>
      cases hcompiled with
      | switch _ _ _ _ _ hother =>
          refine ⟨_, hother, hm.others _, ?_, fun row hrow => ?_⟩
          · simpa [Matrix.others] using hlen
          · exact hrules row (List.mem_filter.mp hrow).1
  | refused =>
      cases hcompiled with
      | test hrows _ _ hother =>
          refine ⟨_, hother, hm.tail hrows, hlen, fun row hrow => ?_⟩
          exact hrules row (hrows ▸ List.mem_cons_of_mem _ hrow)

theorem Fits.leads (h : p.Fits rules) (hpq : Leads red p q) : q.Fits rules := by
  induction hpq with
  | refl => exact h
  | tail _ hstep ih => exact ih.next hstep

/-! ### Progress -/

/-- A step does not change what is found. -/
theorem Next.value_eq (h : Next red p q) :
    (p.tree.find red p.columns).value = (q.tree.find red q.columns).value := by
  cases h with
  | opened hc hwhnf hshape hbranch =>
      simp [Tree.find, hc, hwhnf, hshape, Branches.find?_eq, hbranch, Traced.value_bind]
  | @passed i branches otherwise columns column t hc hwhnf hnone =>
      cases hshape : t.shape? with
      | none => simp [Tree.find, hc, hwhnf, hshape, Traced.value_bind]
      | some found =>
          have hbranch := hnone found.1 found.2 hshape
          simp [Tree.find, hc, hwhnf, hshape, Branches.find?_eq, hbranch, Traced.value_bind]
  | refused hrun => simp [Tree.find, hrun, Traced.value_bind]

theorem Leads.value_eq (h : Leads red p q) :
    (p.tree.find red p.columns).value = (q.tree.find red q.columns).value := by
  induction h with
  | refl => rfl
  | tail _ hstep ih => exact ih.trans hstep.value_eq

theorem Ends.value_eq {found : Option (Rule × Bindings)} (h : Ends red s found) :
    (s.tree.find red s.columns).value = some found := by
  cases h with
  | failed => rfl
  | fired hrun => simp [Tree.find, hrun, Traced.value_bind]

/-- A search that finds an answer has found it, or there is a step. -/
theorem InRange.progress {found : Option (Rule × Bindings)} (hs : s.InRange)
    (h : (s.tree.find red s.columns).value = some found) :
    s.Ends red found ∨ ∃ q, Next red s q := by
  obtain ⟨tree, columns⟩ := s
  cases tree with
  | fail =>
      obtain rfl := Option.some.inj h
      exact Or.inl .failed
  | switch i branches otherwise =>
      have hc := List.getElem?_eq_getElem (show i < columns.length from hs)
      obtain ⟨t, hwhnf, ⟨shape, parts, search, hshape, hfind, -⟩ | ⟨hnone, -⟩⟩ :=
        Tree.find_switch hc h
      · rw [Branches.find?_eq] at hfind
        obtain ⟨tree, hbranch, -⟩ := Option.map_eq_some_iff.mp hfind
        exact Or.inr ⟨_, .opened hc hwhnf hshape hbranch⟩
      · refine Or.inr ⟨_, .passed hc hwhnf fun shape parts hshape => ?_⟩
        have hfind := hnone shape parts hshape
        rwa [Branches.find?_eq, Option.map_eq_none_iff] at hfind
  | test rule tests otherwise =>
      rw [Tree.find, Traced.value_bind] at h
      obtain ⟨bindings?, hrun, h⟩ := Option.bind_eq_some_iff.mp h
      cases bindings? with
      | none => exact Or.inr ⟨_, .refused hrun⟩
      | some θ =>
          obtain rfl := Option.some.inj h
          exact Or.inl (.fired hrun)

theorem Next.sizeOf_lt (h : Next red p q) : sizeOf q.tree < sizeOf p.tree := by
  cases h with
  | opened _ _ _ hbranch =>
      have := Branches.sizeOf_lt_of_get? hbranch
      simp only [Tree.switch.sizeOf_spec]
      omega
  | passed =>
      simp only [Tree.switch.sizeOf_spec]
      omega
  | refused =>
      simp only [Tree.test.sizeOf_spec]
      omega

/-- A search that finds an answer takes steps until it has found it. -/
theorem Fits.exists_ends {found : Option (Rule × Bindings)} (hs : s.Fits rules)
    (h : (s.tree.find red s.columns).value = some found) :
    ∃ q, Leads red s q ∧ q.Ends red found := by
  -- by induction on what is left of the tree
  induction hn : sizeOf s.tree using Nat.strong_induction_on generalizing s with
  | _ n ih =>
      rcases hs.inRange.progress h with hend | ⟨q, hstep⟩
      · exact ⟨s, .refl, hend⟩
      · obtain ⟨r, hlead, hend⟩ :=
          ih _ (hn ▸ hstep.sizeOf_lt) (hs.next hstep) (hstep.value_eq ▸ h) rfl
        exact ⟨r, .head hstep hlead, hend⟩

theorem Fits.value_eq_some_iff {found : Option (Rule × Bindings)} (hs : s.Fits rules) :
    (s.tree.find red s.columns).value = some found ↔ ∃ q, Leads red s q ∧ q.Ends red found := by
  refine ⟨hs.exists_ends, ?_⟩
  rintro ⟨q, hlead, hend⟩
  exact hlead.value_eq.trans hend.value_eq

/-- The rule that is found is one of those that were compiled, and all its bindings can be used. -/
theorem Fits.fired {rule : Rule} {θ : Bindings} (hs : s.Fits rules)
    (h : s.Ends red (some (rule, θ))) : rule ∈ rules ∧ ∀ X b, (X, b) ∈ θ → b.InRange := by
  have hrange := hs.inRange
  cases h with
  | fired hrun =>
      obtain ⟨m, hcompiled, -, -, hrules⟩ := hs
      constructor
      · cases hcompiled with
        | test hrows _ _ _ => exact hrules _ (hrows ▸ List.mem_cons_self ..)
      · intro X b hb
        rcases MetaTest.runAll_binding hrun _ hb with hb | ⟨test, htest, u, heq⟩
        · cases hb
        · obtain ⟨-, rfl⟩ := Prod.mk.inj heq
          exact (hrange test htest).2 u

end Search

/-! ## Trees and signatures -/

namespace DecisionTree

/-- The search in a tree for some columns, before its first step. -/
def start (tree : DecisionTree) (columns : List Term) : Search :=
  ⟨tree.root, columns.map .unseen⟩

/-- The search in the tree for the columns stays in range: it finds what it finds at the end of a
path, every search on the way is in range, and the rule it finds has no more arguments than the tree
looks at, with bindings that are in range. -/
structure SearchInRange (red : Reducer) (tree : DecisionTree) (columns : List Term) : Prop where
  path : ∀ found, (tree.find red columns).value = some found
    ↔ ∃ s, Search.Leads red (tree.start columns) s ∧ s.Ends red found
  inRange : ∀ s, Search.Leads red (tree.start columns) s → s.InRange
  fired : ∀ rule θ, (tree.find red columns).value = some (some (rule, θ)) →
    rule.arity ≤ tree.arity ∧ ∀ X b, (X, b) ∈ θ → b.InRange

theorem searchInRange {rules : List Rule} {tree : DecisionTree}
    (hcompiled : (matrixOf rules tree.arity).Compiled tree.root)
    (harity : ∀ rule ∈ rules, rule.arity ≤ tree.arity) (red : Reducer) {columns : List Term}
    (hlen : tree.arity ≤ columns.length) : tree.SearchInRange red columns := by
  have hstart : (tree.start columns).Fits rules := by
    refine ⟨_, hcompiled, aligned_matrixOf harity, by simpa [matrixOf, start] using hlen, ?_⟩
    intro row hrow
    obtain ⟨rule, hrule, rfl⟩ := List.mem_map.mp hrow
    exact hrule
  refine ⟨fun found => hstart.value_eq_some_iff, fun s hs => (hstart.leads hs).inRange, ?_⟩
  intro rule θ h
  obtain ⟨s, hlead, hend⟩ := hstart.exists_ends h
  obtain ⟨hrule, hbindings⟩ := (hstart.leads hlead).fired hend
  exact ⟨harity rule hrule, hbindings⟩

end DecisionTree

namespace Signature

variable {P : Rule → Prop} {σ : Signature}

theorem Reachable.searchInRange_of_consult (hσ : σ.Reachable P) (red : Reducer) {s : Symbol}
    {args : List Term} {tree : DecisionTree}
    (h : (σ.consult s args.length).value = some (some tree)) :
    tree.arity ≤ args.length ∧ tree.SearchInRange red (args.take tree.arity).reverse := by
  obtain ⟨hle, -, hcompiled⟩ := hσ.consult_some h
  refine ⟨hle, DecisionTree.searchInRange hcompiled (fun rule hrule => ?_) red (by simp [hle])⟩
  simpa using (List.mem_filter.mp hrule).2

theorem Reachable.consumed_le (hσ : σ.Reachable P) {red : Reducer} {s : Symbol} {args : List Term}
    {t : Term} {consumed : Nat}
    (h : (σ.fireWith red s args).value = some (some (t, consumed))) : consumed ≤ args.length := by
  obtain ⟨tree, rule, θ, htree, hfind, -, rfl⟩ := fireWith_cases h
  obtain ⟨hle, hsearch⟩ := hσ.searchInRange_of_consult red htree
  exact (hsearch.fired rule θ hfind).1.trans hle

/-- Matching never looks where nothing is, however terms are reduced: a compiled tree stays in range
on all lists of at least as many columns as it looks at; a tree that is consulted in a signature has
as many arguments as it looks at, and the rule that fires consumes no more than there are; and a
substitution is asked only for variables that stay variables when they are lowered. -/
theorem matching_inRange {rules : List Rule} {arity : Nat} {tree : DecisionTree}
    (hcompile : DecisionTree.compile rules arity = .ok tree) (hσ : σ.Reachable P)
    (red : Reducer) :
    (∀ columns, arity ≤ columns.length → tree.SearchInRange red columns)
    ∧ (∀ s (args : List Term) found, (σ.consult s args.length).value = some (some found) →
        found.arity ≤ args.length ∧ found.SearchInRange red (args.take found.arity).reverse)
    ∧ (∀ s args t consumed, (σ.fireWith red s args).value = some (some (t, consumed)) →
        consumed ≤ args.length)
    ∧ ∀ (t u : Term) depth, t.substAt u depth = (t.replace (.substitution u depth) depth).result
        ∧ t.AsksOnly depth fun n k => depth ≤ k ∧ k ≤ n ∧ (n ≠ k → 1 ≤ n) := by
  obtain ⟨-, harity, rfl, hcompiled⟩ := DecisionTree.compile_ok hcompile
  refine ⟨fun columns => DecisionTree.searchInRange hcompiled harity red,
    fun s args found => hσ.searchInRange_of_consult red, fun s args t consumed => hσ.consumed_le,
    fun t u depth => ⟨t.substAt_eq u depth, (t.asksOnly depth).mono fun n k h => ?_⟩⟩
  omega

/-- The tests of the diagonal rule, after the abstraction is opened: the first column is the
abstraction, and its body is the last. -/
def diagonalTests : List MetaTest :=
  [⟨1, .named "X", [], 0, [], true⟩, ⟨2, .named "X", [], 0, [], true⟩,
    ⟨3, .named "Y", [some 0], 1, [.bvar 0 none], true⟩]

/-- The tree of the diagonal rule for three arguments. -/
def diagonalTree : DecisionTree :=
  ⟨3, .switch 0 (.cons .abst (.test diagonalRule diagonalTests .fail) .nil) .fail⟩

/-- What is compared with the body `Y[x]`. -/
def diagonalBody : Term :=
  .appl (.bvar 0 none) (.bvar 1 none)

/-- Arguments for the diagonal rule. -/
def diagonalArgs : List Term :=
  [.symb ⟨"a"⟩, .symb ⟨"a"⟩, .abst "z" none diagonalBody]

/-- The body of the abstraction is column 3, which is there only after the abstraction was opened. An
argument too many is not looked at and not consumed. -/
theorem matching_inRange_diagonal :
    DecisionTree.compile [diagonalRule] 3 = .ok diagonalTree
    ∧ 3 ≤ diagonalArgs.reverse.length
    ∧ (∃ columns, Search.Leads (diagonal.reducer 9) (diagonalTree.start diagonalArgs.reverse)
        ⟨.test diagonalRule diagonalTests .fail, columns⟩
      ∧ columns.length = 4
      ∧ ∀ test ∈ diagonalTests, test.column < columns.length ∧ ∀ t, (test.binding t).InRange)
    ∧ (diagonal.fire 9 ⟨"f"⟩ (diagonalArgs ++ [.symb ⟨"b"⟩])).value
      = some (some (.appl (.symb ⟨"a"⟩) (.bvar 0 none), 3))
    ∧ 3 ≤ (diagonalArgs ++ [Term.symb ⟨"b"⟩]).length := by
  have hcompile : DecisionTree.compile [diagonalRule] 3 = .ok diagonalTree := by cbv
  have hfire : (diagonal.fire 9 ⟨"f"⟩ (diagonalArgs ++ [.symb ⟨"b"⟩])).value
      = some (some (.appl (.symb ⟨"a"⟩) (.bvar 0 none), 3)) := by cbv
  have hwhnf : (Column.whnf (diagonal.reducer 9) (.unseen (.abst "z" none diagonalBody))).value
      = some (.abst "z" none diagonalBody) := by cbv
  have hshape : (Term.abst "z" none diagonalBody).shape? = some (.abst, [diagonalBody]) := rfl
  have hlead : Search.Leads (diagonal.reducer 9) (diagonalTree.start diagonalArgs.reverse) _ :=
    .single (.opened rfl hwhnf hshape rfl)
  obtain ⟨hsearch, -, hconsumed, -⟩ :=
    matching_inRange hcompile reachable_diagonal (diagonal.reducer 9)
  exact ⟨hcompile, by decide, ⟨_, hlead, rfl, (hsearch _ (by decide)).inRange _ hlead⟩, hfire,
    hconsumed _ _ _ _ hfire⟩

end Signature

end LambdaPi
