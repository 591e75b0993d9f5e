import LambdaPi.Evaluation.Matching
import LambdaPi.Proofs.Compilation

/-!
# Searching a decision tree

A compiled tree finds what trying the rows of its matrix one by one finds. The search shares work
between rows: it opens columns into parts, keeps the rows that can still match, and reduces a column
in place once it is looked at, so that later rows see the reduced term. `Matrix.Verdict` says what
the answer means for the rows of the matrix as they stand, and `Matrix.Compiled.verdict` that the
search gives such an answer.

That the rule found matches holds for any way of reducing terms that stays within a `View`. That no
row before it matches needs more: the view must see as much of a reduced term as of the term, and
the meta-variables of a row must be distinct.
-/

namespace LambdaPi

/-! ## Reducers and views -/

namespace Reducer

/-- The reducer does nothing that the view does not show, and finds terms convertible only if they
are related. -/
structure Within (red : Reducer) (V : View) (A : Term → Term → Prop) : Prop where
  whnf : ∀ {t u}, (red.whnf t).value = some u → V.whnf t u
  nf : ∀ {t u}, (red.nf t).value = some u → V.settles t u
  convertible : ∀ {t u}, (red.convertible t u).value = some true → A t u

/-- A normal form depends on no more variables than anything else that a term may be bound as. -/
def Settles (red : Reducer) (V : View) : Prop :=
  ∀ {t u v}, (red.nf t).value = some u → V.settles t v →
    ∀ q, v.allFree q 0 = true → u.allFree q 0 = true

end Reducer

/-- The variables that a meta-variable is applied to when two bindings of it are compared. -/
def newVariables (n : Nat) : List Term :=
  (List.range n).map fun i => .bvar i none

/-- Two bindings of a meta-variable that are the same or give related terms. -/
def Binding.Agrees (A : Term → Term → Prop) (b b' : Binding) : Prop :=
  b = b' ∨ A (b.instantiate (newVariables b'.arity) b'.arity)
    (b'.instantiate (newVariables b'.arity) b'.arity)

/-- For each meta-variable one of its occurrences was kept, and the others agree with it. -/
structure Collected (A : Term → Term → Prop) (θ occurrences : Bindings) : Prop where
  occurs : ∀ X b, (X, b) ∈ θ → (X, b) ∈ occurrences
  agrees : ∀ X b, (X, b) ∈ occurrences → ∃ b₀, θ.lookup X = some b₀ ∧ b₀.Agrees A b

namespace Collected

variable {A : Term → Term → Prop} {θ occ occ' : Bindings}

theorem congr (h : Collected A θ occ) (hsame : SameBindings occ occ') : Collected A θ occ' :=
  ⟨fun X b hb => (hsame _).mp (h.occurs X b hb), fun X b hb => h.agrees X b ((hsame _).mpr hb)⟩

theorem nil : Collected A [] [] :=
  ⟨nofun, nofun⟩

/-- The first occurrence of a meta-variable is kept. -/
theorem snoc_new (h : Collected A θ occ) {X : MetaName} {b : Binding} (hX : θ.lookup X = none) :
    Collected A (θ ++ [(X, b)]) (occ ++ [(X, b)]) := by
  refine ⟨fun Y c hc => ?_, fun Y c hc => ?_⟩
  · rcases List.mem_append.mp hc with hc | hc
    · exact List.mem_append_left _ (h.occurs Y c hc)
    · exact List.mem_append_right _ hc
  · rcases List.mem_append.mp hc with hc | hc
    · obtain ⟨b₀, hb₀, hagree⟩ := h.agrees Y c hc
      exact ⟨b₀, by rw [List.lookup_append, hb₀, Option.some_or], hagree⟩
    · obtain ⟨rfl, rfl⟩ := Prod.mk.inj (List.mem_singleton.mp hc)
      refine ⟨c, ?_, Or.inl rfl⟩
      rw [List.lookup_append, hX, Option.none_or, List.lookup_cons_self]

/-- A later occurrence agrees with the one that was kept. -/
theorem snoc_again (h : Collected A θ occ) {X : MetaName} {b₀ b : Binding}
    (hX : θ.lookup X = some b₀) (hagree : b₀.Agrees A b) : Collected A θ (occ ++ [(X, b)]) := by
  refine ⟨fun Y c hc => List.mem_append_left _ (h.occurs Y c hc), fun Y c hc => ?_⟩
  rcases List.mem_append.mp hc with hc | hc
  · exact h.agrees Y c hc
  · obtain ⟨rfl, rfl⟩ := Prod.mk.inj (List.mem_singleton.mp hc)
    exact ⟨b₀, hX, hagree⟩

end Collected

/-! ## Distinct meta-variables -/

namespace Term

theorem metaVariables_appl (f a : Term) :
    (appl f a).metaVariables = f.metaVariables ++ a.metaVariables := by
  simp [metaVariables, subterms]

theorem metaVariables_prod (x : Option String) (A B : Term) :
    (prod x A B).metaVariables = A.metaVariables ++ B.metaVariables := by
  simp [metaVariables, subterms]

theorem metaVariables_abst (x : String) (A : Option Term) (t : Term) :
    (abst x A t).metaVariables = A.toList.flatMap metaVariables ++ t.metaVariables := by
  cases A <;> simp [metaVariables, subterms, subtermsAnn]

theorem metaVariables_mvar (m : Option MetaName) (args : List Term) :
    (mvar m args).metaVariables = (m, args.length) :: args.flatMap metaVariables := by
  rw [metaVariables, subterms, subtermsArgs_eq, List.filterMap_cons, List.filterMap_flatMap]
  rfl

/-- Names of the meta-variables of a term, each as often as it occurs. -/
def metaNames (t : Term) : List MetaName :=
  t.metaVariables.filterMap (·.1)

theorem metaNames_appl (f a : Term) : (appl f a).metaNames = f.metaNames ++ a.metaNames := by
  rw [metaNames, metaVariables_appl, List.filterMap_append]
  rfl

theorem metaNames_prod (x : Option String) (A B : Term) :
    (prod x A B).metaNames = A.metaNames ++ B.metaNames := by
  rw [metaNames, metaVariables_prod, List.filterMap_append]
  rfl

theorem metaNames_abst (x : String) (A : Option Term) (t : Term) :
    (abst x A t).metaNames = A.toList.flatMap metaNames ++ t.metaNames := by
  rw [metaNames, metaVariables_abst, List.filterMap_append, List.filterMap_flatMap]
  rfl

theorem metaNames_mvar (m : Option MetaName) (args : List Term) :
    (mvar m args).metaNames = m.toList ++ args.flatMap metaNames := by
  rw [metaNames, metaVariables_mvar, List.filterMap_cons, List.filterMap_flatMap]
  cases m <;> rfl

/-- How often a meta-variable occurs in some terms. -/
def metaCount (X : MetaName) : List Term → Nat
  | [] => 0
  | t :: ts => t.metaNames.count X + metaCount X ts

variable (X : MetaName)

@[simp] theorem metaCount_nil : metaCount X [] = 0 := rfl

@[simp] theorem metaCount_cons (t : Term) (ts : List Term) :
    metaCount X (t :: ts) = t.metaNames.count X + metaCount X ts := rfl

theorem metaCount_append (ts us : List Term) :
    metaCount X (ts ++ us) = metaCount X ts + metaCount X us := by
  induction ts with
  | nil => simp
  | cons t ts ih => rw [List.cons_append, metaCount_cons, metaCount_cons, ih, Nat.add_assoc]

theorem metaCount_reverse (ts : List Term) : metaCount X ts.reverse = metaCount X ts := by
  induction ts with
  | nil => rfl
  | cons t ts ih =>
      rw [List.reverse_cons, metaCount_append, ih, metaCount_cons, metaCount_cons, metaCount_nil]
      omega

theorem metaCount_jokers (n : Nat) : metaCount X (List.replicate n .joker) = 0 := by
  induction n with
  | zero => rfl
  | succ n ih => rw [List.replicate_succ, metaCount_cons, ih]; rfl

theorem metaCount_set_joker {ts : List Term} {j : Nat} {t : Term} (h : ts[j]? = some t) :
    metaCount X (ts.set j .joker) + t.metaNames.count X = metaCount X ts := by
  induction ts generalizing j with
  | nil => cases h
  | cons u ts ih =>
      cases j with
      | zero =>
          obtain rfl := Option.some.inj h
          rw [List.set_cons_zero, metaCount_cons, metaCount_cons]
          show 0 + _ + _ = _
          omega
      | succ j =>
          have := ih h
          rw [List.set_cons_succ, metaCount_cons, metaCount_cons]
          omega

theorem count_metaNames_apply (f : Term) (args : List Term) :
    (f.apply args).metaNames.count X = f.metaNames.count X + metaCount X args := by
  induction args generalizing f with
  | nil => rfl
  | cons a args ih =>
      rw [apply_cons, ih, metaNames_appl, List.count_append, metaCount_cons]
      omega

/-- The parts of a pattern have no more meta-variables than the pattern. -/
theorem metaCount_parts {p : Term} {shape : Shape} {parts : List Term}
    (h : p.shape? = some (shape, parts)) : metaCount X parts ≤ p.metaNames.count X := by
  rcases shape?_cases h with ⟨x, A, body, rfl, -, rfl⟩ | ⟨s, args, hargs, -, rfl⟩
    | ⟨n, x, args, hargs, -, rfl⟩
  · rw [metaCount_cons, metaCount_nil, metaNames_abst, List.count_append]
    omega
  · rw [metaCount_reverse, eq_apply_of_unapply hargs, count_metaNames_apply]
    omega
  · rw [metaCount_reverse, eq_apply_of_unapply hargs, count_metaNames_apply]
    omega

end Term

/-- No meta-variable occurs twice. -/
def Row.Linear (row : Row) : Prop :=
  ∀ X, Term.metaCount X row.columns ≤ 1

/-- What is left of a row has no meta-variable more often than the row. -/
theorem Row.metaCount_specialize_le {row row' : Row} {j : Nat} {shape : Shape}
    (hj : j < row.columns.length) (hspec : row.specialize j shape = some row') (X : MetaName) :
    Term.metaCount X row'.columns ≤ Term.metaCount X row.columns := by
  obtain ⟨-, ⟨-, hcols⟩ | ⟨parts, hparts, hcols⟩⟩ := specialize_cases hspec
  · rw [hcols, Term.metaCount_append, Term.metaCount_jokers]
    exact Nat.le_refl _
  · have hset := Term.metaCount_set_joker X (getElem?_pattern hj)
    have hle := Term.metaCount_parts X hparts
    rw [hcols, Term.metaCount_append]
    omega

theorem Row.Linear.specialize {row row' : Row} {j : Nat} {shape : Shape} (h : row.Linear)
    (hj : j < row.columns.length) (hspec : row.specialize j shape = some row') : row'.Linear :=
  fun X => Nat.le_trans (metaCount_specialize_le hj hspec X) (h X)

/-! ## Binding meta-variables -/

section

variable {red : Reducer} {V : View} {A : Term → Term → Prop}

namespace MetaTest

/-- What a test of a compiled row looks for. -/
def Binds (test : MetaTest) : Prop :=
  localPositions test.args test.depth = .ok test.positions
    ∧ test.anything = isIdentity test.args test.depth

/-- The binding of the meta-variable to a term. -/
def binding (test : MetaTest) (t : Term) : Binding :=
  ⟨t, test.depth, test.positions⟩

/-- The column is bound as it stands or as its normal form, and the binding is valid unless the
meta-variable may depend on anything. -/
theorem settle_cases {test : MetaTest} {t : Term} {b : Binding}
    (h : (test.settle red t).value = some (some b)) :
    ∃ u, b = test.binding u ∧ (u = t ∨ (red.nf t).value = some u)
      ∧ (test.anything = true ∨ (test.binding u).valid = true) := by
  simp only [settle] at h
  split at h
  · next hvalid =>
    exact ⟨t, (Option.some.inj (Option.some.inj h)).symm, Or.inl rfl, Bool.or_eq_true_iff.mp hvalid⟩
  · rw [Traced.value_bind] at h
    obtain ⟨u, hu, h⟩ := Option.bind_eq_some_iff.mp h
    split at h
    · next hvalid =>
      exact ⟨u, (Option.some.inj (Option.some.inj h)).symm, Or.inr hu, Or.inr hvalid⟩
    · rw [Traced.value_bind] at h
      cases h

theorem settle_some {test : MetaTest} {t : Term} {b : Binding} (hV : V.Lawful)
    (hred : red.Within V A) (htest : test.Binds)
    (h : (test.settle red t).value = some (some b)) :
    ∃ u, b = ⟨u, test.depth, test.positions⟩ ∧ V.settles t u
      ∧ u.usesOnly test.args test.depth = true := by
  obtain ⟨hpositions, hany⟩ := htest
  obtain ⟨u, rfl, hu, hvalid⟩ := settle_cases h
  refine ⟨u, rfl, ?_, ?_⟩
  · rcases hu with rfl | hu
    · exact hV.keep u
    · exact hred.nf hu
  · rcases hvalid with hall | hvalid
    · exact usesOnly_of_isIdentity (hany ▸ hall) u
    · rwa [binding, Binding.valid_eq_usesOnly hpositions] at hvalid

theorem settle_none {test : MetaTest} {t : Term} (hsettles : red.Settles V)
    (htest : test.Binds) (h : (test.settle red t).value = some none) {v : Term}
    (hv : V.settles t v) : v.usesOnly test.args test.depth = false := by
  obtain ⟨hpositions, hany⟩ := htest
  simp only [settle] at h
  split at h
  · cases h
  · rw [Traced.value_bind] at h
    obtain ⟨u, hu, h⟩ := Option.bind_eq_some_iff.mp h
    split at h
    · cases h
    · next hvalid =>
      rw [Binding.valid_eq_usesOnly hpositions] at hvalid
      exact Bool.eq_false_iff.mpr fun huses => hvalid (hsettles hu hv _ huses)

theorem drop_eq_cons {columns : List Column} {i : Nat} {t : Term} {ts : List Term}
    (h : (columns.drop i).map (·.term) = t :: ts) :
    ∃ c, columns[i]? = some c ∧ c.term = t ∧ (columns.drop (i + 1)).map (·.term) = ts := by
  obtain ⟨c, rest, hdrop, rfl, rfl⟩ := List.map_eq_cons_iff.mp h
  refine ⟨c, ?_, rfl, ?_⟩
  · rw [← List.head?_drop, hdrop]
    rfl
  · rw [← List.tail_drop, hdrop]
    rfl

/-- A meta-variable gets a binding, or it has one that agrees. -/
theorem run_cases {test : MetaTest} {columns : List Column} {θ₀ θ : Bindings}
    (h : (test.run red columns θ₀).value = some (some θ)) :
    ∃ c b, columns[test.column]? = some c ∧ (test.settle red c.term).value = some (some b)
      ∧ ((θ₀.lookup test.name = none ∧ θ = θ₀ ++ [(test.name, b)])
        ∨ ∃ first, θ₀.lookup test.name = some first
          ∧ (first.agrees red b test.args.length).value = some true ∧ θ = θ₀) := by
  cases hc : columns[test.column]? with
  | none => simp [run, hc] at h
  | some c =>
      simp only [run, hc, Traced.value_bind] at h
      obtain ⟨settled, hsettled, h⟩ := Option.bind_eq_some_iff.mp h
      cases settled with
      | none => cases h
      | some b =>
          refine ⟨c, b, rfl, hsettled, ?_⟩
          cases hlookup : θ₀.lookup test.name with
          | none =>
              simp only [hlookup] at h
              exact Or.inl ⟨rfl, (Option.some.inj (Option.some.inj h)).symm⟩
          | some first =>
              simp only [hlookup, Traced.value_bind] at h
              obtain ⟨agree, hagree, h⟩ := Option.bind_eq_some_iff.mp h
              cases agree with
              | false => cases h
              | true =>
                  exact Or.inr ⟨first, rfl, hagree, (Option.some.inj (Option.some.inj h)).symm⟩

/-- One meta-variable is bound to its column. -/
theorem run_some {test : MetaTest} {columns : List Column} {c : Column} {θ₀ θ occ : Bindings}
    (hV : V.Lawful) (hred : red.Within V A) (htest : test.Binds)
    (hc : columns[test.column]? = some c) (hocc : Collected A θ₀ occ)
    (h : (test.run red columns θ₀).value = some (some θ)) :
    ∃ b, Matches V test.depth (.mvar (some test.name) test.args) c.term [(test.name, b)]
      ∧ Collected A θ (occ ++ [(test.name, b)]) := by
  obtain ⟨c', b, hc', hsettled, hbound⟩ := run_cases h
  obtain rfl := Option.some.inj (hc.symm.trans hc')
  obtain ⟨u, rfl, hu, huses⟩ := settle_some hV hred htest hsettled
  refine ⟨_, .named hu htest.1 huses, ?_⟩
  rcases hbound with ⟨hlookup, rfl⟩ | ⟨first, hlookup, hagree, rfl⟩
  · exact hocc.snoc_new hlookup
  · have harity : Binding.arity ⟨u, test.depth, test.positions⟩ = test.args.length :=
      localPositions_countP htest.1
    refine hocc.snoc_again hlookup (Or.inr ?_)
    rw [harity]
    exact hred.convertible hagree

/-- A meta-variable that is not bound yet gets a binding. -/
theorem run_of_new {test : MetaTest} {columns : List Column} {c : Column} {θ₀ θ : Bindings}
    (hc : columns[test.column]? = some c) (hnew : θ₀.lookup test.name = none)
    (h : (test.run red columns θ₀).value = some (some θ)) : ∃ b, θ = θ₀ ++ [(test.name, b)] := by
  simp only [run, hc, Traced.value_bind] at h
  obtain ⟨settled, -, h⟩ := Option.bind_eq_some_iff.mp h
  cases settled with
  | none => cases h
  | some b =>
      simp only [hnew] at h
      exact ⟨b, (Option.some.inj (Option.some.inj h)).symm⟩

theorem run_none {test : MetaTest} {columns : List Column} {c : Column} {θ₀ : Bindings}
    (hsettles : red.Settles V) (htest : test.Binds)
    (hc : columns[test.column]? = some c) (hnew : θ₀.lookup test.name = none)
    (h : (test.run red columns θ₀).value = some none) (occ : Bindings) :
    ¬ Matches V test.depth (.mvar (some test.name) test.args) c.term occ := by
  intro hmatch
  simp only [run, hc, Traced.value_bind] at h
  obtain ⟨settled, hsettled, h⟩ := Option.bind_eq_some_iff.mp h
  cases settled with
  | none =>
      cases hmatch with
      | named hv _ huses =>
          rw [settle_none hsettles htest hsettled hv] at huses
          cases huses
      | symb hp => cases hp
      | bvar hp => cases hp
  | some b =>
      simp only [hnew] at h
      cases h

/-- The meta-variables of a row are bound to the columns from `i` on. -/
theorem runAll_some {cols : List Term} {ds : List Nat} {tests : List MetaTest}
    {columns : List Column} {i : Nat} {ts : List Term} {θ₀ θ occ : Bindings} (hV : V.Lawful)
    (hred : red.Within V A) (hmeta : ∀ p ∈ cols, p.isMeta = true)
    (htests : Row.metaTests i cols ds = .ok tests) (hds : ds.length = cols.length)
    (hts : (columns.drop i).map (·.term) = ts) (hlen : ts.length = cols.length)
    (hocc : Collected A θ₀ occ) (h : (runAll red columns tests θ₀).value = some (some θ)) :
    ∃ occ', MatchesAll V ds cols ts occ' ∧ Collected A θ (occ ++ occ') := by
  induction cols generalizing ds tests i ts θ₀ occ with
  | nil =>
      obtain rfl := List.eq_nil_of_length_eq_zero hds
      obtain rfl := List.eq_nil_of_length_eq_zero hlen
      obtain rfl : tests = [] := by simpa [Row.metaTests] using htests.symm
      obtain rfl := Option.some.inj (Option.some.inj h)
      exact ⟨[], .nil, by rwa [List.append_nil]⟩
  | cons p cols ih =>
      obtain ⟨d, ds, rfl⟩ := List.exists_cons_of_length_eq_add_one hds
      obtain ⟨t, ts, rfl⟩ := List.exists_cons_of_length_eq_add_one hlen
      obtain ⟨c, hc, rfl, hts'⟩ := drop_eq_cons hts
      have hmeta' : ∀ q ∈ cols, q.isMeta = true := fun q hq => hmeta q (List.mem_cons_of_mem _ hq)
      have hds' := Nat.succ.inj hds
      have hlen' := Nat.succ.inj hlen
      have hp := hmeta p (List.mem_cons_self ..)
      cases p with
      | joker =>
          obtain ⟨occ', hall, hcoll⟩ := ih hmeta' htests hds' hts' hlen' hocc h
          exact ⟨occ', .cons_joker hall, hcoll⟩
      | mvar m args =>
          cases m with
          | none =>
              obtain ⟨occ', hall, hcoll⟩ := ih hmeta' htests hds' hts' hlen' hocc h
              exact ⟨occ', .cons .unnamed hall, hcoll⟩
          | some X =>
              obtain ⟨positions, rest, hpositions, hrest, rfl⟩ := Row.metaTests_named htests
              rw [runAll, Traced.value_bind] at h
              obtain ⟨θ₁?, hrun, h⟩ := Option.bind_eq_some_iff.mp h
              cases θ₁? with
              | none => cases h
              | some θ₁ =>
                  obtain ⟨b, hmatch, hcoll⟩ := run_some hV hred ⟨hpositions, rfl⟩ hc hocc hrun
                  obtain ⟨occ', hall, hcoll⟩ := ih hmeta' hrest hds' hts' hlen' hcoll h
                  rw [List.append_assoc] at hcoll
                  exact ⟨_, .cons hmatch hall, hcoll⟩
      | _ => cases hp

/-- If the meta-variables of a row are distinct and cannot be bound, the row does not match. -/
theorem runAll_none {cols : List Term} {ds : List Nat} {tests : List MetaTest}
    {columns : List Column} {i : Nat} {ts : List Term} {θ₀ : Bindings}
    (hsettles : red.Settles V) (hmeta : ∀ p ∈ cols, p.isMeta = true)
    (hlinear : ∀ X, Term.metaCount X cols ≤ 1)
    (hnew : ∀ X, θ₀.lookup X ≠ none → Term.metaCount X cols = 0)
    (htests : Row.metaTests i cols ds = .ok tests) (hds : ds.length = cols.length)
    (hts : (columns.drop i).map (·.term) = ts) (hlen : ts.length = cols.length)
    (h : (runAll red columns tests θ₀).value = some none) (occ : Bindings) :
    ¬ MatchesAll V ds cols ts occ := by
  induction cols generalizing ds tests i ts θ₀ occ with
  | nil =>
      obtain rfl : tests = [] := by simpa [Row.metaTests] using htests.symm
      cases h
  | cons p cols ih =>
      obtain ⟨d, ds, rfl⟩ := List.exists_cons_of_length_eq_add_one hds
      obtain ⟨t, ts, rfl⟩ := List.exists_cons_of_length_eq_add_one hlen
      obtain ⟨c, hc, rfl, hts'⟩ := drop_eq_cons hts
      have hmeta' : ∀ q ∈ cols, q.isMeta = true := fun q hq => hmeta q (List.mem_cons_of_mem _ hq)
      have hds' := Nat.succ.inj hds
      have hlen' := Nat.succ.inj hlen
      have hlinear' : ∀ X, Term.metaCount X cols ≤ 1 := fun X => by
        have := hlinear X
        rw [Term.metaCount_cons] at this
        omega
      have hnew' : ∀ X, θ₀.lookup X ≠ none → Term.metaCount X cols = 0 := fun X hX => by
        have := hnew X hX
        rw [Term.metaCount_cons] at this
        omega
      have hp := hmeta p (List.mem_cons_self ..)
      intro hall
      cases hall with
      | cons hmatch hrest =>
          cases p with
          | joker => exact ih hmeta' hlinear' hnew' htests hds' hts' hlen' h _ hrest
          | mvar m args =>
              cases m with
              | none => exact ih hmeta' hlinear' hnew' htests hds' hts' hlen' h _ hrest
              | some X =>
                  obtain ⟨positions, rest, hpositions, htests', rfl⟩ := Row.metaTests_named htests
                  have hone : 1 ≤ (Term.mvar (some X) args).metaNames.count X :=
                    List.count_pos_iff.mpr (List.mem_cons_self ..)
                  have hX : θ₀.lookup X = none := by
                    refine Decidable.byContradiction fun hX => ?_
                    have := hnew X hX
                    rw [Term.metaCount_cons] at this
                    omega
                  rw [runAll, Traced.value_bind] at h
                  obtain ⟨θ₁?, hrun, h⟩ := Option.bind_eq_some_iff.mp h
                  cases θ₁? with
                  | none => exact run_none hsettles ⟨hpositions, rfl⟩ hc hX hrun _ hmatch
                  | some θ₁ =>
                      obtain ⟨b, rfl⟩ := run_of_new hc hX hrun
                      refine ih hmeta' hlinear' (fun Y hY => ?_) htests' hds' hts' hlen' h _ hrest
                      by_cases hYX : Y = X
                      · subst hYX
                        have := hlinear Y
                        rw [Term.metaCount_cons] at this
                        omega
                      · refine hnew' Y fun hnone => hY ?_
                        rw [List.lookup_append, hnone, Option.none_or]
                        simp only [List.lookup_cons, List.lookup_nil, beq_eq_false_iff_ne.mpr hYX]
          | _ => cases hp

end MetaTest

/-! ## One look at a column -/

namespace Branches

/-- The tree to go on with for a shape, if there is a branch for it. -/
def get? (shape : Shape) : Branches → Option Tree
  | .nil => none
  | .cons s tree rest => if s = shape then some tree else rest.get? shape

theorem find?_eq (red : Reducer) (shape : Shape) (columns : List Column) : ∀ branches : Branches,
    branches.find? red shape columns = (branches.get? shape).map fun tree => tree.find red columns
  | .nil => rfl
  | .cons s tree rest => by
      rw [find?, get?]
      split
      · rfl
      · exact find?_eq red shape columns rest

/-- A new branch is found, unless there is one for the same shape already. -/
theorem get?_insert (shape s : Shape) (tree : Tree) : ∀ branches : Branches,
    s = shape ∧ (branches.insert s tree).get? shape = some tree
      ∨ (branches.insert s tree).get? shape = branches.get? shape
        ∧ (s = shape → branches.get? shape ≠ none)
  | .nil => by
      by_cases h : s = shape <;> simp [insert, get?, h]
  | .cons s' t rest => by
      rw [insert]
      split
      · by_cases h : s = shape <;> simp [get?, h]
      · by_cases h' : s' = shape
        · simp [get?, h']
        · simpa [get?, h'] using get?_insert shape s tree rest

theorem mem_of_get?_ofList {branches : List (Shape × Tree)} {shape : Shape} {tree : Tree}
    (h : (ofList branches).get? shape = some tree) : (shape, tree) ∈ branches := by
  induction branches with
  | nil => cases h
  | cons b branches ih =>
      obtain ⟨s, tree'⟩ := b
      rcases get?_insert shape s tree' (ofList branches) with ⟨rfl, hnew⟩ | ⟨hold, -⟩
      · obtain rfl := Option.some.inj (h.symm.trans hnew)
        exact List.mem_cons_self ..
      · exact List.mem_cons_of_mem _ (ih (hold.symm.trans h))

theorem not_mem_of_get?_ofList {branches : List (Shape × Tree)} {shape : Shape}
    (h : (ofList branches).get? shape = none) (tree : Tree) : (shape, tree) ∉ branches := by
  induction branches with
  | nil => exact List.not_mem_nil
  | cons b branches ih =>
      obtain ⟨s, tree'⟩ := b
      rcases get?_insert shape s tree' (ofList branches) with ⟨-, hnew⟩ | ⟨hold, hne⟩
      · cases h.symm.trans hnew
      · have hrest := hold.symm.trans h
        intro hmem
        rcases List.mem_cons.mp hmem with heq | hmem
        · exact hne (Prod.mk.inj heq).1.symm hrest
        · exact ih hrest hmem

variable {shape : Shape} {columns : List Column}

theorem find?_ofList_some {branches : List (Shape × Tree)}
    {found : Traced (Option (Rule × Bindings))}
    (h : (ofList branches).find? red shape columns = some found) :
    ∃ tree, (shape, tree) ∈ branches ∧ found = tree.find red columns := by
  rw [find?_eq] at h
  obtain ⟨tree, htree, rfl⟩ := Option.map_eq_some_iff.mp h
  exact ⟨tree, mem_of_get?_ofList htree, rfl⟩

theorem find?_ofList_none {branches : List (Shape × Tree)}
    (h : (ofList branches).find? red shape columns = none) (tree : Tree) :
    (shape, tree) ∉ branches := by
  rw [find?_eq, Option.map_eq_none_iff] at h
  exact not_mem_of_get?_ofList h tree

end Branches

/-- What a switch does: it looks at its column and goes on in the branch for its shape, or in the
default if there is no such branch. -/
theorem Tree.find_switch {j : Nat} {branches : Branches} {otherwise : Tree}
    {columns : List Column} {c : Column} {found : Option (Rule × Bindings)}
    (hc : columns[j]? = some c)
    (h : ((Tree.switch j branches otherwise).find red columns).value = some found) :
    ∃ u, (c.whnf red).value = some u
      ∧ ((∃ shape parts search, u.shape? = some (shape, parts)
          ∧ branches.find? red shape (columns.set j ⟨u, true⟩ ++ parts.map .unseen) = some search
          ∧ search.value = some found)
        ∨ ((∀ shape parts, u.shape? = some (shape, parts) →
            branches.find? red shape (columns.set j ⟨u, true⟩ ++ parts.map .unseen) = none)
          ∧ (otherwise.find red (columns.set j ⟨u, true⟩)).value = some found)) := by
  simp only [find, hc, Traced.value_bind] at h
  obtain ⟨u, hu, h⟩ := Option.bind_eq_some_iff.mp h
  refine ⟨u, hu, ?_⟩
  simp only [Traced.value_emit, Option.bind_some] at h
  split at h
  · next hshape =>
    right
    exact ⟨fun shape parts hparts => (nomatch hshape.symm.trans hparts), h⟩
  · next shape parts hparts =>
    split at h
    · next search hsearch => exact Or.inl ⟨shape, parts, search, hparts, hsearch, h⟩
    · next hnone =>
      refine Or.inr ⟨fun shape' parts' hparts' => ?_, h⟩
      obtain ⟨rfl, rfl⟩ := Prod.mk.inj (Option.some.inj (hparts.symm.trans hparts'))
      exact hnone

/-- A row matches if what is left of it matches the columns after the look. -/
theorem Row.matches_of_specialize {row row' : Row} {j d : Nat} {ds : List Nat} {shape : Shape}
    {t u : Term} {ts parts : List Term} {occ : Bindings} (hV : V.Lawful)
    (hspec : row.specialize j shape = some row') (hds : ds.length = row.columns.length)
    (hts : ts.length = row.columns.length) (hd : ds[j]? = some d) (ht : ts[j]? = some t)
    (htu : V.whnf t u) (hu : u.shape? = some (shape, parts))
    (h : MatchesAll V (ds ++ List.replicate shape.width (shape.depthInside d)) row'.columns
      (ts.set j u ++ parts) occ) :
    ∃ occ', MatchesAll V ds row.columns ts occ' ∧ SameBindings occ' occ := by
  have hp := getElem?_pattern (hds ▸ (List.getElem?_eq_some_iff.mp hd).1)
  obtain ⟨-, ⟨-, hcols⟩ | ⟨ps, hps, hcols⟩⟩ := specialize_cases hspec
  · rw [hcols] at h
    obtain ⟨θ, θ', rfl, hleft, hright⟩ := h.append_inv hds (by rw [List.length_set, hts])
    rw [hright.eq_nil_of_jokers, List.append_nil]
    exact ⟨θ, hleft.of_whnf hV ht htu, .refl _⟩
  · rw [hcols] at h
    obtain ⟨θ, θ', rfl, hleft, hright⟩ := h.append_inv (by rw [List.length_set, hds])
      (by rw [List.length_set, List.length_set, hts])
    obtain ⟨η, hmatch, hη⟩ := Matches.of_shape hps htu hu hright
    obtain ⟨occ', hall, hocc'⟩ := hleft.insert hd hp ht hmatch
    refine ⟨occ', hall, fun b => ?_⟩
    rw [hocc' b, List.mem_append, hη b, List.mem_append]
    exact Or.comm

/-- If a row matches, something is left of it, and that matches the columns after the look. -/
theorem Row.specialize_of_matches {row : Row} {j d : Nat} {ds : List Nat} {shape : Shape}
    {t u : Term} {ts parts : List Term} {occ : Bindings} (hV : V.Exact)
    (hd : ds[j]? = some d) (ht : ts[j]? = some t) (htu : V.whnf t u)
    (hu : u.shape? = some (shape, parts)) (h : MatchesAll V ds row.columns ts occ) :
    ∃ row' occ', row.specialize j shape = some row'
      ∧ MatchesAll V (ds ++ List.replicate shape.width (shape.depthInside d)) row'.columns
        (ts.set j u ++ parts) occ' := by
  have hp := getElem?_pattern (h.lengths.1 ▸ (List.getElem?_eq_some_iff.mp hd).1)
  obtain ⟨θ, θ', hmatch, hothers, -⟩ := h.extract hd hp ht
  have hlen := Term.length_of_shape? hu
  cases hshape : (row.pattern j).shape? with
  | none =>
      obtain ⟨η, hall⟩ := h.whnf hV ht htu
      refine ⟨{ row with columns := row.columns ++ List.replicate shape.width .joker }, _,
        by simp [specialize, hshape], hall.append (.jokers List.length_replicate hlen)⟩
  | some sp =>
      obtain ⟨s, ps⟩ := sp
      obtain ⟨u', ts', η, htu', hu', hparts, -⟩ := hmatch.of_rigid hshape
      obtain rfl := hV.unique htu htu'
      obtain ⟨rfl, rfl⟩ := Prod.mk.inj (Option.some.inj (hu.symm.trans hu'))
      exact ⟨{ row with columns := row.columns.set j .joker ++ ps }, _,
        by simp [specialize, hshape], (hothers u).append hparts⟩

/-! ## The whole search -/

namespace Matrix

/-- What an answer of the search means for the rows of the matrix: the rule of a row that matches,
with bindings collected from its occurrences; or nothing. If `strict` holds, no row before it
matches, or none at all. -/
def Verdict (V : View) (A : Term → Term → Prop) (strict : Prop) (m : Matrix) (ts : List Term) :
    Option (Rule × Bindings) → Prop
  | none => strict → ∀ row ∈ m.rows, ∀ occ, ¬ MatchesAll V m.depths row.columns ts occ
  | some (rule, θ) => ∃ before row after occ, m.rows = before ++ row :: after ∧ row.rule = rule
      ∧ MatchesAll V m.depths row.columns ts occ ∧ Collected A θ occ
      ∧ (strict → ∀ r ∈ before, ∀ occ, ¬ MatchesAll V m.depths r.columns ts occ)

variable {strict : Prop} {m m' : Matrix} {ts ts' : List Term}

/-- Going on with what is left of some rows. -/
theorem Verdict.of_filterMap {f : Row → Option Row} (hrows : m'.rows = m.rows.filterMap f)
    (hsound : ∀ row ∈ m.rows, ∀ row', f row = some row' → row'.rule = row.rule
      ∧ ∀ occ, MatchesAll V m'.depths row'.columns ts' occ →
        ∃ occ', MatchesAll V m.depths row.columns ts occ' ∧ SameBindings occ' occ)
    (hexact : strict → ∀ row ∈ m.rows, ∀ occ, MatchesAll V m.depths row.columns ts occ →
      ∃ row' occ', f row = some row' ∧ MatchesAll V m'.depths row'.columns ts' occ')
    {found : Option (Rule × Bindings)} (h : m'.Verdict V A strict ts' found) :
    m.Verdict V A strict ts found := by
  -- a row that is dropped does not match, and neither does one of which something is left that
  -- does not match
  have hmiss : strict → ∀ row ∈ m.rows, (∀ row', f row = some row' →
      ∀ occ, ¬ MatchesAll V m'.depths row'.columns ts' occ) →
      ∀ occ, ¬ MatchesAll V m.depths row.columns ts occ := by
    intro hex row hrow hleft occ hmatch
    obtain ⟨row', occ', hrow', hmatch'⟩ := hexact hex row hrow occ hmatch
    exact hleft row' hrow' occ' hmatch'
  cases found with
  | none =>
      intro hex row hrow
      refine hmiss hex row hrow fun row' hrow' => h hex row' ?_
      exact hrows ▸ List.mem_filterMap.mpr ⟨row, hrow, hrow'⟩
  | some found =>
      obtain ⟨rule, θ⟩ := found
      obtain ⟨before', row', after', occ, hsplit, rfl, hmatch, hcoll, hfirst⟩ := h
      rw [hrows, List.filterMap_eq_append_iff] at hsplit
      obtain ⟨l, l', hl, hbefore, hl'⟩ := hsplit
      obtain ⟨dropped, row, after, rfl, hdropped, hrow', -⟩ := List.filterMap_eq_cons_iff.mp hl'
      have hmem : ∀ r ∈ l ++ dropped ++ [row], r ∈ m.rows := by
        intro r hr
        rw [hl, show l ++ (dropped ++ row :: after) = l ++ dropped ++ [row] ++ after by simp]
        exact List.mem_append_left _ hr
      obtain ⟨hrule, hback⟩ := hsound row (hmem row (by simp)) row' hrow'
      obtain ⟨occ', hmatch', hsame⟩ := hback occ hmatch
      refine ⟨l ++ dropped, row, after, occ', by rw [hl, List.append_assoc], hrule.symm, hmatch',
        hcoll.congr hsame.symm, fun hex r hr => ?_⟩
      refine hmiss hex r (hmem r (List.mem_append_left _ hr)) fun r' hr' => ?_
      rcases List.mem_append.mp hr with hr | hr
      · exact hfirst hex r' (hbefore ▸ List.mem_filterMap.mpr ⟨r, hr, hr'⟩)
      · cases (hdropped r hr).symm.trans hr'

/-- The first row does not match, so the search goes on with the others. -/
theorem Verdict.cons {first : Row} {rest : List Row} (hrows : m.rows = first :: rest)
    (hfirst : strict → ∀ occ, ¬ MatchesAll V m.depths first.columns ts occ)
    {found : Option (Rule × Bindings)}
    (h : Verdict V A strict { m with rows := rest } ts found) : m.Verdict V A strict ts found := by
  cases found with
  | none =>
      intro hex row hrow
      rw [hrows] at hrow
      rcases List.mem_cons.mp hrow with rfl | hrow
      · exact hfirst hex
      · exact h hex row hrow
  | some found =>
      obtain ⟨rule, θ⟩ := found
      obtain ⟨before, row, after, occ, hsplit, hrule, hmatch, hcoll, hbefore⟩ := h
      exact ⟨first :: before, row, after, occ, hrows.trans (congrArg (first :: ·) hsplit), hrule,
        hmatch, hcoll, fun hex => List.forall_mem_cons.mpr ⟨hfirst hex, hbefore hex⟩⟩

section

/-! A look at column `j` reduces the term there from `t` to `u`. -/

variable {j : Nat} {t u : Term} {found : Option (Rule × Bindings)} (hV : V.Lawful)
  (hexact : strict → V.Exact) (hm : m.Aligned) (hd : m.depths[j]? = some (m.depths.getD j 0))
  (ht : ts[j]? = some t) (htu : V.whnf t u)

include hV hexact hm hd ht htu

/-- The search goes on with the rows that allow the shape that was seen. -/
theorem Verdict.of_specialize {shape : Shape} {parts : List Term}
    (hlen : ts.length = m.depths.length) (hparts : u.shape? = some (shape, parts))
    (h : (m.specialize j shape).Verdict V A strict (ts.set j u ++ parts) found) :
    m.Verdict V A strict ts found := by
  refine .of_filterMap rfl (fun row hrow row' hspec => ?_) (fun hex row hrow occ hmatch => ?_) h
  · have hts : ts.length = row.columns.length := hlen.trans (hm row hrow)
    refine ⟨(Row.specialize_cases hspec).1, fun occ hmatch => ?_⟩
    exact Row.matches_of_specialize hV hspec (hm row hrow) hts hd ht htu hparts hmatch
  · exact Row.specialize_of_matches (hexact hex) hd ht htu hparts hmatch

/-- If the shape that was seen is not that of a pattern, the search goes on with the rows that do
not ask for a shape. -/
theorem Verdict.of_others (hcheck : Matrix.checkColumn j m.rows = .ok ())
    (hshapes : ∀ row ∈ m.rows, ∀ shape ps, (row.pattern j).shape? = some (shape, ps) →
      ∀ parts, u.shape? ≠ some (shape, parts))
    (h : (m.others j).Verdict V A strict (ts.set j u) found) : m.Verdict V A strict ts found := by
  -- a rigid pattern that matches has the shape of the column
  have hkept : strict → ∀ row ∈ m.rows, ∀ occ, MatchesAll V m.depths row.columns ts occ →
      (row.pattern j).isMeta = true := by
    intro hex row hrow occ hmatch
    rcases Bool.or_eq_true_iff.mp (Matrix.checkColumn_ok_iff.mp hcheck row hrow) with hmeta | hsome
    · exact hmeta
    · obtain ⟨⟨shape, ps⟩, hps⟩ := Option.isSome_iff_exists.mp hsome
      have hjlt : j < row.columns.length := hm row hrow ▸ (List.getElem?_eq_some_iff.mp hd).1
      obtain ⟨_, _, hpat, _⟩ := hmatch.extract hd (Row.getElem?_pattern hjlt) ht
      obtain ⟨u', parts, -, htu', hparts, -⟩ := hpat.of_rigid hps
      obtain rfl := (hexact hex).unique htu htu'
      exact absurd hparts (hshapes row hrow shape ps hps parts)
  refine .of_filterMap (congrFun List.filterMap_eq_filter m.rows).symm
    (fun row hrow row' hguard => ?_) (fun hex row hrow occ hmatch => ?_) h
  · obtain ⟨rfl, -⟩ := Option.guard_eq_some_iff.mp hguard
    exact ⟨rfl, fun occ hmatch => ⟨occ, hmatch.of_whnf hV ht htu, .refl _⟩⟩
  · obtain ⟨occ', hmatch'⟩ := hmatch.whnf (hexact hex) ht htu
    exact ⟨row, occ', Option.guard_eq_some_iff.mpr ⟨rfl, hkept hex row hrow occ hmatch⟩, hmatch'⟩

end

end Matrix

theorem Column.map_term_unseen (ts : List Term) : (ts.map Column.unseen).map (·.term) = ts := by
  simp [Column.unseen, Function.comp_def]

/-- A column that counts as reduced is its own weak head normal form. -/
def ColumnsReduced (V : View) (columns : List Column) : Prop :=
  ∀ c ∈ columns, c.reduced = true → V.whnf c.term c.term

theorem ColumnsReduced.unseen (ts : List Term) : ColumnsReduced V (ts.map .unseen) := by
  intro c hc hreduced
  obtain ⟨t, -, rfl⟩ := List.mem_map.mp hc
  cases hreduced

theorem ColumnsReduced.whnf {columns : List Column} {c : Column} {u : Term}
    (h : ColumnsReduced V columns) (hred : red.Within V A) (hc : c ∈ columns)
    (hu : (c.whnf red).value = some u) : V.whnf c.term u := by
  unfold Column.whnf at hu
  split at hu
  · next hreduced =>
    obtain rfl := Option.some.inj hu
    exact h c hc hreduced
  · exact hred.whnf hu

theorem ColumnsReduced.set {columns : List Column} (h : ColumnsReduced V columns) {t u : Term}
    (hV : V.Lawful) (htu : V.whnf t u) (j : Nat) : ColumnsReduced V (columns.set j ⟨u, true⟩) := by
  intro c hc hreduced
  rcases List.mem_or_eq_of_mem_set hc with hc | rfl
  · exact h c hc hreduced
  · exact hV.fixed htu

theorem ColumnsReduced.append {columns columns' : List Column} (h : ColumnsReduced V columns)
    (h' : ColumnsReduced V columns') : ColumnsReduced V (columns ++ columns') :=
  fun c hc => (List.mem_append.mp hc).elim (h c) (h' c)

/-- A compiled tree finds what trying the rows one by one finds. -/
theorem Matrix.Compiled.verdict {strict : Prop} {m : Matrix} {tree : Tree}
    (h : m.Compiled tree) (hV : V.Lawful) (hred : red.Within V A)
    (hexact : strict → V.Exact ∧ red.Settles V) (hm : m.Aligned)
    (hlinear : strict → ∀ row ∈ m.rows, row.Linear) {columns : List Column}
    (hlen : columns.length = m.depths.length) (hcols : ColumnsReduced V columns)
    {found : Option (Rule × Bindings)} (hfind : (tree.find red columns).value = some found) :
    m.Verdict V A strict (columns.map (·.term)) found := by
  induction h generalizing columns with
  | @fail m hrows =>
      rw [Tree.find] at hfind
      obtain rfl := Option.some.inj hfind
      intro _ row hrow
      rw [hrows] at hrow
      cases hrow
  | @test m first rest tests otherwise hrows hrigid htests _ ih =>
      have hfirst : first ∈ m.rows := hrows ▸ List.mem_cons_self ..
      have hmeta := Row.isMeta_of_firstRigid? hrigid
      have hts : (columns.map (·.term)).length = first.columns.length := by
        rw [List.length_map, hlen, hm first hfirst]
      rw [Tree.find, Traced.value_bind] at hfind
      obtain ⟨θ?, hrun, hfind⟩ := Option.bind_eq_some_iff.mp hfind
      cases θ? with
      | some θ =>
          obtain rfl := Option.some.inj hfind
          obtain ⟨occ, hmatch, hcoll⟩ := MetaTest.runAll_some hV hred hmeta htests
            (hm first hfirst) rfl hts .nil hrun
          exact ⟨[], first, rest, occ, hrows, rfl, hmatch, hcoll, fun _ => nofun⟩
      | none =>
          refine .cons hrows (fun hex => ?_) (ih (hm.tail hrows) (fun hex row hrow =>
            hlinear hex row (hrows ▸ List.mem_cons_of_mem _ hrow)) hlen hcols hfind)
          exact MetaTest.runAll_none (hexact hex).2 hmeta (hlinear hex first hfirst)
            (fun X hX => absurd rfl hX) htests (hm first hfirst) rfl hts hrun
  | @switch m first rest j branches otherwise hrows hj hcheck hshapes _ _ ihshape ihother =>
      have hfirst : first ∈ m.rows := hrows ▸ List.mem_cons_self ..
      have hd := hm.getElem?_depths hfirst (Row.lt_of_firstRigid? hj)
      have hjlt : j < m.depths.length := (List.getElem?_eq_some_iff.mp hd).1
      obtain ⟨c, hc⟩ : ∃ c, columns[j]? = some c := ⟨_, List.getElem?_eq_getElem (hlen ▸ hjlt)⟩
      obtain ⟨u, hu, hbranch⟩ := Tree.find_switch hc hfind
      have hcu : V.whnf c.term u := hcols.whnf hred (List.mem_of_getElem? hc) hu
      have hterm : (columns.map (·.term))[j]? = some c.term := by rw [List.getElem?_map, hc]; rfl
      have hseen := hcols.set hV hcu j
      have hset : (columns.set j ⟨u, true⟩).map (·.term) = (columns.map (·.term)).set j u :=
        List.map_set ..
      have hexact' : strict → V.Exact := fun hex => (hexact hex).1
      rcases hbranch with ⟨shape, parts, search, hparts, hsearch, hfound⟩ | ⟨hnone, hfound⟩
      · obtain ⟨tree, htree, rfl⟩ := Branches.find?_ofList_some hsearch
        have hverdict := ihshape shape tree htree (hm.specialize j shape)
          (fun hex row' hrow' => by
            obtain ⟨row, hrow, hspec⟩ := List.mem_filterMap.mp hrow'
            exact (hlinear hex row hrow).specialize (hm row hrow ▸ hjlt) hspec)
          (by simp [Matrix.specialize, hlen, Term.length_of_shape? hparts])
          (hseen.append (.unseen parts)) hfound
        rw [List.map_append, hset, Column.map_term_unseen] at hverdict
        exact .of_specialize hV hexact' hm hd hterm hcu (by rw [List.length_map, hlen]) hparts
          hverdict
      · have hverdict := ihother (hm.others j)
          (fun hex row hrow => hlinear hex row (List.mem_filter.mp hrow).1)
          (by rw [List.length_set]; exact hlen) hseen hfound
        rw [hset] at hverdict
        refine .of_others hV hexact' hm hd hterm hcu hcheck ?_ hverdict
        intro row hrow shape ps hps parts hparts
        obtain ⟨tree, htree⟩ := (hshapes shape).mp (Matrix.mem_shapes hrow hps)
        exact Branches.find?_ofList_none (hnone shape parts hparts) tree htree

end

end LambdaPi
