import LambdaPi.Proofs.FirstMatch
import LambdaPi.Proofs.NumberedPatterns

/-!
# Matching with jokers and with numbered meta-variables

A joker matches anything and binds nothing. The meta-variable that it becomes when it is numbered
is bound to what it matches. It may depend on all variables bound around it, so it accepts any
term as it stands, and it occurs once, so there is no other binding to compare with. Hence a rule
fires on the same columns before and after its jokers are numbered, and bindings of numbered
meta-variables are not used on the right: `numbered_jokers_match_alike`.
-/

namespace LambdaPi

/-! ## Bindings of named meta-variables -/

theorem Bindings.lookup_snoc_of_ne {X Y : MetaName} (h : X ≠ Y) (θ : Bindings) (b : Binding) :
    List.lookup X (θ ++ [(Y, b)]) = θ.lookup X := by
  rw [List.lookup_append, List.lookup_cons, beq_eq_false_iff_ne.mpr h]
  exact Option.or_none

/-- The meta-variables that have a name are bound alike. -/
def Bindings.SameNamed (θ θ' : Bindings) : Prop :=
  ∀ X : String, θ.lookup (.named X) = θ'.lookup (.named X)

namespace Bindings.SameNamed

variable {θ θ' : Bindings}

theorem snoc (h : θ.SameNamed θ') (X : MetaName) (b : Binding) :
    Bindings.SameNamed (θ ++ [(X, b)]) (θ' ++ [(X, b)]) := by
  intro Y
  rw [List.lookup_append, List.lookup_append, h Y]

theorem snoc_number (h : θ.SameNamed θ') (k : Nat) (b : Binding) :
    Bindings.SameNamed θ (θ' ++ [(.fresh k, b)]) := by
  intro Y
  rw [lookup_snoc_of_ne (by simp), h Y]

/-- A term without numbered meta-variables is filled alike. -/
theorem fill (h : θ.SameNamed θ') {t : Term} (ht : t.numbers = []) (c : Nat) :
    t.fill θ c = t.fill θ' c := by
  refine Term.fill_congr_of_mem (fun X hX => ?_) c
  cases X with
  | named X => exact h X
  | fresh k =>
      have hk : k ∈ t.numbers := List.mem_filterMap.mpr ⟨_, hX, rfl⟩
      rw [ht] at hk
      cases hk

end Bindings.SameNamed

/-! ## Columns of patterns -/

/-- Patterns under the given numbers of binders, those on the right with some jokers numbered. -/
inductive NumberedAll : List Nat → List Term → List Term → Prop
  | nil : NumberedAll [] [] []
  | cons {d p p' ds ps ps'} : p.Numbered d p' → NumberedAll ds ps ps' →
      NumberedAll (d :: ds) (p :: ps) (p' :: ps')

namespace NumberedAll

variable {ds es : List Nat} {ps ps' qs qs' : List Term}

theorem length_eq (h : NumberedAll ds ps ps') : ds.length = ps.length := by
  induction h with
  | nil => rfl
  | cons _ _ ih => rw [List.length_cons, List.length_cons, ih]

theorem getElem? (h : NumberedAll ds ps ps') {j d : Nat} (hd : ds[j]? = some d) :
    ∃ p p', ps[j]? = some p ∧ ps'[j]? = some p' ∧ p.Numbered d p' := by
  induction h generalizing j with
  | nil => cases hd
  | cons hp _ ih =>
      cases j with
      | zero =>
          obtain rfl := Option.some.inj hd
          exact ⟨_, _, rfl, rfl, hp⟩
      | succ j => exact ih hd

theorem set_joker (h : NumberedAll ds ps ps') (j : Nat) :
    NumberedAll ds (ps.set j .joker) (ps'.set j .joker) := by
  induction h generalizing j with
  | nil => exact .nil
  | cons hp hrest ih =>
      cases j with
      | zero => exact .cons .same hrest
      | succ j => exact .cons hp (ih j)

theorem append (h : NumberedAll ds ps ps') (h' : NumberedAll es qs qs') :
    NumberedAll (ds ++ es) (ps ++ qs) (ps' ++ qs') := by
  induction h with
  | nil => exact h'
  | cons hp _ ih => exact .cons hp ih

theorem of_forall₂ {d : Nat} (h : List.Forall₂ (Term.Numbered d) ps ps') :
    NumberedAll (List.replicate ps.length d) ps ps' := by
  induction h with
  | nil => exact .nil
  | cons hp _ ih => exact .cons hp ih

theorem jokers (d n : Nat) : NumberedAll (List.replicate n d) (List.replicate n .joker)
    (List.replicate n .joker) := by
  have h := of_forall₂ (d := d) (Term.Numbered.forall₂_same (List.replicate n .joker))
  rwa [List.length_replicate] at h

theorem findIdx? (h : NumberedAll ds ps ps') :
    ps'.findIdx? (!·.isMeta) = ps.findIdx? (!·.isMeta) := by
  induction h with
  | nil => rfl
  | cons hp _ ih => rw [List.findIdx?_cons, List.findIdx?_cons, hp.isMeta, ih]

end NumberedAll

/-- Neither the right-hand side nor the patterns have numbered meta-variables, and once the jokers
of the patterns are numbered, they have each at most once. -/
structure NewNumbers (rhs : Term) (ps ps' : List Term) : Prop where
  rhs : rhs.numbers = []
  before : ∀ k, Term.metaCount (.fresh k) ps = 0
  after : ∀ k, Term.metaCount (.fresh k) ps' ≤ 1

/-! ## Binding the meta-variables of a row -/

namespace MetaTest

variable {red : Reducer} {columns : List Column} {θ θ' : Bindings}

/-- A meta-variable that has a name is bound alike. -/
theorem run_named {test : MetaTest} {X : String} (hX : test.name = .named X)
    (hθ : θ.SameNamed θ') :
    (test.run red columns θ).Related
      (Option.Rel fun η η' => η.SameNamed η' ∧ ∀ k, η'.lookup (.fresh k) = θ'.lookup (.fresh k))
      (test.run red columns θ') := by
  unfold run
  cases columns[test.column]? with
  | none => exact .pure .none
  | some c =>
      refine .bind (.same _) ?_
      rintro b? _ ⟨rfl, -⟩
      cases b? with
      | none => exact .pure .none
      | some b =>
          dsimp only
          rw [hX, hθ X]
          cases θ'.lookup (.named X) with
          | none =>
              refine .pure (.some ⟨hθ.snoc _ b, fun k => ?_⟩)
              exact Bindings.lookup_snoc_of_ne (by simp) θ' b
          | some first =>
              refine .bind (.same _) ?_
              rintro agree _ ⟨rfl, -⟩
              cases agree with
              | false => exact .pure .none
              | true => exact .pure (.some ⟨hθ, fun k => rfl⟩)

/-- A meta-variable that may depend on anything and is not bound yet is bound to its column. -/
theorem runAll_anything (red : Reducer) {test : MetaTest} (hany : test.anything = true)
    (hlt : test.column < columns.length) (hnew : θ.lookup test.name = none)
    (tests : List MetaTest) : ∃ b, (runAll red columns (test :: tests) θ).value
      = (runAll red columns tests (θ ++ [(test.name, b)])).value := by
  refine ⟨test.binding (columns.get ⟨test.column, hlt⟩).term, ?_⟩
  have hrun : (test.run red columns θ).value
      = some (some (θ ++ [(test.name, test.binding (columns.get ⟨test.column, hlt⟩).term)])) := by
    simp [run, List.getElem?_eq_getElem hlt, settle, hany, Traced.value_bind, hnew, binding]
  rw [runAll, Traced.value_bind, hrun]
  rfl

/-- The meta-variables of two rows without rigid patterns are bound alike, numbered ones apart:
those are bound to whatever stands in their column. -/
theorem runAll_numbered {ds : List Nat} {ps ps' : List Term} (h : NumberedAll ds ps ps')
    (hmeta : ∀ p ∈ ps, p.isMeta = true) (hbefore : ∀ k, Term.metaCount (.fresh k) ps = 0)
    (hafter : ∀ k, Term.metaCount (.fresh k) ps' ≤ 1) {i : Nat} {tests tests' : List MetaTest}
    (htests : Row.metaTests i ps ds = .ok tests) (htests' : Row.metaTests i ps' ds = .ok tests')
    (hlen : i + ps.length ≤ columns.length) (hθ : θ.SameNamed θ')
    (hnew : ∀ k, θ'.lookup (.fresh k) ≠ none → Term.metaCount (.fresh k) ps' = 0) :
    (runAll red columns tests θ).Related (Option.Rel Bindings.SameNamed)
      (runAll red columns tests' θ') := by
  induction h generalizing i tests tests' θ θ' with
  | nil =>
      obtain rfl : tests = [] := by simpa [Row.metaTests] using htests.symm
      obtain rfl : tests' = [] := by simpa [Row.metaTests] using htests'.symm
      exact .pure (.some hθ)
  | @cons d p p' ds ps ps' hp _ ih =>
      obtain ⟨hpmeta, hmeta⟩ := List.forall_mem_cons.mp hmeta
      simp only [Term.metaCount_cons, Nat.add_eq_zero_iff] at hbefore hafter hnew
      have hrest : ∀ {tests tests' : List MetaTest}, Row.metaTests (i + 1) ps ds = .ok tests →
          Row.metaTests (i + 1) ps' ds = .ok tests' → ∀ {θ θ' : Bindings}, θ.SameNamed θ' →
          (∀ k, θ'.lookup (.fresh k) ≠ none → Term.metaCount (.fresh k) ps' = 0) →
          (runAll red columns tests θ).Related (Option.Rel Bindings.SameNamed)
            (runAll red columns tests' θ') := by
        intro tests tests' ht ht' θ θ' hθ hnew
        refine ih hmeta (fun k => (hbefore k).2) (fun k => ?_) ht ht' ?_ hθ hnew
        · have := hafter k
          omega
        · rw [List.length_cons] at hlen
          omega
      have hkeep : ∀ k, θ'.lookup (.fresh k) ≠ none → Term.metaCount (.fresh k) ps' = 0 :=
        fun k hk => (hnew k hk).2
      have hlocal : ∀ X args, p = .mvar (some X) args →
          ∃ positions, localPositions args d = .ok positions := by
        rintro X args rfl
        obtain ⟨positions, _, hpositions, -⟩ := Row.metaTests_named htests
        exact ⟨positions, hpositions⟩
      rcases hp.meta_cases hpmeta hlocal with ⟨hskip, hskip'⟩ | ⟨X, args, rfl, rfl⟩ | ⟨rfl, k, rfl⟩
      · exact hrest (Row.metaTests_skip hskip htests) (Row.metaTests_skip hskip' htests') hθ hkeep
      · obtain ⟨positions, rest, hpositions, hnext, rfl⟩ := Row.metaTests_named htests
        obtain ⟨positions', rest', hpositions', hnext', rfl⟩ := Row.metaTests_named htests'
        obtain rfl := Except.ok.inj (hpositions.symm.trans hpositions')
        cases X with
        | named X =>
            refine .bind (run_named rfl hθ) fun η? η?' hη => ?_
            cases hη with
            | none => exact .pure .none
            | some hη =>
                refine hrest hnext hnext' hη.1 fun k hk => hkeep k ?_
                rwa [hη.2 k] at hk
        | fresh k =>
            have := (hbefore k).1
            simp [Term.metaNames_mvar] at this
      -- a joker asks for nothing, and its number is not bound yet
      · obtain ⟨positions, rest, -, hnext', rfl⟩ := Row.metaTests_named htests'
        have hone : 1 ≤ List.count (.fresh k)
            (Term.mvar (some (.fresh k)) (newVariables d)).metaNames :=
          List.count_pos_iff.mpr (List.mem_cons_self ..)
        have hunbound : θ'.lookup (.fresh k) = none := by
          refine Decidable.byContradiction fun hk => ?_
          have := (hnew k hk).1
          omega
        have hlt : i < columns.length := by
          rw [List.length_cons] at hlen
          omega
        have hany : MetaTest.anything ⟨i, .fresh k, positions, d, newVariables d,
            isIdentity (newVariables d) d⟩ = true := isIdentity_newVariables d
        obtain ⟨b, hbound⟩ := runAll_anything red hany hlt hunbound rest
        unfold Traced.Related
        rw [hbound]
        refine hrest (Row.metaTests_skip (by simp) htests) hnext' (hθ.snoc_number k b)
          fun l hl => ?_
        by_cases hlk : l = k
        · subst hlk
          have := hafter l
          omega
        · refine hkeep l ?_
          rwa [Bindings.lookup_snoc_of_ne (by simpa using hlk)] at hl

end MetaTest

/-! ## Rows and matrices -/

/-- What is left of a rule and of the same rule with its jokers numbered. -/
structure Row.Numbered (T : Rule → Rule → Prop) (ds : List Nat) (row row' : Row) : Prop where
  rule : T row.rule row'.rule
  rhs : row'.rule.rhs = row.rule.rhs
  columns : NumberedAll ds row.columns row'.columns
  numbers : row'.columns = row.columns ∨ NewNumbers row.rule.rhs row.columns row'.columns

namespace Row.Numbered

variable {T : Rule → Rule → Prop} {ds : List Nat} {row row' : Row} {j d : Nat}

theorem pattern (h : row.Numbered T ds row') (hd : ds[j]? = some d) :
    (row.pattern j).Numbered d (row'.pattern j) := by
  obtain ⟨p, p', hp, hp', hpp'⟩ := h.columns.getElem? hd
  rw [Row.pattern, Row.pattern, List.getD_eq_getElem?_getD, List.getD_eq_getElem?_getD, hp, hp']
  exact hpp'

theorem firstRigid? (h : row.Numbered T ds row') : row'.firstRigid? = row.firstRigid? :=
  h.columns.findIdx?

theorem map_shape? (h : row.Numbered T ds row') (hd : ds[j]? = some d) :
    (row'.pattern j).shape?.map (·.1) = (row.pattern j).shape?.map (·.1) := by
  have hshape := (h.pattern hd).shape?
  generalize (row.pattern j).shape? = s, (row'.pattern j).shape? = s' at hshape
  cases hshape with
  | none => rfl
  | some hs => exact congrArg some hs.1

theorem columns_specialize (h : row.Numbered T ds row') (hd : ds[j]? = some d) (shape : Shape) :
    Option.Rel (fun left left' => left.rule = row.rule ∧ left'.rule = row'.rule
        ∧ NumberedAll (ds ++ List.replicate shape.width (shape.depthInside d))
          left.columns left'.columns)
      (row.specialize j shape) (row'.specialize j shape) := by
  have hshape := (h.pattern hd).shape?
  unfold Row.specialize
  generalize hs : (row.pattern j).shape? = s, (row'.pattern j).shape? = s' at hshape
  cases hshape with
  | none => exact .some ⟨rfl, rfl, h.columns.append (.jokers _ _)⟩
  | @some s s' hparts =>
      obtain ⟨s, parts⟩ := s
      obtain ⟨_, parts'⟩ := s'
      obtain ⟨rfl, hparts⟩ := hparts
      dsimp only
      split
      · next heq =>
        subst heq
        have hall := NumberedAll.of_forall₂ hparts
        rw [Term.length_of_shape? hs] at hall
        exact .some ⟨rfl, rfl, (h.columns.set_joker j).append hall⟩
      · exact .none

theorem numbers_specialize (h : row.Numbered T ds row') (hd : ds[j]? = some d) {shape : Shape}
    {left left' : Row} (hleft : row.specialize j shape = some left)
    (hleft' : row'.specialize j shape = some left') :
    left'.columns = left.columns ∨ NewNumbers left.rule.rhs left.columns left'.columns := by
  obtain ⟨p, p', hp, hp', -⟩ := h.columns.getElem? hd
  have hlt := (List.getElem?_eq_some_iff.mp hp).1
  have hlt' := (List.getElem?_eq_some_iff.mp hp').1
  rcases h.numbers with heq | hnew
  · left
    have hcolumns : (row'.specialize j shape).map (·.columns)
        = (row.specialize j shape).map (·.columns) := by
      unfold Row.specialize
      rw [Row.pattern, Row.pattern, heq]
      split
      · rfl
      · split <;> rfl
    rw [hleft, hleft'] at hcolumns
    exact Option.some.inj hcolumns
  · right
    refine ⟨?_, fun k => ?_, fun k => ?_⟩
    · rw [(specialize_cases hleft).1]
      exact hnew.rhs
    · have hle := metaCount_specialize_le hlt hleft (.fresh k)
      rw [hnew.before k] at hle
      exact Nat.eq_zero_of_le_zero hle
    · exact Nat.le_trans (metaCount_specialize_le hlt' hleft' _) (hnew.after k)

/-- What is left of two rows is related if the rows are. -/
theorem specialize (h : row.Numbered T ds row') (hd : ds[j]? = some d) (shape : Shape) :
    Option.Rel (Row.Numbered T (ds ++ List.replicate shape.width (shape.depthInside d)))
      (row.specialize j shape) (row'.specialize j shape) := by
  have hrel := h.columns_specialize hd shape
  generalize hleft : row.specialize j shape = left?,
    hleft' : row'.specialize j shape = left?' at hrel
  cases hrel with
  | none => exact .none
  | some hrel =>
      obtain ⟨hrule, hrule', hcolumns⟩ := hrel
      refine .some ⟨?_, ?_, hcolumns, h.numbers_specialize hd hleft hleft'⟩
      · rw [hrule, hrule']
        exact h.rule
      · rw [hrule, hrule']
        exact h.rhs

end Row.Numbered

/-- A matrix of rules and the same matrix with some jokers numbered. -/
structure Matrix.Numbered (T : Rule → Rule → Prop) (m m' : Matrix) : Prop where
  rows : List.Forall₂ (Row.Numbered T m.depths) m.rows m'.rows
  depths : m'.depths = m.depths

namespace Matrix.Numbered

variable {T : Rule → Rule → Prop} {m m' : Matrix} {j : Nat}

theorem aligned (h : m.Numbered T m') : m.Aligned := by
  intro row hrow
  obtain ⟨row', -, hrows⟩ := forall₂_exists_right h.rows hrow
  exact hrows.columns.length_eq

theorem others (h : m.Numbered T m') (hd : m.depths[j]? = some (m.depths.getD j 0)) :
    (m.others j).Numbered T (m'.others j) := by
  refine ⟨List.rel_filter ?_ h.rows, h.depths⟩
  intro row row' hrow
  dsimp only
  rw [(hrow.pattern hd).isMeta]

theorem specialize (h : m.Numbered T m') (hd : m.depths[j]? = some (m.depths.getD j 0))
    (shape : Shape) : (m.specialize j shape).Numbered T (m'.specialize j shape) := by
  constructor
  · refine List.rel_filterMap ?_ h.rows
    intro row row' hrow
    exact hrow.specialize hd shape
  · rw [Matrix.specialize, Matrix.specialize, h.depths]

theorem shapes_eq (h : m.Numbered T m') (hd : m.depths[j]? = some (m.depths.getD j 0)) :
    shapes j m'.rows = shapes j m.rows := by
  have hrows := h.rows
  generalize m.rows = rows, m'.rows = rows' at hrows
  have hall : rows'.filterMap (fun row => (row.pattern j).shape?.map (·.1))
      = rows.filterMap fun row => (row.pattern j).shape?.map (·.1) := by
    induction hrows with
    | nil => rfl
    | cons hrow _ ih => rw [List.filterMap_cons, List.filterMap_cons, hrow.map_shape? hd, ih]
  rw [shapes, shapes, hall]

end Matrix.Numbered

/-! ## The search -/

/-- Branches for the same shapes are searched alike if the trees in them are. -/
theorem Branches.find?_alike {red : Reducer} {branches branches' : List (Shape × Tree)}
    {shape : Shape} {columns : List Column}
    (hboth : (∃ tree, (shape, tree) ∈ branches) ↔ ∃ tree, (shape, tree) ∈ branches')
    {R : Traced (Option (Rule × Bindings)) → Traced (Option (Rule × Bindings)) → Prop}
    (h : ∀ tree tree', (shape, tree) ∈ branches → (shape, tree') ∈ branches' →
      R (tree.find red columns) (tree'.find red columns)) :
    Option.Rel R ((ofList branches).find? red shape columns)
      ((ofList branches').find? red shape columns) := by
  rw [find?_eq, find?_eq]
  cases hget : (ofList branches).get? shape with
  | none =>
      cases hget' : (ofList branches').get? shape with
      | none => exact .none
      | some tree' =>
          obtain ⟨tree, hmem⟩ := hboth.mpr ⟨tree', mem_of_get?_ofList hget'⟩
          exact absurd hmem (not_mem_of_get?_ofList hget tree)
  | some tree =>
      cases hget' : (ofList branches').get? shape with
      | none =>
          obtain ⟨tree', hmem⟩ := hboth.mp ⟨tree, mem_of_get?_ofList hget⟩
          exact absurd hmem (not_mem_of_get?_ofList hget' tree')
      | some tree' =>
          exact .some (h tree tree' (mem_of_get?_ofList hget) (mem_of_get?_ofList hget'))

/-- Corresponding rules, with the same instance of the right-hand side. -/
def FoundAlike (T : Rule → Rule → Prop) (found found' : Rule × Bindings) : Prop :=
  T found.1 found'.1 ∧ found'.1.instantiate found'.2 = found.1.instantiate found.2

variable {T : Rule → Rule → Prop} {red : Reducer}

/-- If a row has no rigid pattern left, its rule is fired with the same right-hand side as before
its jokers were numbered. -/
theorem Row.Numbered.runAll {ds : List Nat} {row row' : Row} (h : row.Numbered T ds row')
    (hrigid : row.firstRigid? = none) {tests tests' : List MetaTest}
    (htests : Row.metaTests 0 row.columns ds = .ok tests)
    (htests' : Row.metaTests 0 row'.columns ds = .ok tests') {columns : List Column}
    (hlen : columns.length = ds.length) :
    (MetaTest.runAll red columns tests []).Related
      (Option.Rel fun θ θ' => FoundAlike T (row.rule, θ) (row'.rule, θ'))
      (MetaTest.runAll red columns tests' []) := by
  have hfill : (MetaTest.runAll red columns tests []).Related
      (Option.Rel fun θ θ' => row'.rule.rhs.fill θ' 0 = row.rule.rhs.fill θ 0)
      (MetaTest.runAll red columns tests' []) := by
    rw [h.rhs]
    rcases h.numbers with heq | hnew
    · rw [heq] at htests'
      obtain rfl := Except.ok.inj (htests.symm.trans htests')
      refine rel_mono ?_ (Traced.Related.same _)
      rintro θ? _ ⟨rfl, -⟩
      cases θ? with
      | none => exact .none
      | some θ => exact .some rfl
    · have hle : 0 + row.columns.length ≤ columns.length := by
        rw [hlen, h.columns.length_eq, Nat.zero_add]
      have hstart : Bindings.SameNamed [] [] := fun _ => rfl
      have hrun : (MetaTest.runAll red columns tests []).Related (Option.Rel Bindings.SameNamed)
          (MetaTest.runAll red columns tests' []) :=
        MetaTest.runAll_numbered h.columns (Row.isMeta_of_firstRigid? hrigid) hnew.before hnew.after
          htests htests' hle hstart fun k hk => absurd rfl hk
      exact rel_mono (fun _ _ => rel_mono fun θ θ' hθ => (hθ.fill hnew.rhs 0).symm) hrun
  refine rel_mono (fun _ _ => rel_mono fun θ θ' hθ => ⟨h.rule, ?_⟩) hfill
  rw [Rule.instantiate_eq_fill, Rule.instantiate_eq_fill]
  exact hθ

/-- The trees of two such matrices find corresponding rules for any columns. -/
theorem Matrix.Compiled.find_numbered {m m' : Matrix} {tree tree' : Tree} (h : m.Compiled tree)
    (h' : m'.Compiled tree') (hm : m.Numbered T m') {columns : List Column}
    (hlen : columns.length = m.depths.length) :
    (tree.find red columns).Related (Option.Rel (FoundAlike T)) (tree'.find red columns) := by
  induction h generalizing m' tree' columns with
  | fail hrows =>
      have hrows' := List.forall₂_nil_left_iff.1 (hrows ▸ hm.rows)
      cases h' with
      | fail =>
          rw [Tree.find]
          exact .pure .none
      | test hcons | switch hcons => cases hrows'.symm.trans hcons
  | @test m first rest tests otherwise hrows hrigid htests _ ih =>
      obtain ⟨first', rest', hfirst, hrest, hrows'⟩ :=
        List.forall₂_cons_left_iff.1 (hrows ▸ hm.rows)
      have hrigid' := hfirst.firstRigid?.trans hrigid
      cases h' with
      | fail hnil => cases hnil.symm.trans hrows'
      | switch hcons hj =>
          obtain ⟨rfl, rfl⟩ := List.cons.inj (hcons.symm.trans hrows')
          cases hj.symm.trans hrigid'
      | test hcons _ htests' hother' =>
          obtain ⟨rfl, rfl⟩ := List.cons.inj (hrows'.symm.trans hcons)
          rw [hm.depths] at htests'
          rw [Tree.find, Tree.find]
          refine .bind (hfirst.runAll hrigid htests htests' hlen) fun θ? θ?' hθ => ?_
          cases hθ with
          | some hfound => exact .pure (.some hfound)
          | none =>
              have hm' : Matrix.Numbered T { m with rows := rest } { m' with rows := rest' } :=
                ⟨hrest, hm.depths⟩
              exact ih hother' hm' hlen
  | @switch m first rest j branches otherwise hrows hj _ hshapes _ _ ihshape ihother =>
      obtain ⟨first', rest', hfirst, -, hrows'⟩ := List.forall₂_cons_left_iff.1 (hrows ▸ hm.rows)
      have hj' := hfirst.firstRigid?.trans hj
      have hd := hm.aligned.getElem?_depths (hrows ▸ List.mem_cons_self ..)
        (Row.lt_of_firstRigid? hj)
      have hlt : j < columns.length := hlen ▸ (List.getElem?_eq_some_iff.mp hd).1
      cases h' with
      | fail hnil => cases hnil.symm.trans hrows'
      | test hcons hrigid =>
          obtain ⟨rfl, rfl⟩ := List.cons.inj (hcons.symm.trans hrows')
          cases hrigid.symm.trans hj'
      | @switch _ _ _ i branches' otherwise' hcons hi _ hshapes' htrees' hother' =>
          obtain ⟨rfl, rfl⟩ := List.cons.inj (hcons.symm.trans hrows')
          obtain rfl := Option.some.inj (hi.symm.trans hj')
          rw [Tree.find, Tree.find, List.getElem?_eq_getElem hlt]
          refine .bind (.same _) ?_
          rintro t _ ⟨rfl, -⟩
          refine .emit ?_ ..
          have hdefault : (otherwise.find red (columns.set i ⟨t, true⟩)).Related
              (Option.Rel (FoundAlike T)) (otherwise'.find red (columns.set i ⟨t, true⟩)) :=
            ihother hother' (hm.others hd) (by rw [List.length_set, hlen]; rfl)
          cases ht : t.shape? with
          | none => exact hdefault
          | some s =>
              obtain ⟨shape, parts⟩ := s
              have hboth : (∃ tree, (shape, tree) ∈ branches)
                  ↔ ∃ tree, (shape, tree) ∈ branches' := by
                rw [← hshapes, ← hshapes', hm.shapes_eq hd]
              have hlen' : (columns.set i ⟨t, true⟩ ++ parts.map Column.unseen).length
                  = (m.specialize i shape).depths.length := by
                simp [Matrix.specialize, hlen, Term.length_of_shape? ht]
              have hfound := Branches.find?_alike hboth fun tree tree' hmem hmem' =>
                ihshape shape tree hmem (htrees' shape tree' hmem') (hm.specialize hd shape) hlen'
              dsimp only
              generalize (Branches.ofList branches).find? red shape
                  (columns.set i ⟨t, true⟩ ++ parts.map .unseen) = f,
                (Branches.ofList branches').find? red shape
                  (columns.set i ⟨t, true⟩ ++ parts.map .unseen) = f' at hfound
              cases hfound with
              | none => exact hdefault
              | some hfound => exact hfound

/-! ## Rules -/

/-- A rule and the same rule with some jokers of its left-hand side numbered. -/
structure Rule.Numbered (r r' : Rule) : Prop where
  head : r'.head = r.head
  rhs : r'.rhs = r.rhs
  args : List.Forall₂ (Term.Numbered 0) r.args r'.args
  numbers : r'.args = r.args ∨ NewNumbers r.rhs r.args r'.args

namespace Rule.Numbered

variable {r r' : Rule}

theorem refl (r : Rule) : r.Numbered r :=
  ⟨rfl, rfl, Term.Numbered.forall₂_same r.args, Or.inl rfl⟩

theorem arity (h : r.Numbered r') : r'.arity = r.arity :=
  h.args.length_eq.symm

theorem row (h : r.Numbered r') (hT : T r r') {arity : Nat} (harity : r.arity ≤ arity) :
    (DecisionTree.rowOf arity r).Numbered T (List.replicate arity 0)
      (DecisionTree.rowOf arity r') := by
  refine ⟨hT, h.rhs, ?_, ?_⟩
  · have hsplit : List.replicate arity 0
        = List.replicate (arity - r.arity) 0 ++ List.replicate r.args.reverse.length 0 := by
      rw [List.replicate_append_replicate, List.length_reverse, ← Rule.arity,
        Nat.sub_add_cancel harity]
    rw [hsplit, DecisionTree.rowOf, DecisionTree.rowOf, h.arity]
    exact (NumberedAll.jokers ..).append (.of_forall₂ (List.rel_reverse h.args))
  · have hcount : ∀ (r : Rule) (X : MetaName), Term.metaCount X (DecisionTree.rowOf arity r).columns
        = Term.metaCount X r.args := by
      intro r X
      rw [DecisionTree.rowOf, Term.metaCount_append, Term.metaCount_jokers, Term.metaCount_reverse,
        Nat.zero_add]
    refine h.numbers.imp (fun heq => ?_) fun hnew => ⟨hnew.rhs, fun k => ?_, fun k => ?_⟩
    · rw [DecisionTree.rowOf, DecisionTree.rowOf, h.arity, heq]
    · rw [hcount, hnew.before k]
    · rw [hcount]
      exact hnew.after k

end Rule.Numbered

/-- The rules at one position of two lists. -/
def SamePosition (rules rules' : List Rule) (rule rule' : Rule) : Prop :=
  ∃ i : Nat, rules[i]? = some rule ∧ rules'[i]? = some rule'

theorem forall₂_samePosition {R : Rule → Rule → Prop} {rules rules' : List Rule}
    (h : List.Forall₂ R rules rules') :
    List.Forall₂ (fun r r' => R r r' ∧ SamePosition rules rules' r r') rules rules' := by
  induction h with
  | nil => exact .nil
  | cons hr _ ih =>
      refine .cons ⟨hr, 0, rfl, rfl⟩ (ih.imp fun r r' hrr' => ⟨hrr'.1, ?_⟩)
      obtain ⟨i, hi, hi'⟩ := hrr'.2
      exact ⟨i + 1, hi, hi'⟩

theorem forall₂_forall_mem_iff {α β : Type} {R : α → β → Prop} {P : α → Prop} {Q : β → Prop}
    (hPQ : ∀ a b, R a b → (P a ↔ Q b)) {as : List α} {bs : List β} (h : List.Forall₂ R as bs) :
    (∀ a ∈ as, P a) ↔ ∀ b ∈ bs, Q b := by
  induction h with
  | nil => simp
  | cons hab _ ih => rw [List.forall_mem_cons, List.forall_mem_cons, hPQ _ _ hab, ih]

namespace DecisionTree

variable {rules rules' : List Rule} (h : List.Forall₂ Rule.Numbered rules rules') {arity : Nat}

include h

/-- Numbering jokers makes no difference to whether rules compile. -/
theorem compile_numbered_iff :
    (∃ tree, compile rules arity = .ok tree) ↔ ∃ tree, compile rules' arity = .ok tree := by
  rw [compile_ok_iff, compile_ok_iff]
  refine and_congr ?_ (and_congr ?_ (and_congr ?_ ?_))
  · cases h <;> simp
  · refine forall₂_forall_mem_iff (fun r r' hr => ?_) h
    refine forall₂_forall_mem_iff (fun q q' hq => ?_) h
    rw [hr.head, hq.head]
  · refine forall₂_forall_mem_iff (fun r r' hr => ?_) h
    rw [hr.arity]
  · refine forall₂_forall_mem_iff (fun r r' hr => ?_) h
    exact forall₂_forall_mem_iff (fun p p' hp => hp.patternAt_iff) hr.args

/-- Numbering jokers makes no difference to which rule fires, and with which right-hand side. -/
theorem find_numbered {tree tree' : DecisionTree} (htree : compile rules arity = .ok tree)
    (htree' : compile rules' arity = .ok tree') {columns : List Term}
    (hlen : columns.length = arity) :
    (tree.find red columns).Related (Option.Rel (FoundAlike (SamePosition rules rules')))
      (tree'.find red columns) := by
  obtain ⟨-, harity, -, hroot⟩ := compile_ok htree
  obtain ⟨-, -, -, hroot'⟩ := compile_ok htree'
  have hmatrix : (matrixOf rules arity).Numbered (SamePosition rules rules')
      (matrixOf rules' arity) := by
    refine ⟨?_, rfl⟩
    rw [matrixOf, matrixOf, List.forall₂_map_left_iff, List.forall₂_map_right_iff]
    refine (forall₂_samePosition h).imp fun r r' hr => ?_
    obtain ⟨i, hi, -⟩ := hr.2
    exact hr.1.row hr.2 (harity r (List.mem_of_getElem? hi))
  refine hroot.find_numbered hroot' hmatrix ?_
  simp [matrixOf, hlen]

end DecisionTree

/-! ## Left-hand sides -/

theorem count_fresh (k : Nat) (Xs : List MetaName) :
    Xs.count (.fresh k) = (Xs.filterMap MetaName.number?).count k := by
  induction Xs with
  | nil => rfl
  | cons X Xs ih =>
      cases X with
      | named X =>
          rw [List.count_cons_of_ne (by simp), List.filterMap_cons_none rfl, ih]
      | fresh l =>
          rw [List.filterMap_cons, MetaName.number?, List.count_cons, List.count_cons, ih]
          simp

/-- What the numbering of jokers does to a left-hand side, as far as rules are concerned. -/
structure NumberedSide (lhs lhs' : Term) : Prop where
  numbered : Term.Numbered 0 lhs lhs'
  closed : lhs'.closed = lhs.closed
  named : ∀ X n,
    (some (.named X), n) ∈ lhs'.metaVariables ↔ (some (.named X), n) ∈ lhs.metaVariables
  before : lhs.numbers = []
  after : lhs'.numbers.Nodup

namespace NumberedSide

variable {lhs lhs' rhs : Term} (h : NumberedSide lhs lhs')

include h

/-- A number occurs once. -/
theorem unique {k m n : Nat} (hm : (some (.fresh k), m) ∈ lhs'.metaVariables)
    (hn : (some (.fresh k), n) ∈ lhs'.metaVariables) : m = n := by
  have hpairs : lhs'.metaVariables.Pairwise fun p q => ∀ i, p.1.bind MetaName.number? = some i →
      ∀ j, q.1.bind MetaName.number? = some j → i ≠ j := by
    have hnodup := h.after
    rwa [Term.numbers, Term.metaNames, List.filterMap_filterMap, List.Nodup,
      List.pairwise_filterMap] at hnodup
  have : Std.Symm fun p q : Option MetaName × Nat => ∀ i, p.1.bind MetaName.number? = some i →
      ∀ j, q.1.bind MetaName.number? = some j → i ≠ j :=
    ⟨fun p q hpq i hi j hj => (hpq j hj i hi).symm⟩
  by_contra hne
  exact hpairs.forall hm hn (fun heq => hne (Prod.mk.inj heq).2) k rfl k rfl rfl

theorem not_mem {k n : Nat} : (some (.fresh k), n) ∉ lhs.metaVariables := by
  intro hmem
  have hk : k ∈ lhs.numbers :=
    List.mem_filterMap.mpr ⟨_, List.mem_filterMap.mpr ⟨_, hmem, rfl⟩, rfl⟩
  rw [h.before] at hk
  cases hk

theorem consistent_iff : MetaArities.Consistent lhs.metaVariables
    ↔ MetaArities.Consistent lhs'.metaVariables := by
  constructor
  · intro hconsistent X m n hm hn
    cases X with
    | named X => exact hconsistent _ m n ((h.named X m).mp hm) ((h.named X n).mp hn)
    | fresh k => exact h.unique hm hn
  · intro hconsistent X m n hm hn
    cases X with
    | named X => exact hconsistent _ m n ((h.named X m).mpr hm) ((h.named X n).mpr hn)
    | fresh k => exact absurd hm h.not_mem

theorem cover_iff (hrhs : rhs.numbers = []) : MetaArities.Cover lhs.metaVariables rhs
    ↔ MetaArities.Cover lhs'.metaVariables rhs := by
  refine forall₂_congr fun u hu => and_congr_right fun _ => ?_
  refine forall₃_congr fun m args hm => exists_congr fun X => and_congr_right fun hX => ?_
  cases X with
  | named X => exact (h.named X _).symm
  | fresh k =>
      subst hm hX
      have hk : k ∈ rhs.numbers := List.mem_filterMap.mpr
        ⟨_, List.mem_filterMap.mpr ⟨_, List.mem_filterMap.mpr ⟨_, hu, rfl⟩, rfl⟩, rfl⟩
      rw [hrhs] at hk
      cases hk

/-- Both left-hand sides are accepted or neither is. -/
theorem ofSides_iff (hrhs : rhs.numbers = []) (name : String) :
    (∃ r, Rule.ofSides name lhs rhs = .ok r) ↔ ∃ r, Rule.ofSides name lhs' rhs = .ok r := by
  rw [Rule.exists_ofSides_iff, Rule.exists_ofSides_iff, h.closed, h.consistent_iff,
    h.cover_iff hrhs, exists_congr h.numbered.unapply_symb]

/-- Rules that are made of both. -/
theorem rule (hrhs : rhs.numbers = []) {name : String} {r r' : Rule}
    (hr : Rule.ofSides name lhs rhs = .ok r) (hr' : Rule.ofSides name lhs' rhs = .ok r') :
    r.Numbered r' := by
  obtain ⟨hlhs, -, rfl, -⟩ := Rule.ofSides_ok_iff.mp hr
  obtain ⟨hlhs', -, hrhs', -⟩ := Rule.ofSides_ok_iff.mp hr'
  have hargs := h.numbered.unapply.2
  rw [hlhs, hlhs'] at hargs
  have hcount : ∀ {t : Term} {s : Symbol} {args : List Term}, t.unapply = (.symb s, args) →
      ∀ k, Term.metaCount (.fresh k) args = t.numbers.count k := by
    intro t s args ht k
    rw [Term.numbers, ← count_fresh, Term.eq_apply_of_unapply ht, Term.count_metaNames_apply]
    exact (Nat.zero_add _).symm
  refine ⟨?_, hrhs', hargs, Or.inr ⟨hrhs, fun k => ?_, fun k => ?_⟩⟩
  · have hhead := (h.numbered.unapply_symb r.head).mp (by rw [hlhs])
    rw [hlhs'] at hhead
    exact Term.symb.inj hhead
  · rw [hcount hlhs, h.before, List.count_nil]
  · rw [hcount hlhs']
    exact List.nodup_iff_count.mp h.after k

end NumberedSide

theorem Scope.numberedSide {sc : Scope} (hsc : sc.space = "") {n n' : Nat} {lhs lhs' : Term}
    (h : (sc.pattern 0 lhs).run n = (lhs', n')) (hlhs : lhs.numbers = []) :
    NumberedSide lhs lhs' := by
  obtain rfl : ((sc.pattern 0 lhs).run n).1 = lhs' := congrArg Prod.fst h
  refine ⟨numbered_pattern hsc 0 n lhs, allFree_pattern hsc _ 0 n lhs, named_pattern hsc 0 n lhs,
    hlhs, ?_⟩
  rw [(numbers_pattern hsc 0 n lhs hlhs).2]
  exact List.nodup_range'

/-- Numbering the jokers of a left-hand side, from any number on, makes no difference to its rule.
No joker is left. The meta-variables that take their places have consecutive numbers, each of
which occurs once, and are applied to all variables bound around them, in order. The rule is
accepted exactly if it was accepted before. Where it takes the place of the rule in a list, the
rules compile exactly if they compiled before, and for any columns the rule at the same position
fires, with the same instance of the right-hand side, or none does. -/
theorem numbered_jokers_match_alike (σ : Signature) {n n' : Nat} {lhs lhs' rhs : Term}
    (hlhs : lhs.numbers = []) (hrhs : rhs.numbers = [])
    (h : (Scope.pattern ⟨σ, ""⟩ 0 lhs).run n = (lhs', n')) (name : String) :
    (∀ p ∈ lhs'.places 0, p.2 ≠ .joker
        ∧ ∀ k args, p.2 = .mvar (some (.fresh k)) args → args = newVariables p.1)
      ∧ n ≤ n' ∧ lhs'.numbers = List.range' n (n' - n)
      ∧ ((∃ r, Rule.ofSides name lhs rhs = .ok r) ↔ ∃ r', Rule.ofSides name lhs' rhs = .ok r')
      ∧ ∀ r r', Rule.ofSides name lhs rhs = .ok r → Rule.ofSides name lhs' rhs = .ok r' →
        ∀ rules rules', List.Forall₂ (fun q q' => q' = q ∨ q = r ∧ q' = r') rules rules' →
        ∀ arity, ((∃ tree, DecisionTree.compile rules arity = .ok tree)
            ↔ ∃ tree', DecisionTree.compile rules' arity = .ok tree')
          ∧ ∀ tree tree', DecisionTree.compile rules arity = .ok tree →
            DecisionTree.compile rules' arity = .ok tree' →
            ∀ (red : Reducer) (columns : List Term), columns.length = arity →
            (tree.find red columns).Related (Option.Rel (FoundAlike (SamePosition rules rules')))
              (tree'.find red columns) := by
  have hspace : (Scope.mk σ "").space = "" := rfl
  have hside := Scope.numberedSide hspace h hlhs
  have hplaces := Scope.places_pattern hspace 0 n lhs hlhs
  have hnumbers := Scope.numbers_pattern hspace 0 n lhs hlhs
  rw [h] at hplaces hnumbers
  refine ⟨hplaces, hnumbers.1, hnumbers.2, hside.ofSides_iff hrhs name, ?_⟩
  intro r r' hr hr' rules rules' hrules arity
  have hnumbered : List.Forall₂ Rule.Numbered rules rules' := by
    refine hrules.imp fun q q' hq => ?_
    rcases hq with rfl | ⟨rfl, rfl⟩
    · exact .refl q'
    · exact hside.rule hrhs hr hr'
  exact ⟨DecisionTree.compile_numbered_iff hnumbered,
    fun tree tree' htree htree' red columns => DecisionTree.find_numbered hnumbered htree htree'⟩

/-- The rule `f * (x : * => g x *) X --> X`. -/
def pickRule : Rule where
  name := "pick"
  head := ⟨"f"⟩
  args := [.joker, .abst "x" (some .joker) ((Term.symb ⟨"g"⟩).apply [.bvar 0 (some "x"), .joker]),
    .mvar (some (.named "X")) []]
  rhs := .mvar (some (.named "X")) []

/-- The rule `f ?3 (x => g x ?4[x]) X --> X`. -/
def numberedPickRule : Rule :=
  { pickRule with
    args := [.mvar (some (.fresh 3)) [], .abst "x" none ((Term.symb ⟨"g"⟩).apply
        [.bvar 0 (some "x"), .mvar (some (.fresh 4)) [.bvar 0 none]]),
      .mvar (some (.named "X")) []] }

/-- Before the rule `f X --> X`, both rules fire on the same columns. -/
theorem numbered_jokers_match_alike_pick :
    pickRule.lhs.numbers = [] ∧ pickRule.rhs.numbers = []
      ∧ (Scope.pattern ⟨{}, ""⟩ 0 pickRule.lhs).run 3 = (numberedPickRule.lhs, 5)
      ∧ Rule.ofSides "pick" pickRule.lhs pickRule.rhs = .ok pickRule
      ∧ Rule.ofSides "pick" numberedPickRule.lhs pickRule.rhs = .ok numberedPickRule
      ∧ ∃ tree tree', DecisionTree.compile [pickRule, shortRule] 3 = .ok tree
        ∧ DecisionTree.compile [numberedPickRule, shortRule] 3 = .ok tree'
        ∧ ∀ (red : Reducer) (columns : List Term), columns.length = 3 →
          (tree.find red columns).Related (Option.Rel (FoundAlike
              (SamePosition [pickRule, shortRule] [numberedPickRule, shortRule])))
            (tree'.find red columns) := by
  have hlhs : pickRule.lhs.numbers = [] := rfl
  have hrhs : pickRule.rhs.numbers = [] := rfl
  have hrun : (Scope.pattern ⟨{}, ""⟩ 0 pickRule.lhs).run 3 = (numberedPickRule.lhs, 5) := rfl
  have hpick : ∀ p ∈ pickRule.args, PatternAt 0 p :=
    List.forall_mem_cons.mpr ⟨.joker, List.forall_mem_cons.mpr
      ⟨.abst (.symb rfl (List.forall_mem_cons.mpr
        ⟨.bvar rfl (List.forall_mem_nil _), List.forall_mem_singleton.mpr .joker⟩)),
      List.forall_mem_singleton.mpr (.named rfl)⟩⟩
  have hshort : ∀ p ∈ shortRule.args, PatternAt 0 p := List.forall_mem_singleton.mpr (.named rfl)
  obtain ⟨-, -, -, -, hmatches⟩ := numbered_jokers_match_alike {} hlhs hrhs hrun "pick"
  obtain ⟨hcompile, hfind⟩ := hmatches pickRule numberedPickRule rfl rfl [pickRule, shortRule]
    [numberedPickRule, shortRule] (.cons (Or.inr ⟨rfl, rfl⟩) (.cons (Or.inl rfl) .nil)) 3
  obtain ⟨tree, htree⟩ : ∃ tree, DecisionTree.compile [pickRule, shortRule] 3 = .ok tree :=
    DecisionTree.compile_ok_iff.mpr ⟨List.cons_ne_nil _ _, by simp [pickRule, shortRule],
      by simp [pickRule, shortRule, Rule.arity],
      List.forall_mem_cons.mpr ⟨hpick, List.forall_mem_singleton.mpr hshort⟩⟩
  obtain ⟨tree', htree'⟩ := hcompile.mp ⟨tree, htree⟩
  exact ⟨hlhs, hrhs, hrun, rfl, rfl, tree, tree', htree, htree', hfind tree tree' htree htree'⟩

end LambdaPi
