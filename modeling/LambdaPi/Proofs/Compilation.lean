import LambdaPi.Proofs.Matches
import LambdaPi.Proofs.RegularRules
import LambdaPi.Rules.Signature

/-!
# Which rules compile

Compiling a matrix validates a row only once it is the first of a smaller matrix, and columns are
opened in an order that depends on the other rows. Whether it succeeds depends on neither: a matrix
compiles if every pattern in it is one that a term can match (`Matrix.exists_compile`), and only then
(`Matrix.Compiled.patternsAt`), and so do the rules that make it (`DecisionTree.compile_ok_iff`).

`Matrix.Compiled` says how the tree of a matrix is made of the trees of smaller ones. What is proved
about compiled trees is proved by induction on it.
-/

namespace LambdaPi

/-! ## Patterns -/

/-- Patterns that may stand under `d` variables of a pattern. -/
inductive PatternAt : Nat → Term → Prop
  | joker {d} : PatternAt d .joker
  | unnamed {d args} : PatternAt d (.mvar none args)
  | named {d X args positions} : localPositions args d = .ok positions →
      PatternAt d (.mvar (some X) args)
  | abst {d x A p} : PatternAt (d + 1) p → PatternAt d (.abst x A p)
  | symb {d p s ps} : p.unapply = (.symb s, ps) → (∀ q ∈ ps, PatternAt d q) → PatternAt d p
  | bvar {d p n x ps} : p.unapply = (.bvar n x, ps) → (∀ q ∈ ps, PatternAt d q) → PatternAt d p

namespace PatternAt

variable {d : Nat} {p : Term} {shape : Shape} {parts : List Term}

theorem of_shape (hp : p.shape? = some (shape, parts))
    (h : ∀ q ∈ parts, PatternAt (shape.depthInside d) q) : PatternAt d p := by
  rcases Term.shape?_cases hp with ⟨x, A, q, rfl, rfl, rfl⟩ | ⟨s, args, hargs, rfl, rfl⟩
    | ⟨n, x, args, hargs, rfl, rfl⟩
  · exact .abst (h q (List.mem_singleton.mpr rfl))
  · exact .symb hargs fun q hq => h q (List.mem_reverse.mpr hq)
  · exact .bvar hargs fun q hq => h q (List.mem_reverse.mpr hq)

theorem of_mem_parts (hp : p.shape? = some (shape, parts)) (h : PatternAt d p) :
    ∀ q ∈ parts, PatternAt (shape.depthInside d) q := by
  intro q hq
  cases h with
  | joker | unnamed | named => cases hp
  | abst hbody =>
      obtain ⟨rfl, rfl⟩ := Prod.mk.inj (Option.some.inj hp)
      rw [List.mem_singleton.mp hq]
      exact hbody
  | symb hargs hall =>
      obtain ⟨rfl, rfl⟩ := Prod.mk.inj (Option.some.inj ((Term.shape?_of_symb hargs).symm.trans hp))
      exact hall q (List.mem_reverse.mp hq)
  | bvar hargs hall =>
      obtain ⟨rfl, rfl⟩ := Prod.mk.inj (Option.some.inj ((Term.shape?_of_bvar hargs).symm.trans hp))
      exact hall q (List.mem_reverse.mp hq)

theorem isMeta_or_shape? (h : PatternAt d p) : (p.isMeta || p.shape?.isSome) = true := by
  cases h with
  | joker | unnamed | named | abst => rfl
  | symb hargs => simp [Term.shape?_of_symb hargs]
  | bvar hargs => simp [Term.shape?_of_bvar hargs]

end PatternAt

/-- Each pattern may stand where it does. -/
def PatternsAt (ds : List Nat) (ps : List Term) : Prop :=
  ∀ (i d : Nat) (p : Term), ds[i]? = some d → ps[i]? = some p → PatternAt d p

namespace PatternsAt

theorem append_iff {ds ds' : List Nat} {ps ps' : List Term} (hlen : ds.length = ps.length) :
    PatternsAt (ds ++ ds') (ps ++ ps') ↔ PatternsAt ds ps ∧ PatternsAt ds' ps' := by
  constructor
  · intro h
    refine ⟨fun i d p hd hp => ?_, fun i d p hd hp => ?_⟩
    · exact h i d p (List.getElem?_append_left (List.getElem?_eq_some_iff.mp hd).1 ▸ hd)
        (List.getElem?_append_left (List.getElem?_eq_some_iff.mp hp).1 ▸ hp)
    · refine h (ds.length + i) d p ?_ ?_
      · rw [List.getElem?_append_right (Nat.le_add_right ..), Nat.add_sub_cancel_left, hd]
      · rw [hlen, List.getElem?_append_right (Nat.le_add_right ..), Nat.add_sub_cancel_left, hp]
  · rintro ⟨h, h'⟩ i d p hd hp
    by_cases hi : i < ds.length
    · rw [List.getElem?_append_left hi] at hd
      rw [List.getElem?_append_left (by omega)] at hp
      exact h i d p hd hp
    · rw [List.getElem?_append_right (by omega)] at hd
      rw [List.getElem?_append_right (by omega), ← hlen] at hp
      exact h' _ d p hd hp

theorem cons_iff {d : Nat} {p : Term} {ds : List Nat} {ps : List Term} :
    PatternsAt (d :: ds) (p :: ps) ↔ PatternAt d p ∧ PatternsAt ds ps := by
  constructor
  · exact fun h => ⟨h 0 d p rfl rfl, fun i e q he hq => h (i + 1) e q he hq⟩
  · rintro ⟨hp, hps⟩ i e q he hq
    cases i with
    | zero =>
        obtain rfl := Option.some.inj he
        obtain rfl := Option.some.inj hq
        exact hp
    | succ i => exact hps i e q he hq

theorem replicate_iff {d n : Nat} {ps : List Term} (hlen : ps.length = n) :
    PatternsAt (List.replicate n d) ps ↔ ∀ p ∈ ps, PatternAt d p := by
  constructor
  · intro h p hp
    obtain ⟨i, hi⟩ := List.mem_iff_getElem?.mp hp
    have hlt := (List.getElem?_eq_some_iff.mp hi).1
    exact h i d p (by rw [List.getElem?_replicate, if_pos (by omega)]) hi
  · intro h i d' p hd hp
    rw [List.getElem?_replicate] at hd
    split at hd
    · obtain rfl := Option.some.inj hd
      exact h p (List.mem_of_getElem? hp)
    · cases hd

/-- Replacing a pattern by a joker leaves the others to be looked at. -/
theorem set_joker_iff {ds : List Nat} {ps : List Term} {j d : Nat} {p : Term}
    (hd : ds[j]? = some d) (hp : ps[j]? = some p) :
    PatternsAt ds ps ↔ PatternsAt ds (ps.set j .joker) ∧ PatternAt d p := by
  constructor
  · refine fun h => ⟨fun i e q he hq => ?_, h j d p hd hp⟩
    rw [List.getElem?_set] at hq
    split at hq
    · split at hq
      · obtain rfl := Option.some.inj hq
        exact .joker
      · cases hq
    · exact h i e q he hq
  · rintro ⟨h, hpat⟩ i e q he hq
    by_cases hij : j = i
    · subst hij
      obtain rfl := Option.some.inj (hd.symm.trans he)
      obtain rfl := Option.some.inj (hp.symm.trans hq)
      exact hpat
    · exact h i e q he (by rw [List.getElem?_set, if_neg hij, hq])

end PatternsAt

/-! ## Rows -/

namespace Row

theorem getElem?_pattern {row : Row} {j : Nat} (h : j < row.columns.length) :
    row.columns[j]? = some (row.pattern j) := by
  simp [pattern, List.getD_eq_getElem?_getD, List.getElem?_eq_getElem h]

theorem lt_of_firstRigid? {row : Row} {j : Nat} (h : row.firstRigid? = some j) :
    j < row.columns.length :=
  (List.findIdx?_eq_some_iff_getElem.mp h).1

theorem isMeta_of_firstRigid? {row : Row} (h : row.firstRigid? = none) :
    ∀ p ∈ row.columns, p.isMeta = true := by
  intro p hp
  simpa using List.findIdx?_eq_none_iff.mp h p hp

/-- What a row becomes when a column is looked at. -/
theorem specialize_cases {row row' : Row} {j : Nat} {shape : Shape}
    (h : row.specialize j shape = some row') :
    row'.rule = row.rule
      ∧ (((row.pattern j).shape? = none
          ∧ row'.columns = row.columns ++ List.replicate shape.width .joker)
        ∨ ∃ parts, (row.pattern j).shape? = some (shape, parts)
          ∧ row'.columns = row.columns.set j .joker ++ parts) := by
  unfold specialize at h
  split at h
  · next hnone =>
    obtain rfl := Option.some.inj h
    exact ⟨rfl, Or.inl ⟨hnone, rfl⟩⟩
  · next s parts hparts =>
    split at h
    · next hs =>
      obtain rfl := Option.some.inj h
      exact ⟨rfl, Or.inr ⟨parts, hs ▸ hparts, rfl⟩⟩
    · cases h

theorem specialize_isSome {row : Row} {j : Nat} {shape : Shape} {parts : List Term}
    (h : (row.pattern j).shape? = some (shape, parts)) :
    ∃ row', row.specialize j shape = some row' := by
  simp [specialize, h]

theorem length_specialize {row row' : Row} {j : Nat} {shape : Shape}
    (h : row.specialize j shape = some row') :
    row'.columns.length = row.columns.length + shape.width := by
  obtain ⟨-, ⟨-, hcols⟩ | ⟨parts, hparts, hcols⟩⟩ := specialize_cases h
  · rw [hcols, List.length_append, List.length_replicate]
  · rw [hcols, List.length_append, List.length_set, Term.length_of_shape? hparts]

theorem patternsAt_specialize {row row' : Row} {j d : Nat} {shape : Shape} {ds : List Nat}
    (hlen : ds.length = row.columns.length) (hd : ds[j]? = some d)
    (h : row.specialize j shape = some row') :
    PatternsAt (ds ++ List.replicate shape.width (shape.depthInside d)) row'.columns
      ↔ PatternsAt ds row.columns := by
  have hp := getElem?_pattern (hlen ▸ (List.getElem?_eq_some_iff.mp hd).1)
  obtain ⟨-, ⟨-, hcols⟩ | ⟨parts, hparts, hcols⟩⟩ := specialize_cases h
  · rw [hcols, PatternsAt.append_iff hlen, PatternsAt.replicate_iff List.length_replicate]
    refine and_iff_left fun q hq => ?_
    rw [List.eq_of_mem_replicate hq]
    exact .joker
  · rw [hcols, PatternsAt.append_iff (by rw [List.length_set, hlen]),
      PatternsAt.replicate_iff (Term.length_of_shape? hparts), PatternsAt.set_joker_iff hd hp]
    exact and_congr_right fun _ => ⟨.of_shape hparts, .of_mem_parts hparts⟩

theorem metaTests_named {i d : Nat} {X : MetaName} {args cols : List Term} {ds : List Nat}
    {tests : List MetaTest} (h : metaTests i (.mvar (some X) args :: cols) (d :: ds) = .ok tests) :
    ∃ positions rest, localPositions args d = .ok positions
      ∧ metaTests (i + 1) cols ds = .ok rest
      ∧ tests = ⟨i, X, positions, d, args, isIdentity args d⟩ :: rest := by
  rw [metaTests] at h
  obtain ⟨positions, hpositions, h⟩ := bind_eq_ok h
  obtain ⟨rest, hrest, h⟩ := bind_eq_ok h
  refine ⟨positions, rest, ?_, hrest, (Except.ok.inj h).symm⟩
  cases hlocal : localPositions args d with
  | error e => rw [hlocal] at hpositions; cases hpositions
  | ok positions' =>
      rw [hlocal] at hpositions
      exact congrArg Except.ok (Except.ok.inj hpositions)

theorem metaTests_skip {i d : Nat} {p : Term} {cols : List Term} {ds : List Nat}
    {tests : List MetaTest} (hp : ∀ X args, p ≠ .mvar (some X) args)
    (h : metaTests i (p :: cols) (d :: ds) = .ok tests) :
    metaTests (i + 1) cols ds = .ok tests := by
  rw [metaTests] at h
  · exact h
  · exact hp

/-- A test binds the meta-variable that stands in its column. -/
theorem mem_metaTests {cols : List Term} {ds : List Nat} {i : Nat} {tests : List MetaTest}
    (h : metaTests i cols ds = .ok tests) {test : MetaTest} (htest : test ∈ tests) :
    localPositions test.args test.depth = .ok test.positions
      ∧ test.anything = isIdentity test.args test.depth
      ∧ ∃ k, test.column = i + k ∧ ds[k]? = some test.depth
        ∧ cols[k]? = some (.mvar (some test.name) test.args) := by
  induction cols generalizing ds i tests with
  | nil =>
      obtain rfl : [] = tests := by simpa [metaTests] using h
      cases htest
  | cons p cols ih =>
      cases ds with
      | nil =>
          obtain rfl : [] = tests := by simpa [metaTests] using h
          cases htest
      | cons d ds =>
          by_cases hp : ∃ X args, p = .mvar (some X) args
          · obtain ⟨X, args, rfl⟩ := hp
            obtain ⟨positions, rest, hpositions, hrest, rfl⟩ := metaTests_named h
            rcases List.mem_cons.mp htest with rfl | htest
            · exact ⟨hpositions, rfl, 0, rfl, rfl, rfl⟩
            · obtain ⟨hlocal, hany, k, hk, hdepth, hcol⟩ := ih hrest htest
              exact ⟨hlocal, hany, k + 1, by omega, hdepth, hcol⟩
          · have hskip := metaTests_skip (fun X args heq => hp ⟨X, args, heq⟩) h
            obtain ⟨hlocal, hany, k, hk, hdepth, hcol⟩ := ih hskip htest
            exact ⟨hlocal, hany, k + 1, by omega, hdepth, hcol⟩

/-- The meta-variables of a row without rigid patterns can be bound exactly if their arguments are
distinct variables of the pattern. -/
theorem metaTests_ok_iff {cols : List Term} {ds : List Nat} (i : Nat)
    (hlen : ds.length = cols.length) (hmeta : ∀ p ∈ cols, p.isMeta = true) :
    (∃ tests, metaTests i cols ds = .ok tests) ↔ PatternsAt ds cols := by
  induction cols generalizing ds i with
  | nil => exact ⟨fun _ => nofun, fun _ => ⟨[], by simp only [metaTests]⟩⟩
  | cons p cols ih =>
      obtain ⟨d, ds, rfl⟩ := List.exists_cons_of_length_eq_add_one hlen
      have hrest := ih (i + 1) (Nat.succ.inj hlen) fun q hq => hmeta q (List.mem_cons_of_mem _ hq)
      rw [PatternsAt.cons_iff, ← hrest]
      have hp := hmeta p (List.mem_cons_self ..)
      cases p with
      | joker => exact ⟨fun h => ⟨.joker, h⟩, fun h => h.2⟩
      | mvar m args =>
          cases m with
          | none => exact ⟨fun h => ⟨.unnamed, h⟩, fun h => h.2⟩
          | some X =>
              constructor
              · rintro ⟨tests, h⟩
                obtain ⟨positions, rest, hpositions, hrest, -⟩ := metaTests_named h
                exact ⟨.named hpositions, rest, hrest⟩
              · rintro ⟨hX, tests, htests⟩
                cases hX with
                | @named _ _ _ positions hpositions =>
                    refine ⟨⟨i, X, positions, d, args, isIdentity args d⟩ :: tests, ?_⟩
                    rw [metaTests, hpositions, htests]
                    rfl
                | symb hargs => cases hargs
                | bvar hargs => cases hargs
      | _ => cases hp

end Row

/-! ## Matrices -/

theorem mapM_ok {ε α β : Type} {f : α → Except ε β} {as : List α} {bs : List β}
    (h : as.mapM f = .ok bs) :
    (∀ a ∈ as, ∃ b ∈ bs, f a = .ok b) ∧ ∀ b ∈ bs, ∃ a ∈ as, f a = .ok b := by
  induction as generalizing bs with
  | nil =>
      obtain rfl := Except.ok.inj h
      exact ⟨nofun, nofun⟩
  | cons a as ih =>
      rw [List.mapM_cons] at h
      obtain ⟨b, hb, h⟩ := bind_eq_ok h
      obtain ⟨bs', hbs, h⟩ := bind_eq_ok h
      obtain rfl := Except.ok.inj h
      obtain ⟨hleft, hright⟩ := ih hbs
      constructor
      · intro c hc
        rcases List.mem_cons.mp hc with rfl | hc
        · exact ⟨b, List.mem_cons_self .., hb⟩
        · obtain ⟨d, hd, hcd⟩ := hleft c hc
          exact ⟨d, List.mem_cons_of_mem _ hd, hcd⟩
      · intro c hc
        rcases List.mem_cons.mp hc with rfl | hc
        · exact ⟨a, List.mem_cons_self .., hb⟩
        · obtain ⟨d, hd, hcd⟩ := hright c hc
          exact ⟨d, List.mem_cons_of_mem _ hd, hcd⟩

theorem mapM_of_forall {ε α β : Type} {f : α → Except ε β} {as : List α}
    (h : ∀ a ∈ as, ∃ b, f a = .ok b) : ∃ bs, as.mapM f = .ok bs := by
  induction as with
  | nil => exact ⟨[], rfl⟩
  | cons a as ih =>
      obtain ⟨b, hb⟩ := h a (List.mem_cons_self ..)
      obtain ⟨bs, hbs⟩ := ih fun c hc => h c (List.mem_cons_of_mem _ hc)
      refine ⟨b :: bs, ?_⟩
      rw [List.mapM_cons, hb, hbs]
      rfl

namespace Matrix

/-- All rows have the length of the matrix. -/
def Aligned (m : Matrix) : Prop :=
  ∀ row ∈ m.rows, m.depths.length = row.columns.length

/-- How a decision tree is made of a matrix. -/
inductive Compiled : Matrix → Tree → Prop
  | fail {m} : m.rows = [] → Compiled m .fail
  | test {m first rest tests otherwise} : m.rows = first :: rest → first.firstRigid? = none →
      Row.metaTests 0 first.columns m.depths = .ok tests →
      Compiled { m with rows := rest } otherwise →
      Compiled m (.test first.rule tests otherwise)
  | switch {m first rest j branches otherwise} : m.rows = first :: rest →
      first.firstRigid? = some j → checkColumn j m.rows = .ok () →
      (∀ shape, shape ∈ shapes j m.rows ↔ ∃ tree, (shape, tree) ∈ branches) →
      (∀ shape tree, (shape, tree) ∈ branches → Compiled (m.specialize j shape) tree) →
      Compiled (m.others j) otherwise →
      Compiled m (.switch j (Branches.ofList branches) otherwise)

theorem compiled_of_compile {m : Matrix} {tree : Tree} (h : m.compile = .ok tree) :
    Compiled m tree := by
  fun_induction compile m generalizing tree with
  | case1 m hrows =>
      obtain rfl := Except.ok.inj h
      exact .fail hrows
  | case2 m first rest hrows hrigid ih =>
      obtain ⟨tests, htests, h⟩ := bind_eq_ok h
      obtain ⟨otherwise, hother, h⟩ := bind_eq_ok h
      obtain rfl := Except.ok.inj h
      exact .test hrows hrigid htests (ih hother)
  | case3 => cases h
  | case4 m first rest hrows j hj hcheck ihshape ihother =>
      obtain ⟨branches, hbranches, h⟩ := bind_eq_ok h
      obtain ⟨otherwise, hother, h⟩ := bind_eq_ok h
      obtain rfl := Except.ok.inj h
      obtain ⟨hshapes, htrees⟩ := mapM_ok hbranches
      refine .switch hrows hj hcheck (fun shape => ⟨fun hshape => ?_, ?_⟩)
        (fun shape tree hmem => ?_) (ihother hother)
      · obtain ⟨⟨shape', tree⟩, hmem, h⟩ := hshapes shape hshape
        obtain ⟨tree', -, h⟩ := bind_eq_ok h
        obtain ⟨rfl, -⟩ := Prod.mk.inj (Except.ok.inj h)
        exact ⟨tree, hmem⟩
      · rintro ⟨tree, hmem⟩
        obtain ⟨shape', hshape, h⟩ := htrees _ hmem
        obtain ⟨tree', -, h⟩ := bind_eq_ok h
        obtain ⟨rfl, -⟩ := Prod.mk.inj (Except.ok.inj h)
        exact hshape
      · obtain ⟨shape', -, h⟩ := htrees _ hmem
        obtain ⟨tree', htree, h⟩ := bind_eq_ok h
        obtain ⟨rfl, rfl⟩ := Prod.mk.inj (Except.ok.inj h)
        exact ihshape shape' htree

theorem checkColumn_ok_iff {j : Nat} {rows : List Row} :
    checkColumn j rows = .ok ()
      ↔ ∀ row ∈ rows, ((row.pattern j).isMeta || (row.pattern j).shape?.isSome) = true := by
  induction rows with
  | nil => simp [checkColumn]
  | cons row rows ih =>
      rw [checkColumn]
      split
      · next hrow => simp only [ih, List.forall_mem_cons, hrow, true_and]
      · next hrow => simp only [List.forall_mem_cons, hrow, reduceCtorEq, false_and]

theorem mem_shapes {j : Nat} {rows : List Row} {row : Row} (hrow : row ∈ rows) {shape : Shape}
    {parts : List Term} (h : (row.pattern j).shape? = some (shape, parts)) :
    shape ∈ shapes j rows :=
  List.mem_eraseDups.mpr (List.mem_filterMap.mpr ⟨row, hrow, by rw [h]; rfl⟩)

theorem of_mem_shapes {j : Nat} {rows : List Row} {shape : Shape} (h : shape ∈ shapes j rows) :
    ∃ row ∈ rows, ∃ parts, (row.pattern j).shape? = some (shape, parts) := by
  obtain ⟨row, hrow, hshape⟩ := List.mem_filterMap.mp (List.mem_eraseDups.mp h)
  obtain ⟨⟨_, parts⟩, hparts, rfl⟩ := Option.map_eq_some_iff.mp hshape
  exact ⟨row, hrow, parts, hparts⟩

section

variable {m : Matrix} {j : Nat}

theorem Aligned.getElem?_depths (hm : m.Aligned) {row : Row} (hrow : row ∈ m.rows)
    (hj : j < row.columns.length) : m.depths[j]? = some (m.depths.getD j 0) := by
  rw [List.getD_eq_getElem?_getD, List.getElem?_eq_getElem (hm row hrow ▸ hj)]
  rfl

theorem Aligned.specialize (hm : m.Aligned) (j : Nat) (shape : Shape) :
    (m.specialize j shape).Aligned := by
  intro row' hrow'
  obtain ⟨row, hrow, hspec⟩ := List.mem_filterMap.mp hrow'
  rw [Row.length_specialize hspec, ← hm row hrow]
  simp [Matrix.specialize]

theorem Aligned.others (hm : m.Aligned) (j : Nat) : (m.others j).Aligned :=
  fun row hrow => hm row (List.mem_filter.mp hrow).1

theorem Aligned.tail (hm : m.Aligned) {first : Row} {rest : List Row}
    (hrows : m.rows = first :: rest) : Aligned { m with rows := rest } :=
  fun row hrow => hm row (hrows ▸ List.mem_cons_of_mem _ hrow)

end

/-- Every row of a compiled matrix was validated, at whatever place it came first. -/
theorem Compiled.patternsAt {m : Matrix} {tree : Tree} (h : Compiled m tree) (hm : m.Aligned) :
    ∀ row ∈ m.rows, PatternsAt m.depths row.columns := by
  induction h with
  | fail hrows => simp [hrows]
  | @test m first rest tests otherwise hrows hrigid htests _ ih =>
      intro row hrow
      rw [hrows] at hrow
      rcases List.mem_cons.mp hrow with rfl | hrow
      · exact (Row.metaTests_ok_iff 0 (hm _ (hrows ▸ List.mem_cons_self ..))
          (Row.isMeta_of_firstRigid? hrigid)).mp ⟨tests, htests⟩
      · exact ih (hm.tail hrows) row hrow
  | @switch m first rest j branches otherwise hrows hj hcheck hshapes _ _ ihshape ihother =>
      intro row hrow
      have hdepth := hm.getElem?_depths (hrows ▸ List.mem_cons_self ..) (Row.lt_of_firstRigid? hj)
      cases hmeta : (row.pattern j).isMeta with
      | true => exact ihother (hm.others j) row (List.mem_filter.mpr ⟨hrow, hmeta⟩)
      | false =>
          have hsome := checkColumn_ok_iff.mp hcheck row hrow
          rw [hmeta, Bool.false_or, Option.isSome_iff_exists] at hsome
          obtain ⟨⟨shape, parts⟩, hparts⟩ := hsome
          obtain ⟨tree, htree⟩ := (hshapes shape).mp (mem_shapes hrow hparts)
          obtain ⟨row', hrow'⟩ := Row.specialize_isSome hparts
          refine (Row.patternsAt_specialize (hm row hrow) hdepth hrow').mp ?_
          exact ihshape shape tree htree (hm.specialize j shape) row'
            (List.mem_filterMap.mpr ⟨row, hrow, hrow'⟩)

theorem exists_compile {m : Matrix} (hm : m.Aligned)
    (h : ∀ row ∈ m.rows, PatternsAt m.depths row.columns) : ∃ tree, m.compile = .ok tree := by
  fun_induction compile m with
  | case1 => exact ⟨_, rfl⟩
  | case2 m first rest hrows hrigid ih =>
      have hfirst : first ∈ m.rows := hrows ▸ List.mem_cons_self ..
      obtain ⟨tests, htests⟩ := (Row.metaTests_ok_iff 0 (hm first hfirst)
        (Row.isMeta_of_firstRigid? hrigid)).mpr (h first hfirst)
      obtain ⟨otherwise, hother⟩ := ih (hm.tail hrows) fun row hrow =>
        h row (hrows ▸ List.mem_cons_of_mem _ hrow)
      refine ⟨.test first.rule tests otherwise, ?_⟩
      rw [htests, hother]
      rfl
  | case3 m first rest hrows j hj e hcheck =>
      have hdepth := hm.getElem?_depths (hrows ▸ List.mem_cons_self ..) (Row.lt_of_firstRigid? hj)
      have hok : checkColumn j m.rows = .ok () := checkColumn_ok_iff.mpr fun row hrow =>
        (h row hrow j _ _ hdepth (Row.getElem?_pattern
          (hm row hrow ▸ (List.getElem?_eq_some_iff.mp hdepth).1))).isMeta_or_shape?
      rw [hok] at hcheck
      cases hcheck
  | case4 m first rest hrows j hj hcheck ihshape ihother =>
      have hdepth := hm.getElem?_depths (hrows ▸ List.mem_cons_self ..) (Row.lt_of_firstRigid? hj)
      obtain ⟨branches, hbranches⟩ : ∃ branches, (shapes j m.rows).mapM (fun shape => do
          let tree ← (m.specialize j shape).compile
          return (shape, tree)) = .ok branches := by
        refine mapM_of_forall fun shape _ => ?_
        obtain ⟨tree, htree⟩ := ihshape shape (hm.specialize j shape) fun row' hrow' => by
          obtain ⟨row, hrow, hspec⟩ := List.mem_filterMap.mp hrow'
          exact (Row.patternsAt_specialize (hm row hrow) hdepth hspec).mpr (h row hrow)
        exact ⟨(shape, tree), by rw [htree]; rfl⟩
      obtain ⟨otherwise, hother⟩ := ihother (hm.others j) fun row hrow =>
        h row (List.mem_filter.mp hrow).1
      refine ⟨.switch j (Branches.ofList branches) otherwise, ?_⟩
      rw [hbranches, hother]
      rfl

end Matrix

/-! ## Rules -/

namespace DecisionTree

/-- The row that a rule makes in a tree for `arity` arguments. -/
def rowOf (arity : Nat) (rule : Rule) : Row :=
  { columns := List.replicate (arity - rule.arity) .joker ++ rule.args.reverse, rule := rule }

/-- The matrix that rules make in a tree for `arity` arguments. -/
def matrixOf (rules : List Rule) (arity : Nat) : Matrix :=
  { rows := rules.map (rowOf arity), depths := List.replicate arity 0 }

theorem row_eq_ok_iff {head : Symbol} {arity : Nat} {rule : Rule} {r : Row} :
    row head arity rule = .ok r ↔ rule.head = head ∧ rule.arity ≤ arity ∧ r = rowOf arity rule := by
  unfold row
  split
  · next h => simp [h]
  · next h =>
    split
    · next harity => simp [Nat.not_le.mpr harity]
    · next harity =>
      rw [ne_eq, Decidable.not_not] at h
      simp only [h, Nat.not_lt.mp harity, Except.ok.injEq, true_and]
      exact eq_comm

theorem mapM_row_eq_ok {head : Symbol} {arity : Nat} {rules : List Rule} {rows : List Row}
    (h : rules.mapM (row head arity) = .ok rows) :
    (∀ rule ∈ rules, rule.head = head ∧ rule.arity ≤ arity) ∧ rows = rules.map (rowOf arity) := by
  induction rules generalizing rows with
  | nil =>
      obtain rfl := Except.ok.inj h
      exact ⟨nofun, rfl⟩
  | cons rule rules ih =>
      rw [List.mapM_cons] at h
      obtain ⟨r, hr, h⟩ := bind_eq_ok h
      obtain ⟨rows', hrows, h⟩ := bind_eq_ok h
      obtain rfl := Except.ok.inj h
      obtain ⟨hhead, harity, rfl⟩ := row_eq_ok_iff.mp hr
      obtain ⟨hrest, rfl⟩ := ih hrows
      exact ⟨List.forall_mem_cons.mpr ⟨⟨hhead, harity⟩, hrest⟩, rfl⟩

theorem aligned_matrixOf {rules : List Rule} {arity : Nat}
    (h : ∀ rule ∈ rules, rule.arity ≤ arity) : (matrixOf rules arity).Aligned := by
  intro r hr
  obtain ⟨rule, hrule, rfl⟩ := List.mem_map.mp hr
  have hle := h rule hrule
  simp only [matrixOf, rowOf, List.length_replicate, List.length_append, List.length_reverse,
    Rule.arity] at hle ⊢
  omega

theorem patternsAt_rowOf_iff {rule : Rule} {arity : Nat} (h : rule.arity ≤ arity) :
    PatternsAt (List.replicate arity 0) (rowOf arity rule).columns
      ↔ ∀ p ∈ rule.args, PatternAt 0 p := by
  have hlen : (rowOf arity rule).columns.length = arity := by
    simp only [rowOf, List.length_replicate, List.length_append, List.length_reverse, Rule.arity]
      at h ⊢
    omega
  rw [PatternsAt.replicate_iff hlen]
  simp only [rowOf, List.mem_append, List.mem_reverse]
  constructor
  · exact fun h p hp => h p (Or.inr hp)
  · rintro h p (hp | hp)
    · rw [List.eq_of_mem_replicate hp]
      exact .joker
    · exact h p hp

theorem compile_ok {rules : List Rule} {arity : Nat} {tree : DecisionTree}
    (h : compile rules arity = .ok tree) :
    (∀ rule ∈ rules, ∀ other ∈ rules, rule.head = other.head)
      ∧ (∀ rule ∈ rules, rule.arity ≤ arity) ∧ tree.arity = arity
      ∧ (matrixOf rules arity).Compiled tree.root := by
  unfold compile at h
  split at h
  · cases h
  · obtain ⟨rows, hrows, h⟩ := bind_eq_ok h
    obtain ⟨root, hroot, h⟩ := bind_eq_ok h
    obtain rfl := Except.ok.inj h
    obtain ⟨hall, rfl⟩ := mapM_row_eq_ok hrows
    exact ⟨fun rule hrule other hother => (hall rule hrule).1.trans (hall other hother).1.symm,
      fun rule hrule => (hall rule hrule).2, rfl, Matrix.compiled_of_compile hroot⟩

/-- Exactly those rules compile that have one head, no more arguments than the tree looks at, and
patterns that a term can match. -/
theorem compile_ok_iff {rules : List Rule} {arity : Nat} :
    (∃ tree, compile rules arity = .ok tree)
      ↔ rules ≠ [] ∧ (∀ rule ∈ rules, ∀ other ∈ rules, rule.head = other.head)
        ∧ (∀ rule ∈ rules, rule.arity ≤ arity)
        ∧ ∀ rule ∈ rules, ∀ p ∈ rule.args, PatternAt 0 p := by
  constructor
  · rintro ⟨tree, h⟩
    obtain ⟨hhead, harity, -, hroot⟩ := compile_ok h
    refine ⟨fun hnil => ?_, hhead, harity, fun rule hrule => ?_⟩
    · rw [hnil] at h
      cases h
    · exact (patternsAt_rowOf_iff (harity rule hrule)).mp
        (hroot.patternsAt (aligned_matrixOf harity) _ (List.mem_map_of_mem hrule))
  · rintro ⟨hne, hhead, harity, hpatterns⟩
    cases rules with
    | nil => exact absurd rfl hne
    | cons first rest =>
        obtain ⟨rows, hrows⟩ := mapM_of_forall fun rule hrule =>
          ⟨_, row_eq_ok_iff.mpr ⟨hhead rule hrule first (List.mem_cons_self ..), harity rule hrule,
            rfl⟩⟩
        obtain ⟨-, hmap⟩ := mapM_row_eq_ok hrows
        obtain ⟨root, hroot⟩ := Matrix.exists_compile (aligned_matrixOf harity) fun r hr => by
          obtain ⟨rule, hrule, rfl⟩ := List.mem_map.mp hr
          exact (patternsAt_rowOf_iff (harity rule hrule)).mpr (hpatterns rule hrule)
        refine ⟨⟨arity, root⟩, ?_⟩
        rw [compile, hrows, hmap]
        exact congrArg (Except.map (DecisionTree.mk arity)) hroot

end DecisionTree

end LambdaPi
