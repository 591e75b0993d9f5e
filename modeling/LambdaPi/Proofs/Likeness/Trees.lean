import LambdaPi.Proofs.Likeness.Terms
import LambdaPi.Rules.Signature

/-!
# Rules and trees that are alike

Like rules are compiled to like trees, and if they cannot be compiled, it is for like reasons. The
order that symbols are in enters here: it is the order of the branches of a switch.
-/

namespace LambdaPi

/-! ## Arguments of meta-variables -/

/-- Like arguments are refused for the same reason. -/
inductive PatternError.Like (L : Likeness) : PatternError → PatternError → Prop
  | nonLocal {a b} : a.Like L b → Like L (.nonLocal a) (.nonLocal b)
  | repeated {a b} : a.Like L b → Like L (.repeated a) (.repeated b)

section

variable {L : Likeness}

theorem notePosition_like (depth : Nat) (positions : List (Option Nat)) {a b : Term}
    (h : a.Like L b) (i : Nat) :
    ExceptRel (PatternError.Like L) Eq (notePosition depth positions a i)
      (notePosition depth positions b i) := by
  cases h with
  | bvar hx =>
      unfold notePosition
      dsimp only
      split
      · split
        · exact .error (.repeated (.bvar hx))
        · exact .ok rfl
      · exact .error (.nonLocal (.bvar hx))
  | _ => exact .error (.nonLocal (by constructor <;> assumption))

theorem localPositions_like {as bs : List Term} (h : List.Forall₂ (Term.Like L) as bs)
    (depth : Nat) :
    ExceptRel (PatternError.Like L) Eq (localPositions as depth) (localPositions bs depth) := by
  have hnote : ∀ i positions, ExceptRel (PatternError.Like L) Eq
      (notePositions depth as i positions) (notePositions depth bs i positions) := by
    induction h with
    | nil => exact fun i positions => .ok rfl
    | cons hab _ ih =>
        intro i positions
        refine (notePosition_like depth positions hab i).bind ?_
        rintro p _ rfl
        exact ih (i + 1) p
  exact hnote 0 _

theorem isIdentity_like {as bs : List Term} (h : List.Forall₂ (Term.Like L) as bs) (depth : Nat) :
    isIdentity as depth = isIdentity bs depth := by
  have hcounts : ∀ i, countsFrom i as = countsFrom i bs := by
    induction h with
    | nil => exact fun i => rfl
    | cons hab _ ih =>
        intro i
        rw [countsFrom, countsFrom, hab.isVar, ih]
  rw [isIdentity, isIdentity, h.length_eq, hcounts]

end

/-! ## Rules -/

/-- Like sides, under corresponding labels. -/
structure Rule.Like (L : Likeness) (r q : Rule) : Prop where
  name : L.label r.name q.name
  head : L.symbol r.head q.head
  args : List.Forall₂ (Term.Like L) r.args q.args
  rhs : r.rhs.Like L q.rhs

theorem Rule.Like.arity {L : Likeness} {r q : Rule} (h : r.Like L q) : r.arity = q.arity :=
  h.args.length_eq

theorem Rule.Like.instantiate {L : Likeness} {r q : Rule} (h : r.Like L q) {θ η : Bindings}
    (hθ : Bindings.Like L θ η) : (r.instantiate θ).Like L (q.instantiate η) := by
  unfold Rule.instantiate
  cases hθ with
  | nil => exact h.rhs
  | cons hb hbs => exact Bindings.Like.fill (.cons hb hbs) h.rhs 0

/-- Like rules are refused for the same reason. -/
inductive TreeError.Like (L : Likeness) : TreeError → TreeError → Prop
  | noRules : Like L .noRules .noRules
  | headMismatch {s s' t t'} : L.symbol s t → L.symbol s' t' →
      Like L (.headMismatch s s') (.headMismatch t t')
  | arityTooSmall {a b n} : L.label a b → Like L (.arityTooSmall a n) (.arityTooSmall b n)
  | pattern {e d} : e.Like L d → Like L (.pattern e) (.pattern d)
  | unmatchable {p q} : p.Like L q → Like L (.unmatchable p) (.unmatchable q)

/-! ## Shapes -/

/-- The shapes of like terms. -/
inductive Shape.Like (L : Likeness) : Shape → Shape → Prop
  | abst : Like L .abst .abst
  | symb {s t nargs} : L.symbol s t → Like L (.symb s nargs) (.symb t nargs)
  | bvar {n nargs} : Like L (.bvar n nargs) (.bvar n nargs)

namespace Shape

variable {L : Likeness} {a a' b b' : Shape}

theorem Like.width (h : a.Like L b) : a.width = b.width := by
  cases h <;> rfl

theorem Like.depthInside (h : a.Like L b) (depth : Nat) :
    a.depthInside depth = b.depthInside depth := by
  cases h <;> rfl

theorem Like.eq_iff (h : a.Like L b) (h' : a'.Like L b') : a = a' ↔ b = b' := by
  cases h with
  | symb hs =>
      cases h' with
      | symb hs' => rw [symb.injEq, symb.injEq, L.symbol_inj hs hs']
      | _ => simp
  | abst | bvar => cases h' <;> simp

theorem Like.before (h : a.Like L b) (h' : a'.Like L b') : a.before a' = b.before b' := by
  cases h with
  | @symb s t _ hs =>
      cases h' with
      | @symb s' t' _ hs' =>
          have heq : (s == s') = (t == t') := by
            rw [Bool.eq_iff_iff, beq_iff_eq, beq_iff_eq]
            exact L.symbol_inj hs hs'
          rw [Shape.before, Shape.before, L.symbol_before hs hs', heq]
      | _ => rfl
  | abst | bvar => cases h' <;> rfl

end Shape

/-- The same number of parts, which are like each other, in like shapes. -/
def ShapedLike (L : Likeness) (p q : Shape × List Term) : Prop :=
  p.1.Like L q.1 ∧ List.Forall₂ (Term.Like L) p.2 q.2

theorem Term.Like.shape? {L : Likeness} {t u : Term} (h : t.Like L u) :
    Option.Rel (ShapedLike L) t.shape? u.shape? := by
  obtain ⟨hhead, hargs⟩ := h.unapply
  unfold Term.shape?
  generalize t.unapply = p, u.unapply = q at hhead hargs
  obtain ⟨f, as⟩ := p
  obtain ⟨g, bs⟩ := q
  cases h with
  | abst _ _ hbody => exact .some ⟨.abst, .cons hbody .nil⟩
  | _ =>
      dsimp only at hhead hargs ⊢
      cases hhead with
      | symb hs =>
          dsimp only
          rw [hargs.length_eq]
          exact .some ⟨.symb hs, List.rel_reverse hargs⟩
      | bvar =>
          dsimp only
          rw [hargs.length_eq]
          exact .some ⟨.bvar, List.rel_reverse hargs⟩
      | _ => exact .none

/-! ## Trees -/

/-- The same instruction for like patterns. -/
structure MetaTest.Like (L : Likeness) (a b : MetaTest) : Prop where
  column : a.column = b.column
  name : a.name = b.name
  positions : a.positions = b.positions
  depth : a.depth = b.depth
  args : List.Forall₂ (Term.Like L) a.args b.args
  anything : a.anything = b.anything

mutual

/-- Trees that make the same decisions and end in like rules. -/
inductive Tree.Like (L : Likeness) : Tree → Tree → Prop
  | fail : Tree.Like L .fail .fail
  | switch {i bs cs t u} : Branches.Like L bs cs → Tree.Like L t u →
      Tree.Like L (.switch i bs t) (.switch i cs u)
  | test {r q as bs t u} : r.Like L q → List.Forall₂ (MetaTest.Like L) as bs → Tree.Like L t u →
      Tree.Like L (.test r as t) (.test q bs u)

/-- Branches for like shapes, in the same order. -/
inductive Branches.Like (L : Likeness) : Branches → Branches → Prop
  | nil : Branches.Like L .nil .nil
  | cons {a b t u bs cs} : Shape.Like L a b → Tree.Like L t u → Branches.Like L bs cs →
      Branches.Like L (.cons a t bs) (.cons b u cs)

end

/-- Like trees that look at equally many arguments. -/
structure DecisionTree.Like (L : Likeness) (t u : DecisionTree) : Prop where
  arity : t.arity = u.arity
  root : t.root.Like L u.root

section

variable {L : Likeness}

theorem Branches.Like.insert {a b : Shape} {t u : Tree} (hab : a.Like L b) (htu : t.Like L u) :
    ∀ {bs cs : Branches}, bs.Like L cs → (bs.insert a t).Like L (cs.insert b u)
  | .nil, _, h => by
      cases h
      exact .cons hab htu .nil
  | .cons _ _ _, _, h => by
      cases h with
      | cons hs hv hrest =>
          rw [Branches.insert, Branches.insert, hab.before hs]
          split
          · exact .cons hab htu (.cons hs hv hrest)
          · exact .cons hs hv (insert hab htu hrest)

/-- Like trees for like shapes. -/
def BranchLike (L : Likeness) (b c : Shape × Tree) : Prop :=
  b.1.Like L c.1 ∧ b.2.Like L c.2

theorem Branches.Like.ofList {bs cs : List (Shape × Tree)}
    (h : List.Forall₂ (BranchLike L) bs cs) :
    (Branches.ofList bs).Like L (Branches.ofList cs) := by
  induction h with
  | nil => exact .nil
  | cons hbc _ ih => exact Branches.Like.insert hbc.1 hbc.2 ih

end

/-! ## Compilation -/

/-- Like patterns, in the same columns. -/
structure Row.Like (L : Likeness) (row row' : Row) : Prop where
  columns : List.Forall₂ (Term.Like L) row.columns row'.columns
  rule : row.rule.Like L row'.rule

section

variable {L : Likeness} {row row' : Row}

theorem Row.Like.pattern (h : row.Like L row') (j : Nat) :
    (row.pattern j).Like L (row'.pattern j) := by
  have hj := forall₂_getElem? h.columns j
  rw [Row.pattern, Row.pattern, List.getD_eq_getElem?_getD, List.getD_eq_getElem?_getD]
  generalize row.columns[j]? = p, row'.columns[j]? = q at hj
  cases hj with
  | none => exact .joker
  | some hpq => exact hpq

theorem Row.Like.firstRigid? (h : row.Like L row') : row.firstRigid? = row'.firstRigid? := by
  obtain ⟨columns, rule⟩ := row
  obtain ⟨columns', rule'⟩ := row'
  have hcolumns := h.columns
  dsimp only at hcolumns
  unfold Row.firstRigid?
  dsimp only
  clear h
  induction hcolumns with
  | nil => rfl
  | cons hpq _ ih => rw [List.findIdx?_cons, List.findIdx?_cons, hpq.isMeta, ih]

theorem Row.Like.specialize (h : row.Like L row') (j : Nat) {shape shape' : Shape}
    (hshape : shape.Like L shape') :
    Option.Rel (Row.Like L) (row.specialize j shape) (row'.specialize j shape') := by
  have hp := (h.pattern j).shape?
  unfold Row.specialize
  generalize (row.pattern j).shape? = p, (row'.pattern j).shape? = q at hp
  cases hp with
  | none =>
      dsimp only
      rw [hshape.width]
      exact .some ⟨List.rel_append h.columns (forall₂_replicate .joker _), h.rule⟩
  | @some p q hpq =>
      obtain ⟨s, parts⟩ := p
      obtain ⟨s', parts'⟩ := q
      obtain ⟨hs, hparts⟩ := hpq
      dsimp only
      simp only [hs.eq_iff hshape]
      split
      · exact .some ⟨List.rel_append (forall₂_set h.columns .joker j) hparts, h.rule⟩
      · exact .none

theorem metaTests_like {as bs : List Term} (h : List.Forall₂ (Term.Like L) as bs) (i : Nat)
    (depths : List Nat) :
    ExceptRel (TreeError.Like L) (List.Forall₂ (MetaTest.Like L)) (Row.metaTests i as depths)
      (Row.metaTests i bs depths) := by
  induction h generalizing i depths with
  | nil =>
      unfold Row.metaTests
      exact .ok .nil
  | @cons a b as bs hab _ ih =>
      cases depths with
      | nil =>
          unfold Row.metaTests
          exact .ok .nil
      | cons depth depths =>
          cases hab with
          | @mvar m args args' hargs =>
              cases m with
              | none =>
                  unfold Row.metaTests
                  exact ih (i + 1) depths
              | some X =>
                  unfold Row.metaTests
                  dsimp only
                  have hpositions := localPositions_like hargs depth
                  generalize localPositions args depth = p, localPositions args' depth = q
                    at hpositions
                  cases hpositions with
                  | error he => exact .error (.pattern he)
                  | ok hpq =>
                      refine (ih (i + 1) depths).bind fun _ _ htests => .ok (.cons ?_ htests)
                      exact ⟨rfl, rfl, hpq, rfl, hargs, isIdentity_like hargs depth⟩
          | _ =>
              unfold Row.metaTests
              exact ih (i + 1) depths

/-- Like patterns, with as many variables bound around them. -/
structure Matrix.Like (L : Likeness) (m m' : Matrix) : Prop where
  rows : List.Forall₂ (Row.Like L) m.rows m'.rows
  depths : m.depths = m'.depths

theorem checkColumn_like {rows rows' : List Row} (h : List.Forall₂ (Row.Like L) rows rows')
    (j : Nat) :
    ExceptRel (TreeError.Like L) Eq (Matrix.checkColumn j rows) (Matrix.checkColumn j rows') := by
  induction h with
  | nil => exact .ok rfl
  | @cons row row' _ _ hrow _ ih =>
      have hshape : (row.pattern j).shape?.isSome = (row'.pattern j).shape?.isSome := by
        have hp := (hrow.pattern j).shape?
        generalize (row.pattern j).shape? = p, (row'.pattern j).shape? = q at hp
        cases hp <;> rfl
      rw [Matrix.checkColumn, Matrix.checkColumn, (hrow.pattern j).isMeta, hshape]
      split
      · exact ih
      · exact .error (.unmatchable (hrow.pattern j))

theorem eraseDups_like {as bs : List Shape} (h : List.Forall₂ (Shape.Like L) as bs) :
    List.Forall₂ (Shape.Like L) as.eraseDups bs.eraseDups := by
  induction hn : as.length using Nat.strongRecOn generalizing as bs with
  | _ n ih =>
      cases h with
      | nil => exact .nil
      | @cons a b as bs hab h =>
          rw [List.eraseDups_cons, List.eraseDups_cons]
          have hothers : List.Forall₂ (Shape.Like L) (as.filter fun c => !c == a)
              (bs.filter fun d => !d == b) := by
            refine List.rel_filter ?_ h
            intro c d hcd
            simpa using not_congr (hcd.eq_iff hab)
          refine .cons hab (ih _ ?_ hothers rfl)
          rw [← hn, List.length_cons]
          exact Nat.lt_succ_of_le (List.length_filter_le ..)

theorem shapes_like {rows rows' : List Row} (h : List.Forall₂ (Row.Like L) rows rows') (j : Nat) :
    List.Forall₂ (Shape.Like L) (Matrix.shapes j rows) (Matrix.shapes j rows') := by
  refine eraseDups_like (List.rel_filterMap ?_ h)
  intro row row' hrow
  dsimp only
  have hp := (hrow.pattern j).shape?
  generalize (row.pattern j).shape? = p, (row'.pattern j).shape? = q at hp
  cases hp with
  | none => exact .none
  | some hpq => exact .some hpq.1

end

namespace Matrix

variable {L : Likeness} {m m' : Matrix}

theorem Like.specialize (h : m.Like L m') (j : Nat) {shape shape' : Shape}
    (hshape : shape.Like L shape') : (m.specialize j shape).Like L (m'.specialize j shape') := by
  constructor
  · refine List.rel_filterMap ?_ h.rows
    intro row row' hrow
    exact hrow.specialize j hshape
  · rw [Matrix.specialize, Matrix.specialize, h.depths, hshape.width, hshape.depthInside]

theorem Like.others (h : m.Like L m') (j : Nat) : (m.others j).Like L (m'.others j) := by
  constructor
  · refine List.rel_filter ?_ h.rows
    intro row row' hrow
    dsimp only
    rw [(hrow.pattern j).isMeta]
  · exact h.depths

theorem compile_of_nil (h : m.rows = []) : m.compile = .ok .fail := by
  rw [compile]
  split
  · rfl
  · next heq => cases h.symm.trans heq

theorem compile_of_flexible {first : Row} {rest : List Row} (h : m.rows = first :: rest)
    (hfirst : first.firstRigid? = none) :
    m.compile = (do
      let tests ← Row.metaTests 0 first.columns m.depths
      let otherwise ← compile { m with rows := rest }
      return .test first.rule tests otherwise) := by
  rw [compile]
  split
  · next heq => cases h.symm.trans heq
  · next heq =>
    obtain ⟨rfl, rfl⟩ := List.cons.inj (h.symm.trans heq)
    split
    · rfl
    · next hj => cases hfirst.symm.trans hj

theorem compile_of_rigid {first : Row} {rest : List Row} {j : Nat} (h : m.rows = first :: rest)
    (hj : first.firstRigid? = some j) :
    m.compile = match checkColumn j m.rows with
      | .error e => .error e
      | .ok () => do
        let branches ← (shapes j m.rows).mapM fun shape => do
          let tree ← (m.specialize j shape).compile
          return (shape, tree)
        let otherwise ← (m.others j).compile
        return .switch j (Branches.ofList branches) otherwise := by
  rw [compile]
  split
  · next heq => cases h.symm.trans heq
  · next heq =>
    obtain ⟨rfl, rfl⟩ := List.cons.inj (h.symm.trans heq)
    split
    · next hnone => cases hj.symm.trans hnone
    · next hj' =>
      obtain rfl := Option.some.inj (hj.symm.trans hj')
      split
      · next hcheck => rw [hcheck]
      · next hcheck => rw [hcheck]

/-- Like matrices end up in like trees, one step of compilation at a time. -/
theorem Like.compile (h : m.Like L m') :
    ExceptRel (TreeError.Like L) (Tree.Like L) m.compile m'.compile := by
  fun_induction Matrix.compile m generalizing m' with
  | case1 m hrows =>
      have hrows' := List.forall₂_nil_left_iff.1 (hrows ▸ h.rows)
      rw [compile_of_nil hrows']
      exact .ok .fail
  | case2 m first rest hrows hrigid ih =>
      obtain ⟨first', rest', hfirst, hrest, hrows'⟩ :=
        List.forall₂_cons_left_iff.1 (hrows ▸ h.rows)
      rw [compile_of_flexible hrows' (hfirst.firstRigid? ▸ hrigid), ← h.depths]
      refine (metaTests_like hfirst.columns 0 m.depths).bind fun tests tests' htests => ?_
      have hrest' : Like L ⟨rest, m.depths⟩ ⟨rest', m.depths⟩ := ⟨hrest, rfl⟩
      refine (ih hrest').bind fun tree tree' htree => ?_
      exact .ok (.test hfirst.rule htests htree)
  | case3 m first rest hrows j hj e hcheck =>
      obtain ⟨first', rest', hfirst, -, hrows'⟩ := List.forall₂_cons_left_iff.1 (hrows ▸ h.rows)
      have hcolumn := checkColumn_like h.rows j
      rw [compile_of_rigid hrows' (hfirst.firstRigid? ▸ hj)]
      rw [hcheck] at hcolumn
      generalize checkColumn j m'.rows = c at hcolumn
      cases hcolumn with
      | error he => exact .error he
  | case4 m first rest hrows j hj hcheck ihshape ihother =>
      obtain ⟨first', rest', hfirst, -, hrows'⟩ := List.forall₂_cons_left_iff.1 (hrows ▸ h.rows)
      have hcolumn := checkColumn_like h.rows j
      rw [compile_of_rigid hrows' (hfirst.firstRigid? ▸ hj)]
      rw [hcheck] at hcolumn
      generalize checkColumn j m'.rows = c at hcolumn
      cases hcolumn with
      | ok _ =>
          refine ExceptRel.bind (ExceptRel.mapM (T := BranchLike L) ?_) fun bs cs hbranches => ?_
          · refine (shapes_like h.rows j).imp fun shape shape' hshape => ?_
            refine (ihshape shape (h.specialize j hshape)).bind fun tree tree' htree => ?_
            exact .ok ⟨hshape, htree⟩
          · refine (ihother (h.others j)).bind fun tree tree' htree => ?_
            exact .ok (.switch (.ofList hbranches) htree)

end Matrix

namespace DecisionTree

variable {L : Likeness}

theorem row_like {s t : Symbol} (hst : L.symbol s t) (arity : Nat) {r q : Rule} (h : r.Like L q) :
    ExceptRel (TreeError.Like L) (Row.Like L) (row s arity r) (row t arity q) := by
  unfold row
  simp only [ne_eq, L.symbol_inj h.head hst, h.arity]
  split
  · exact .error (.headMismatch h.head hst)
  · split
    · exact .error (.arityTooSmall h.name)
    · refine .ok ⟨?_, h⟩
      exact List.rel_append (forall₂_replicate .joker _) (List.rel_reverse h.args)

theorem compile_like {rules rules' : List Rule} (h : List.Forall₂ (Rule.Like L) rules rules')
    (arity : Nat) :
    ExceptRel (TreeError.Like L) (DecisionTree.Like L) (compile rules arity)
      (compile rules' arity) := by
  unfold compile
  cases h with
  | nil => exact .error .noRules
  | cons hfirst hrest =>
      refine (ExceptRel.mapM ((List.Forall₂.cons hfirst hrest).imp fun r q hrq =>
        row_like hfirst.head arity hrq)).bind fun rows rows' hrows => ?_
      have hmatrix : Matrix.Like L ⟨rows, List.replicate arity 0⟩ ⟨rows', List.replicate arity 0⟩ :=
        ⟨hrows, rfl⟩
      refine hmatrix.compile.bind fun tree tree' htree => ?_
      exact .ok ⟨rfl, htree⟩

end DecisionTree

/-- The trees of like rules, if there are any. -/
abbrev TreeCell.Like (L : Likeness) : TreeCell → TreeCell → Prop :=
  ExceptRel (TreeError.Like L) (Option.Rel (DecisionTree.Like L))

section

variable {L : Likeness} {rules rules' : List Rule}

theorem treeUpTo_like (h : List.Forall₂ (Rule.Like L) rules rules') (arity : Nat) :
    TreeCell.Like L (treeUpTo rules arity) (treeUpTo rules' arity) := by
  have hshort : List.Forall₂ (Rule.Like L) (rules.filter (·.arity ≤ arity))
      (rules'.filter (·.arity ≤ arity)) := by
    refine List.rel_filter ?_ h
    intro r q hrq
    dsimp only
    rw [hrq.arity]
  unfold treeUpTo
  generalize rules.filter (·.arity ≤ arity) = short,
    rules'.filter (·.arity ≤ arity) = short' at hshort
  cases hshort with
  | nil => exact .ok .none
  | cons hfirst hrest =>
      exact (DecisionTree.compile_like (.cons hfirst hrest) arity).map fun _ _ => .some

theorem longestArity_like (h : List.Forall₂ (Rule.Like L) rules rules') :
    longestArity rules = longestArity rules' := by
  have hfold : ∀ n, rules.foldl (fun n rule => max n rule.arity) n
      = rules'.foldl (fun n rule => max n rule.arity) n := by
    induction h with
    | nil => exact fun _ => rfl
    | cons hrq _ ih =>
        intro n
        rw [List.foldl_cons, List.foldl_cons, hrq.arity, ih]
  exact hfold 0

end

end LambdaPi
