import LambdaPi.Proofs.Likeness.Trees
import LambdaPi.Proofs.Simulation.Evaluation

/-!
# Evaluation in signatures that are alike

Two signatures are alike if they say like things about corresponding symbols (`Signature.Like`);
symbols that do not correspond to any are left out of account. In such signatures like terms are
evaluated alike, on every budget: the same rules fire, weak head normal forms and normal forms are
like each other, and comparisons have the same answer (`Signature.Like.evaluation`).
-/

namespace LambdaPi

/-! ## Matching -/

/-- Like terms are reduced and compared alike. -/
structure Reducer.Like (L : Likeness) (red red' : Reducer) : Prop where
  whnf : ∀ {t u}, t.Like L u → (red.whnf t).Related (Term.Like L) (red'.whnf u)
  nf : ∀ {t u}, t.Like L u → (red.nf t).Related (Term.Like L) (red'.nf u)
  convertible : ∀ {t u t' u'}, t.Like L u → t'.Like L u' →
    (red.convertible t t').Related Eq (red'.convertible u u')

/-- Like terms, looked at or not. -/
structure Column.Like (L : Likeness) (c d : Column) : Prop where
  term : c.term.Like L d.term
  reduced : c.reduced = d.reduced

theorem unseen_like {L : Likeness} {as bs : List Term} (h : List.Forall₂ (Term.Like L) as bs) :
    List.Forall₂ (Column.Like L) (as.map .unseen) (bs.map .unseen) := by
  refine List.rel_map ?_ h
  intro a b hab
  exact ⟨hab, rfl⟩

/-- Answers of a search: like rules, with like bindings. -/
abbrev FoundLike (L : Likeness) : Option (Rule × Bindings) → Option (Rule × Bindings) → Prop :=
  Option.Rel fun p q => p.1.Like L q.1 ∧ Bindings.Like L p.2 q.2

namespace Reducer.Like

open Traced

variable {L : Likeness} {red red' : Reducer}

section

variable (h : red.Like L red')

include h

theorem column {c d : Column} (hcd : c.Like L d) :
    (c.whnf red).Related (Term.Like L) (d.whnf red') := by
  unfold Column.whnf
  rw [hcd.reduced]
  split
  · exact .pure hcd.term
  · exact h.whnf hcd.term

theorem settle {test test' : MetaTest} (htest : test.Like L test') {t u : Term}
    (htu : t.Like L u) :
    (test.settle red t).Related (Option.Rel (Binding.Like L)) (test'.settle red' u) := by
  have hbind : ∀ {t u : Term}, t.Like L u →
      Binding.Like L ⟨t, test.depth, test.positions⟩ ⟨u, test'.depth, test'.positions⟩ :=
    fun htu => ⟨htu, htest.depth, htest.positions⟩
  simp only [MetaTest.settle, (hbind htu).valid, htest.anything]
  split
  · exact .pure (.some (hbind htu))
  · refine .bind (h.nf htu) fun v w hvw => ?_
    rw [(hbind hvw).valid]
    split
    · exact .pure (.some (hbind hvw))
    · exact .emit (.pure .none) ..

theorem agrees {b b' c c' : Binding} (hb : b.Like L c) (hb' : b'.Like L c') (arity : Nat) :
    (b.agrees red b' arity).Related Eq (c.agrees red' c' arity) := by
  have hargs : List.Forall₂ (Term.Like L) ((List.range arity).map fun i => .bvar i none)
      ((List.range arity).map fun i => .bvar i none) := by
    refine List.forall₂_same.2 fun t ht => ?_
    obtain ⟨i, -, rfl⟩ := List.mem_map.1 ht
    exact .bvar L.unnamed
  exact h.convertible (hb.instantiate hargs arity) (hb'.instantiate hargs arity)

variable {columns columns' : List Column} (hcols : List.Forall₂ (Column.Like L) columns columns')

include hcols

theorem run {θ η : Bindings} (hθ : Bindings.Like L θ η) {test test' : MetaTest}
    (htest : test.Like L test') :
    (test.run red columns θ).Related (Option.Rel (Bindings.Like L))
      (test'.run red' columns' η) := by
  have hcol := forall₂_getElem? hcols test.column
  unfold MetaTest.run
  rw [← htest.column, ← htest.name, ← htest.args.length_eq]
  generalize columns[test.column]? = c, columns'[test.column]? = d at hcol
  cases hcol with
  | none => exact .pure .none
  | some hcol =>
      refine .bind (h.settle htest hcol.term) fun b? c? hbc => ?_
      cases hbc with
      | none => exact .pure .none
      | some hbc =>
          have hfirst := hθ.lookup test.name
          dsimp only
          generalize θ.lookup test.name = f, η.lookup test.name = g at hfirst
          cases hfirst with
          | none => exact .pure (.some (List.rel_append hθ (.cons ⟨rfl, hbc⟩ .nil)))
          | some hfirst =>
              refine .bind (h.agrees hfirst hbc _) fun a a' haa' => ?_
              subst haa'
              split
              · exact .pure (.some hθ)
              · exact .pure .none

theorem runAll {θ η : Bindings} (hθ : Bindings.Like L θ η) {tests tests' : List MetaTest}
    (htests : List.Forall₂ (MetaTest.Like L) tests tests') :
    (MetaTest.runAll red columns tests θ).Related (Option.Rel (Bindings.Like L))
      (MetaTest.runAll red' columns' tests' η) := by
  induction htests generalizing θ η with
  | nil => exact .pure (.some hθ)
  | cons htest _ ih =>
      refine .bind (h.run hcols hθ htest) fun θ? η? hθη => ?_
      cases hθη with
      | none => exact .pure .none
      | some hθη => exact ih hθη

end

mutual

theorem find (h : red.Like L red') : ∀ {tree tree' : Tree}, tree.Like L tree' →
    ∀ {columns columns' : List Column}, List.Forall₂ (Column.Like L) columns columns' →
    (tree.find red columns).Related (FoundLike L) (tree'.find red' columns')
  | _, _, .fail, _, _, _ => .pure .none
  | _, _, @Tree.Like.switch _ i bs cs _ _ hbranches hotherwise, columns, columns', hcols => by
      have hcol := forall₂_getElem? hcols i
      rw [Tree.find, Tree.find]
      generalize columns[i]? = c, columns'[i]? = d at hcol
      cases hcol with
      | none => exact .pure .none
      | some hcol =>
          refine .bind (h.column hcol) fun t u htu => .emit ?_ ..
          have hlook : Column.Like L ⟨t, true⟩ ⟨u, true⟩ := ⟨htu, rfl⟩
          have hseen := forall₂_set hcols hlook i
          have hshape := htu.shape?
          dsimp only
          generalize t.shape? = p, u.shape? = q at hshape
          cases hshape with
          | none => exact find h hotherwise hseen
          | @some p q hpq =>
              obtain ⟨shape, parts⟩ := p
              obtain ⟨shape', parts'⟩ := q
              obtain ⟨hshape, hparts⟩ := hpq
              have hbranch := findBranch h hbranches hshape
                (List.rel_append hseen (unseen_like hparts))
              dsimp only at hbranch ⊢
              generalize columns.set i ⟨t, true⟩ ++ parts.map .unseen = all,
                columns'.set i ⟨u, true⟩ ++ parts'.map .unseen = all' at hbranch
              generalize bs.find? red shape all = f, cs.find? red' shape' all' = g at hbranch
              cases hbranch with
              | none => exact find h hotherwise hseen
              | some hfound => exact hfound
  | _, _, .test hrule htests hotherwise, columns, columns', hcols => by
      rw [Tree.find, Tree.find]
      refine .bind (h.runAll hcols .nil htests) fun θ? η? hθη => ?_
      cases hθη with
      | none => exact find h hotherwise hcols
      | some hθη => exact .pure (.some ⟨hrule, hθη⟩)

theorem findBranch (h : red.Like L red') : ∀ {bs cs : Branches}, bs.Like L cs →
    ∀ {shape shape' : Shape}, shape.Like L shape' →
    ∀ {columns columns' : List Column}, List.Forall₂ (Column.Like L) columns columns' →
    Option.Rel (Traced.Related (FoundLike L)) (bs.find? red shape columns)
      (cs.find? red' shape' columns')
  | _, _, .nil, _, _, _, _, _, _ => .none
  | _, _, .cons hs htree hrest, _, _, hshape, _, _, hcols => by
      rw [Branches.find?, Branches.find?]
      simp only [hs.eq_iff hshape]
      split
      · exact .some (find h htree hcols)
      · exact findBranch h hrest hshape hcols

end

end Reducer.Like

/-! ## Signatures -/

/-- Like rules, with the same flags and like trees. -/
structure RuleSet.Like (L : Likeness) (r q : RuleSet) : Prop where
  rules : List.Forall₂ (Rule.Like L) r.rules q.rules
  constant : r.constant = q.constant
  injective : r.injective = q.injective
  trees : List.Forall₂ (fun a b => TreeCell.Like L a.get b.get) r.trees q.trees

/-- Like types, with the same flags. -/
structure Entry.Like (L : Likeness) (e f : Entry) : Prop where
  type : e.type.Like L f.type
  obligation : e.obligation = f.obligation
  proven : e.proven = f.proven

/-- The signatures say like things about corresponding symbols. -/
structure Signature.Like (L : Likeness) (σ τ : Signature) : Prop where
  entry : ∀ {s t}, L.symbol s t → Option.Rel (Entry.Like L) (σ.entry? s) (τ.entry? t)
  ruleSet : ∀ {s t}, L.symbol s t → Option.Rel (RuleSet.Like L) (σ.ruleSet? s) (τ.ruleSet? t)
  eta : σ.eta = τ.eta

theorem RuleSet.Like.treeFor? {L : Likeness} {r q : RuleSet} (h : r.Like L q) (nargs : Nat) :
    Option.Rel (fun p p' => p.1 = p'.1 ∧ TreeCell.Like L p.2 p'.2) (r.treeFor? nargs)
      (q.treeFor? nargs) := by
  unfold RuleSet.treeFor?
  rw [h.trees.length_eq]
  dsimp only
  have hcell := forall₂_getElem? h.trees (min nargs (q.trees.length - 1))
  generalize r.trees[min nargs (q.trees.length - 1)]? = c,
    q.trees[min nargs (q.trees.length - 1)]? = d at hcell
  cases hcell with
  | none => exact .none
  | some hcell => exact .some ⟨rfl, hcell⟩

namespace Signature

open Traced

variable {L : Likeness} {σ τ : Signature} {s t : Symbol}

section

variable (h : σ.Like L τ)

include h

theorem Like.typeOf? (hst : L.symbol s t) :
    Option.Rel (Term.Like L) (σ.typeOf? s) (τ.typeOf? t) := by
  have hentry := h.entry hst
  unfold Signature.typeOf?
  generalize σ.entry? s = e, τ.entry? t = f at hentry
  cases hentry with
  | none => exact .none
  | some hef => exact .some hef.type

/-- What is said about symbols without rules or flags is alike as well. -/
theorem Like.ruleSet_getD (hst : L.symbol s t) :
    ((σ.ruleSet? s).getD {}).Like L ((τ.ruleSet? t).getD {}) := by
  have hset := h.ruleSet hst
  generalize σ.ruleSet? s = r, τ.ruleSet? t = q at hset
  cases hset with
  | none => exact ⟨.nil, rfl, rfl, .nil⟩
  | some hrq => exact hrq

theorem Like.isInjective (hst : L.symbol s t) : σ.isInjective s = τ.isInjective t :=
  (h.ruleSet_getD hst).injective

theorem Like.consult (hst : L.symbol s t) (nargs : Nat) :
    (σ.consult s nargs).Related (Option.Rel (DecisionTree.Like L)) (τ.consult t nargs) := by
  have hcell : Option.Rel (fun p p' => p.1 = p'.1 ∧ TreeCell.Like L p.2 p'.2)
      (σ.treeFor? s nargs) (τ.treeFor? t nargs) := by
    have hset := h.ruleSet hst
    unfold Signature.treeFor?
    generalize σ.ruleSet? s = r, τ.ruleSet? t = q at hset
    cases hset with
    | none => exact .none
    | some hrq =>
        dsimp only
        rw [hrq.constant]
        split
        · exact .none
        · exact hrq.treeFor? nargs
  unfold Signature.consult
  generalize σ.treeFor? s nargs = p, τ.treeFor? t nargs = q at hcell
  cases hcell with
  | none => exact .pure .none
  | @some p q hpq =>
      obtain ⟨n, c⟩ := p
      obtain ⟨_, d⟩ := q
      obtain ⟨rfl, hcd⟩ := hpq
      cases hcd with
      | error => exact .emit (.pure .none) ..
      | ok htree => exact .emit (.pure htree) ..

theorem Like.fireWith {red red' : Reducer} (hred : red.Like L red') (hst : L.symbol s t)
    {as bs : List Term} (hargs : List.Forall₂ (Term.Like L) as bs) :
    (σ.fireWith red s as).Related (Option.Rel fun p q => p.1.Like L q.1 ∧ p.2 = q.2)
      (τ.fireWith red' t bs) := by
  unfold Signature.fireWith
  rw [hargs.length_eq]
  refine .bind (h.consult hst bs.length) fun tree? tree?' htree => ?_
  cases htree with
  | none => exact .pure .none
  | @some tree tree' htree =>
      have hcols : List.Forall₂ (Term.Like L) (as.take tree.arity).reverse
          (bs.take tree'.arity).reverse :=
        htree.arity ▸ List.rel_reverse (List.forall₂_take tree.arity hargs)
      refine .bind (hred.find htree.root (unseen_like hcols)) fun found found' hfound => ?_
      cases hfound with
      | none => exact .pure .none
      | some hfound =>
          exact .emit (.pure (.some ⟨hfound.1.instantiate hfound.2, hfound.1.arity⟩)) ..

/-- Symbols that correspond fire alike. -/
theorem Like.simulates : σ.Simulates L.simulation τ where
  fire hred _ _ _ _ _ hst hargs :=
    h.fireWith ⟨hred.whnf (w := ()), hred.nf (w := ()), hred.convertible (w := ())⟩ hst hargs
  isInjective := h.isInjective
  eta := h.eta

end

/-- Evaluation with one budget takes like things to like things. -/
structure EvaluationLike (L : Likeness) (σ τ : Signature) (n : Nat) : Prop where
  whnf : ∀ {t u}, t.Like L u → (σ.whnf n t).Related (Term.Like L) (τ.whnf n u)
  nf : ∀ {t u}, t.Like L u → (σ.nf n t).Related (Term.Like L) (τ.nf n u)
  convertible : ∀ {t u t' u'}, t.Like L t' → u.Like L u' →
    (σ.convertible n t u).Related Eq (τ.convertible n t' u')

theorem EvaluationLike.reducer {n : Nat} (h : EvaluationLike L σ τ n) :
    (σ.reducer n).Like L (τ.reducer n) :=
  ⟨h.whnf, h.nf, h.convertible⟩

/-- In signatures that are alike, evaluation takes like things to like things on every budget. -/
theorem Like.evaluation (h : σ.Like L τ) (n : Nat) : EvaluationLike L σ τ n := by
  have heval := h.simulates.evaluation n
  exact ⟨heval.whnf (w := ()), heval.nf (w := ()), heval.convertible (w := ())⟩

end Signature

end LambdaPi
