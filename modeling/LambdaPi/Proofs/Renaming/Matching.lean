import LambdaPi.Proofs.Dependence
import LambdaPi.Proofs.Renaming.Terms
import LambdaPi.Proofs.Simulation.Evaluation

/-!
# Matching renamed terms

A pattern is closed, so all it says about variables is about those that it binds itself, and a renaming
keeps these. Hence a decision tree finds the same rule for arguments and for renamed arguments, and
binds its meta-variables to renamed terms (`Matrix.Compiled.find_renamed`). What a meta-variable is
bound to must not depend on variables of the pattern other than its arguments; this is what keeps the
two kinds of variables apart when the binding is used (`Binding.Renamed.instantiate`).

So renaming is a simulation of every signature whose rules are regular by itself
(`Signature.Reachable.simulates_renaming`).
-/

namespace LambdaPi

/-! ## Bindings -/

/-- Bound in the same way, to a term that is renamed outside of the pattern. -/
structure Binding.Renamed (ρ : Renaming) (b b' : Binding) : Prop where
  term : (ρ.under b.depth).Rel b.term b'.term
  depth : b.depth = b'.depth
  positions : b.positions = b'.positions

namespace Binding

variable {ρ : Renaming} {b b' : Binding}

theorem uniform_assignment (b : Binding) (args : List Term) (c : Nat) :
    (b.assignment args c).Uniform := by
  intro n x y
  unfold assignment
  split
  · cases (b.positions.getD n none).bind fun i => args[i]? <;> rfl
  · rfl

theorem Renamed.valid (h : b.Renamed ρ b') : b.valid = b'.valid := by
  have hnumber : ∀ n, (decide (b.depth ≤ (ρ.under b.depth).number n)
        || (b.positions.getD ((ρ.under b.depth).number n) none).isSome)
      = (decide (b.depth ≤ n) || (b.positions.getD n none).isSome) := by
    intro n
    by_cases hn : n < b.depth
    · rw [ρ.number_under_of_lt hn]
    · obtain ⟨m, rfl⟩ := Nat.exists_eq_add_of_le' (Nat.le_of_not_lt hn)
      rw [ρ.number_under_add, decide_eq_true (Nat.le_add_left ..),
        decide_eq_true (Nat.le_add_left ..)]
      rfl
  have hrename := Term.allFree_rename (ρ.under b.depth)
    (fun x => decide (b.depth ≤ x) || (b.positions.getD x none).isSome) 0 b.term
  rw [Renaming.under_zero] at hrename
  simp only [hnumber] at hrename
  rw [Binding.valid, Binding.valid, ← h.depth, ← h.positions, ← hrename]
  exact Term.allFree_eq_of_nameless h.term _ 0

section

variable (h : b.Renamed ρ b') {as : List Term} (hb : b.MatchedBy as) (c : Nat)
  {args args' : List Term} (hlen : args.length = as.length)
  (hargs : List.Forall₂ (ρ.under c).Rel args args')

include h hb hlen hargs

/-- A variable that a binding may depend on can be replaced and renamed in either order. -/
theorem Renamed.nameless_assignment {n : Nat} (x : Option String)
    (hn : (decide (b.depth ≤ n) || (b.positions.getD n none).isSome) = true) :
    ((b.assignment args c n x).inst (ρ.under c).assignment).nameless
      = (((ρ.under b.depth).assignment n x).inst (b'.assignment args' c)).nameless := by
  rw [Renaming.assignment, Term.inst_bvar]
  rw [Bool.or_eq_true, decide_eq_true_eq] at hn
  by_cases hdepth : b.depth ≤ n
  -- a variable from outside of the pattern is renamed, before or after it is moved out
  · obtain ⟨m, rfl⟩ := Nat.exists_eq_add_of_le' hdepth
    simp only [assignment, ρ.number_under_add, ← h.depth, Nat.add_sub_cancel]
    rw [if_neg (by omega), if_neg (by omega), Term.inst_bvar, Renaming.assignment,
      ρ.number_under_add]
  -- a variable of the pattern is an argument, since the binding is valid
  · have hlt := Nat.lt_of_not_le hdepth
    obtain ⟨k, hk⟩ := Option.isSome_iff_exists.mp (hn.resolve_left hdepth)
    obtain ⟨name, hname⟩ := (localPositions_getD hb.positions n k).mp hk
    have hklt : k < args.length := by
      rw [hlen]
      exact (List.getElem?_eq_some_iff.mp hname).1
    have hrel := forall₂_getElem? hargs k
    rw [List.getElem?_eq_getElem hklt] at hrel
    simp only [assignment, ρ.number_under_of_lt hlt, ← h.depth, ← h.positions, if_pos hlt, hk,
      Option.bind_some, List.getElem?_eq_getElem hklt, Option.getD_some]
    generalize args'[k]? = a' at hrel
    cases hrel with
    | some hrel => exact hrel

/-- A renamed binding used with renamed arguments gives a renamed term. -/
theorem Renamed.instantiate : (ρ.under c).Rel (b.instantiate args c) (b'.instantiate args' c) := by
  calc ((b.instantiate args c).rename (ρ.under c)).nameless
    _ = ((b.term.inst (b.assignment args c)).rename (ρ.under c)).nameless :=
      Term.nameless_rename _ (b.nameless_instantiate args c)
    _ = ((b.term.rename (ρ.under b.depth)).inst (b'.assignment args' c)).nameless := by
      rw [Term.rename, Term.rename, Term.inst_inst, Term.inst_inst]
      exact Term.nameless_inst_congr_free
        (fun n x => h.nameless_assignment hb c hlen hargs x) hb.valid
    _ = (b'.term.inst (b'.assignment args' c)).nameless :=
      Term.nameless_inst_congr (b'.uniform_assignment args' c) (b'.uniform_assignment args' c) rfl
        h.term
    _ = (b'.instantiate args' c).nameless := (b'.nameless_instantiate args' c).symm

end

end Binding

/-- Renamed bindings of a meta-variable that occurs on the left of a rule. -/
def Rule.BindsRenamed (rule : Rule) (ρ : Renaming) (X : MetaName) (b b' : Binding) : Prop :=
  b.Renamed ρ b' ∧ ∃ as, .mvar (some X) as ∈ rule.lhs.subterms ∧ b.MatchedBy as

/-- The same meta-variables of a rule, with renamed bindings. -/
def Bindings.Renamed (ρ : Renaming) (rule : Rule) (θ θ' : Bindings) : Prop :=
  List.Forall₂ (fun p q => p.1 = q.1 ∧ rule.BindsRenamed ρ p.1 p.2 q.2) θ θ'

namespace Bindings.Renamed

variable {ρ : Renaming} {rule : Rule} {θ θ' : Bindings} (h : Bindings.Renamed ρ rule θ θ')

include h

theorem lookup (X : MetaName) :
    Option.Rel (rule.BindsRenamed ρ X) (θ.lookup X) (θ'.lookup X) :=
  forall₂_lookup h X

/-- Renamed bindings make renamed terms of a closed term. -/
theorem fill {t : Term} (harity : ∀ {X as bs}, .mvar (some X) as ∈ rule.lhs.subterms →
      .mvar (some X) bs ∈ t.subterms → as.length = bs.length) {c : Nat}
    (ht : t.allFree (fun _ => false) c = true) :
    (ρ.under c).Rel (t.fill θ c) (t.fill θ' c) := by
  induction t generalizing c with
  | kind | type | symb | joker => rfl
  | bvar n x =>
      have hn : n < c := by simpa [Term.allFree] using ht
      exact Renaming.rel_iff_sameLayer.2 (.bvar (ρ.number_under_of_lt hn).symm trivial)
  | appl f a ihf iha =>
      simp only [Term.allFree, Bool.and_eq_true] at ht
      exact Renaming.rel_iff_sameLayer.2 (.appl
        (ihf (fun hX hmem => harity hX (Term.mem_subterms_appl_left hmem _)) ht.1)
        (iha (fun hX hmem => harity hX (Term.mem_subterms_appl_right hmem _)) ht.2))
  | prod x A B ihA ihB =>
      simp only [Term.allFree, Bool.and_eq_true] at ht
      have hB := ihB (fun hX hmem => harity hX (Term.mem_subterms_prod_right hmem _ _)) ht.2
      rw [← ρ.under_under] at hB
      exact Renaming.rel_iff_sameLayer.2 (.prod trivial
        (ihA (fun hX hmem => harity hX (Term.mem_subterms_prod_left hmem _ _)) ht.1) hB)
  | abst x A t ihA iht =>
      simp only [Term.allFree, Bool.and_eq_true, Term.allFreeAnn_iff] at ht
      have hbody := iht (fun hX hmem => harity hX (Term.mem_subterms_abst_body hmem _ _)) ht.2
      rw [← ρ.under_under] at hbody
      refine Renaming.rel_iff_sameLayer.2 (.abst trivial ?_ hbody)
      cases A with
      | none => exact .none
      | some A =>
          exact .some (ihA A rfl
            (fun hX hmem => harity hX (Term.mem_subterms_abst_ann hmem _ _)) (ht.1 A rfl))
  | mvar m args ih =>
      simp only [Term.allFree, Term.allFreeArgs_iff] at ht
      have hargs : List.Forall₂ (ρ.under c).Rel (args.map (Term.fill θ c))
          (args.map (Term.fill θ' c)) := by
        rw [List.forall₂_map_left_iff, List.forall₂_map_right_iff, List.forall₂_same]
        exact fun a ha =>
          ih a ha (fun hX hmem => harity hX (Term.mem_subterms_mvar hmem ha _)) (ht a ha)
      simp only [Term.fill, Term.fillArgs_eq_map]
      cases m with
      | none => exact Renaming.rel_iff_sameLayer.2 (.mvar hargs)
      | some X =>
          have hX := h.lookup X
          simp only [Option.bind_some]
          generalize θ.lookup X = b, θ'.lookup X = b' at hX
          cases hX with
          | none => exact Renaming.rel_iff_sameLayer.2 (.mvar hargs)
          | some hX =>
              obtain ⟨hb, as, has, hmatched⟩ := hX
              have hlen := harity has (Term.mem_subterms_self _)
              exact hb.instantiate hmatched c (by rw [List.length_map, hlen]) hargs

theorem instantiate (hrule : rule.Regular) :
    ρ.Rel (rule.instantiate θ) (rule.instantiate θ') := by
  rw [rule.instantiate_eq_fill, rule.instantiate_eq_fill]
  exact h.fill hrule.rhs_arity (Term.allFree_of_closedUnder hrule.rhs_closed _)

end Bindings.Renamed

/-! ## Shapes -/

/-- The shape of a renamed term. -/
def Shape.rename (ρ : Renaming) : Shape → Shape
  | abst => abst
  | symb s nargs => symb s nargs
  | bvar n nargs => bvar (ρ.number n) nargs

theorem Shape.rename_inj {ρ : Renaming} {a b : Shape} : a.rename ρ = b.rename ρ ↔ a = b := by
  constructor
  · intro h
    cases a with
    | abst => cases b <;> cases h; rfl
    | symb s nargs => cases b <;> cases h; rfl
    | bvar n nargs =>
        cases b with
        | bvar m margs =>
            obtain ⟨hn, rfl⟩ := bvar.inj h
            rw [ρ.injective hn]
        | _ => cases h
  · exact congrArg _

theorem Shape.depthInside_eq_add (d : Nat) (shape : Shape) :
    shape.depthInside d = d + shape.depthInside 0 := by
  cases shape <;> rfl

/-- A renamed term has the renamed shape and renamed parts. -/
theorem Renaming.Rel.shape? {ρ : Renaming} {t u : Term} (h : ρ.Rel t u) :
    Option.Rel (fun p q => q.1 = p.1.rename ρ
      ∧ List.Forall₂ (ρ.under (p.1.depthInside 0)).Rel p.2 q.2) t.shape? u.shape? := by
  obtain ⟨hhead, hargs⟩ := Simulation.renaming.unapply (w := ρ) h
  unfold Term.shape?
  generalize t.unapply = p, u.unapply = q at hhead hargs
  obtain ⟨f, as⟩ := p
  obtain ⟨g, bs⟩ := q
  cases Renaming.rel_iff_sameLayer.1 h with
  | abst _ _ hbody => exact .some ⟨rfl, .cons hbody .nil⟩
  | _ =>
      dsimp only at hhead hargs ⊢
      cases Renaming.rel_iff_sameLayer.1 hhead with
      | symb hs =>
          subst hs
          dsimp only
          rw [hargs.length_eq]
          exact .some ⟨rfl, List.rel_reverse hargs⟩
      | bvar hn =>
          subst hn
          dsimp only
          rw [hargs.length_eq]
          exact .some ⟨rfl, List.rel_reverse hargs⟩
      | _ => exact .none

/-! ## Columns -/

/-- Renamed terms, looked at or not. -/
structure Column.Renamed (ρ : Renaming) (c c' : Column) : Prop where
  term : ρ.Rel c.term c'.term
  reduced : c.reduced = c'.reduced

theorem Column.Renamed.whnf {ρ : Renaming} {c c' : Column} (h : c.Renamed ρ c')
    {red red' : Reducer} (hred : Simulation.renaming.Reducers red red') :
    (c.whnf red).Related ρ.Rel (c'.whnf red') := by
  unfold Column.whnf
  rw [h.reduced]
  split
  · exact .pure h.term
  · exact hred.whnf (w := ρ) h.term

/-- Columns under the given numbers of variables of the pattern, renamed outside of it. -/
inductive ColumnsRenamed (ρ : Renaming) : List Nat → List Column → List Column → Prop
  | nil : ColumnsRenamed ρ [] [] []
  | cons {d c c' ds cs cs'} : c.Renamed (ρ.under d) c' → ColumnsRenamed ρ ds cs cs' →
      ColumnsRenamed ρ (d :: ds) (c :: cs) (c' :: cs')

namespace ColumnsRenamed

variable {ρ : Renaming} {ds es : List Nat} {cs cs' bs bs' : List Column}

theorem getElem? (h : ColumnsRenamed ρ ds cs cs') {i d : Nat} (hd : ds[i]? = some d) :
    ∃ c c', cs[i]? = some c ∧ cs'[i]? = some c' ∧ c.Renamed (ρ.under d) c' := by
  induction h generalizing i with
  | nil => cases hd
  | cons hc _ ih =>
      cases i with
      | zero =>
          obtain rfl := Option.some.inj hd
          exact ⟨_, _, rfl, rfl, hc⟩
      | succ i => exact ih hd

theorem set (h : ColumnsRenamed ρ ds cs cs') {i d : Nat} (hd : ds[i]? = some d) {c c' : Column}
    (hc : c.Renamed (ρ.under d) c') : ColumnsRenamed ρ ds (cs.set i c) (cs'.set i c') := by
  induction h generalizing i with
  | nil => cases hd
  | cons hold hrest ih =>
      cases i with
      | zero =>
          obtain rfl := Option.some.inj hd
          exact .cons hc hrest
      | succ i => exact .cons hold (ih hd)

theorem append (h : ColumnsRenamed ρ ds cs cs') (h' : ColumnsRenamed ρ es bs bs') :
    ColumnsRenamed ρ (ds ++ es) (cs ++ bs) (cs' ++ bs') := by
  induction h with
  | nil => exact h'
  | cons hc _ ih => exact .cons hc ih

theorem unseen {d : Nat} {ts us : List Term} (h : List.Forall₂ (ρ.under d).Rel ts us) :
    ColumnsRenamed ρ (List.replicate ts.length d) (ts.map .unseen) (us.map .unseen) := by
  induction h with
  | nil => exact .nil
  | cons htu _ ih => exact .cons ⟨htu, rfl⟩ ih

end ColumnsRenamed

/-! ## Rows of regular rules -/

/-- A part of the left-hand side that stands under `d` variables of the pattern: it has no others, and
its meta-variables are those of the rule. -/
structure Rule.HasPattern (rule : Rule) (d : Nat) (p : Term) : Prop where
  closed : p.allFree (fun _ => false) d = true
  metas : ∀ {X as}, .mvar (some X) as ∈ p.subterms → .mvar (some X) as ∈ rule.lhs.subterms

/-- The patterns that are left of a regular rule. -/
structure Row.Regular (ds : List Nat) (row : Row) : Prop where
  rule : row.rule.Regular
  patterns : List.Forall₂ row.rule.HasPattern ds row.columns

namespace Rule.HasPattern

variable {rule : Rule} {d : Nat} {p : Term} {shape : Shape} {parts : List Term}

theorem joker (rule : Rule) (d : Nat) : rule.HasPattern d .joker where
  closed := rfl
  metas h := by cases List.mem_singleton.mp h

theorem of_args (h : rule.Regular) (hp : p ∈ rule.args) : rule.HasPattern 0 p := by
  have hlhs := Term.allFree_of_closedUnder h.lhs_closed fun _ => false
  exact ⟨(Term.allFree_apply.mp hlhs).2 p hp, fun hX => Term.mem_subterms_apply hX hp _⟩

theorem of_mem_parts (h : rule.HasPattern d p) (hp : p.shape? = some (shape, parts)) :
    ∀ q ∈ parts, rule.HasPattern (shape.depthInside d) q := by
  have hspine : ∀ {head args}, p.unapply = (head, args) →
      ∀ q ∈ args.reverse, rule.HasPattern d q := by
    intro head args hargs q hq
    have hmem := List.mem_reverse.mp hq
    have hclosed := h.closed
    rw [Term.eq_apply_of_unapply hargs, Term.allFree_apply] at hclosed
    exact ⟨hclosed.2 q hmem, fun hX => h.metas (Term.mem_subterms_of_unapply hargs hmem hX)⟩
  rcases Term.shape?_cases hp with ⟨x, A, body, rfl, rfl, rfl⟩ | ⟨s, args, hargs, rfl, rfl⟩
    | ⟨n, x, args, hargs, rfl, rfl⟩
  · intro q hq
    obtain rfl := List.mem_singleton.mp hq
    have hclosed := h.closed
    simp only [Term.allFree, Bool.and_eq_true] at hclosed
    exact ⟨hclosed.2, fun hX => h.metas (Term.mem_subterms_abst_body hX _ _)⟩
  · exact hspine hargs
  · exact hspine hargs

/-- What a pattern asks for is not renamed. -/
theorem rename_shape (h : rule.HasPattern d p) (hp : p.shape? = some (shape, parts))
    (ρ : Renaming) : shape.rename (ρ.under d) = shape := by
  rcases Term.shape?_cases hp with ⟨x, A, body, -, rfl, -⟩ | ⟨s, args, -, rfl, -⟩
    | ⟨n, x, args, hargs, rfl, -⟩
  · rfl
  · rfl
  · have hclosed := h.closed
    rw [Term.eq_apply_of_unapply hargs, Term.allFree_apply] at hclosed
    have hn : n < d := by simpa [Term.allFree] using hclosed.1
    rw [Shape.rename, ρ.number_under_of_lt hn]

end Rule.HasPattern

namespace Row.Regular

variable {row row' : Row} {ds : List Nat} {j d : Nat} {shape : Shape}

theorem pattern (h : row.Regular ds) (hd : ds[j]? = some d) :
    row.rule.HasPattern d (row.pattern j) := by
  have hj := forall₂_getElem? h.patterns j
  rw [hd] at hj
  rw [Row.pattern, List.getD_eq_getElem?_getD]
  generalize row.columns[j]? = p at hj
  cases hj with
  | some hp => exact hp

theorem specialize (h : row.Regular ds) (hd : ds[j]? = some d)
    (hspec : row.specialize j shape = some row') :
    row'.Regular (ds ++ List.replicate shape.width (shape.depthInside d)) := by
  obtain ⟨hrule, ⟨-, hcols⟩ | ⟨parts, hparts, hcols⟩⟩ := specialize_cases hspec
  · refine ⟨hrule ▸ h.rule, ?_⟩
    rw [hcols, hrule]
    exact List.rel_append h.patterns (forall₂_replicate (.joker row.rule _) shape.width)
  · refine ⟨hrule ▸ h.rule, ?_⟩
    rw [hcols, hrule]
    have hnew := forall₂_replicate_left ((h.pattern hd).of_mem_parts hparts)
    have hold := forall₂_set h.patterns (.joker row.rule d) j
    have hsame : ds.set j d = ds := by
      obtain ⟨hlt, rfl⟩ := List.getElem?_eq_some_iff.mp hd
      exact List.set_getElem_self hlt
    rw [Term.length_of_shape? hparts] at hnew
    rw [hsame] at hold
    exact List.rel_append hold hnew

/-- The meta-variables of a row are bound where they stand. -/
theorem binds (h : row.Regular ds) {tests : List MetaTest}
    (htests : Row.metaTests 0 row.columns ds = .ok tests) :
    ∀ test ∈ tests, test.Binds ∧ ds[test.column]? = some test.depth
      ∧ .mvar (some test.name) test.args ∈ row.rule.lhs.subterms := by
  intro test htest
  obtain ⟨hlocal, hany, k, hk, hdepth, hcol⟩ := Row.mem_metaTests htests htest
  rw [Nat.zero_add] at hk
  rw [← hk] at hdepth hcol
  have hpattern := h.pattern hdepth
  rw [Row.pattern, List.getD_eq_getElem?_getD, hcol] at hpattern
  exact ⟨⟨hlocal, hany⟩, hdepth, hpattern.metas (Term.mem_subterms_self _)⟩

end Row.Regular

/-- All rows come from regular rules. -/
def Matrix.Regular (m : Matrix) : Prop :=
  ∀ row ∈ m.rows, row.Regular m.depths

namespace Matrix.Regular

variable {m : Matrix} {j : Nat} (h : m.Regular)

include h

theorem tail {first : Row} {rest : List Row} (hrows : m.rows = first :: rest) :
    Matrix.Regular { m with rows := rest } :=
  fun row hrow => h row (hrows ▸ List.mem_cons_of_mem _ hrow)

theorem others (j : Nat) : (m.others j).Regular :=
  fun row hrow => h row (List.mem_filter.mp hrow).1

theorem specialize (hd : m.depths[j]? = some (m.depths.getD j 0)) (shape : Shape) :
    (m.specialize j shape).Regular := by
  intro row' hrow'
  obtain ⟨row, hrow, hspec⟩ := List.mem_filterMap.mp hrow'
  exact (h row hrow).specialize hd hspec

theorem aligned : m.Aligned :=
  fun row hrow => (h row hrow).patterns.length_eq

/-- The shapes that a column is asked for are not renamed. -/
theorem rename_shape (hd : m.depths[j]? = some (m.depths.getD j 0)) {shape : Shape}
    (hshape : shape ∈ shapes j m.rows) (ρ : Renaming) :
    shape.rename (ρ.under (m.depths.getD j 0)) = shape := by
  obtain ⟨row, hrow, parts, hparts⟩ := of_mem_shapes hshape
  exact ((h row hrow).pattern hd).rename_shape hparts ρ

end Matrix.Regular

theorem DecisionTree.regular_rowOf {rule : Rule} (h : rule.Regular) {arity : Nat}
    (harity : rule.arity ≤ arity) : (rowOf arity rule).Regular (List.replicate arity 0) := by
  have hlen : (rowOf arity rule).columns.length = arity := by
    simp only [rowOf, List.length_replicate, List.length_append, List.length_reverse, Rule.arity]
      at harity ⊢
    omega
  refine ⟨h, ?_⟩
  have hpatterns : ∀ p ∈ (rowOf arity rule).columns, rule.HasPattern 0 p := by
    intro p hp
    rcases List.mem_append.mp hp with hp | hp
    · rw [List.eq_of_mem_replicate hp]
      exact .joker rule 0
    · exact .of_args h (List.mem_reverse.mp hp)
  have hall := forall₂_replicate_left hpatterns
  rwa [hlen] at hall

/-! ## Tests -/

namespace MetaTest

variable {red red' : Reducer} (hred : Simulation.renaming.Reducers red red') {ρ : Renaming}

include hred

theorem settle_renamed {test : MetaTest} (htest : test.Binds) {t u : Term}
    (htu : (ρ.under test.depth).Rel t u) :
    (test.settle red t).Related
      (Option.Rel fun b b' => b.Renamed ρ b' ∧ b.MatchedBy test.args) (test.settle red' u) := by
  have hbind : ∀ {t u : Term}, (ρ.under test.depth).Rel t u →
      Binding.Renamed ρ ⟨t, test.depth, test.positions⟩ ⟨u, test.depth, test.positions⟩ :=
    fun htu => ⟨htu, rfl, rfl⟩
  simp only [settle, (hbind htu).valid]
  split
  · next hok =>
    refine .pure (.some ⟨hbind htu, htest.1, ?_⟩)
    rcases Bool.or_eq_true_iff.mp hok with hany | hvalid
    · rw [Binding.valid_eq_usesOnly htest.1]
      exact usesOnly_of_isIdentity (htest.2 ▸ hany) t
    · rwa [(hbind htu).valid]
  · refine .bind (hred.nf (w := ρ.under test.depth) htu) fun v v' hv => ?_
    rw [(hbind hv).valid]
    split
    · next hvalid => exact .pure (.some ⟨hbind hv, htest.1, by rwa [(hbind hv).valid]⟩)
    · exact .emit (.pure .none) ..

end MetaTest

theorem Binding.agrees_renamed {red red' : Reducer}
    (hred : Simulation.renaming.Reducers red red') {ρ : Renaming} {a a' b b' : Binding}
    (ha : a.Renamed ρ a') (hb : b.Renamed ρ b') {as bs : List Term} (has : a.MatchedBy as)
    (hbs : b.MatchedBy bs) (hlen : as.length = bs.length) :
    (a.agrees red b bs.length).Related Eq (a'.agrees red' b' bs.length) := by
  have hargs : List.Forall₂ (ρ.under bs.length).Rel (newVariables bs.length)
      (newVariables bs.length) := by
    refine List.forall₂_same.2 fun t ht => ?_
    obtain ⟨i, hi, rfl⟩ := List.mem_map.1 ht
    have hnumber := ρ.number_under_of_lt (List.mem_range.1 hi)
    exact Renaming.rel_iff_sameLayer.2 (.bvar hnumber.symm trivial)
  have hnew : (newVariables bs.length).length = bs.length := by simp [newVariables]
  exact hred.convertible (w := ρ.under bs.length)
    (ha.instantiate has bs.length (hnew.trans hlen.symm) hargs)
    (hb.instantiate hbs bs.length hnew hargs)

namespace MetaTest

variable {red red' : Reducer} (hred : Simulation.renaming.Reducers red red') {ρ : Renaming}
  {rule : Rule} (hrule : rule.Regular) {ds : List Nat} {columns columns' : List Column}
  (hcols : ColumnsRenamed ρ ds columns columns')

include hred hrule hcols

theorem run_renamed {test : MetaTest} (htest : test.Binds)
    (hdepth : ds[test.column]? = some test.depth)
    (hocc : .mvar (some test.name) test.args ∈ rule.lhs.subterms) {θ θ' : Bindings}
    (hθ : Bindings.Renamed ρ rule θ θ') :
    (test.run red columns θ).Related (Option.Rel (Bindings.Renamed ρ rule))
      (test.run red' columns' θ') := by
  obtain ⟨c, c', hc, hc', hcc'⟩ := hcols.getElem? hdepth
  simp only [run, hc, hc']
  refine .bind (settle_renamed hred htest hcc'.term) fun b? b?' hb => ?_
  cases hb with
  | none => exact .pure .none
  | some hb =>
      have hfirst := hθ.lookup test.name
      dsimp only
      generalize θ.lookup test.name = f, θ'.lookup test.name = f' at hfirst
      cases hfirst with
      | none =>
          refine .pure (.some (List.rel_append hθ (.cons ⟨rfl, hb.1, ?_⟩ .nil)))
          exact ⟨test.args, hocc, hb.2⟩
      | some hfirst =>
          obtain ⟨hfirst, as, has, hmatched⟩ := hfirst
          have hlen := hrule.lhs_arity has hocc
          refine .bind (Binding.agrees_renamed hred hfirst hb.1 hmatched hb.2 hlen)
            fun a a' haa' => ?_
          subst haa'
          split
          · exact .pure (.some hθ)
          · exact .pure .none

theorem runAll_renamed {tests : List MetaTest}
    (htests : ∀ test ∈ tests, test.Binds ∧ ds[test.column]? = some test.depth
      ∧ .mvar (some test.name) test.args ∈ rule.lhs.subterms) {θ θ' : Bindings}
    (hθ : Bindings.Renamed ρ rule θ θ') :
    (runAll red columns tests θ).Related (Option.Rel (Bindings.Renamed ρ rule))
      (runAll red' columns' tests θ') := by
  induction tests generalizing θ θ' with
  | nil => exact .pure (.some hθ)
  | cons test tests ih =>
      obtain ⟨⟨hbinds, hdepth, hocc⟩, htests⟩ := List.forall_mem_cons.mp htests
      refine .bind (run_renamed hred hrule hcols hbinds hdepth hocc hθ) fun θ₁ θ₁' hθ₁ => ?_
      cases hθ₁ with
      | none => exact .pure .none
      | some hθ₁ => exact ih htests hθ₁

end MetaTest

/-! ## The search -/

namespace Branches

/-- Every branch satisfies the condition. -/
def Each (P : Shape → Tree → Prop) : Branches → Prop
  | .nil => True
  | .cons shape tree rest => P shape tree ∧ rest.Each P

theorem each_insert {P : Shape → Tree → Prop} {shape : Shape} {tree : Tree} (h : P shape tree) :
    ∀ {branches : Branches}, branches.Each P → (branches.insert shape tree).Each P
  | .nil, hall => ⟨h, hall⟩
  | .cons s t rest, hall => by
      rw [insert]
      split
      · exact ⟨h, hall⟩
      · exact ⟨hall.1, each_insert h hall.2⟩

theorem each_ofList {P : Shape → Tree → Prop} {branches : List (Shape × Tree)}
    (h : ∀ shape tree, (shape, tree) ∈ branches → P shape tree) : (ofList branches).Each P := by
  induction branches with
  | nil => trivial
  | cons b branches ih =>
      have hrest := ih fun shape tree hmem => h shape tree (List.mem_cons_of_mem _ hmem)
      exact each_insert (h b.1 b.2 (List.mem_cons_self ..)) hrest

/-- Branches for which two shapes are the same are searched in the same way for both. -/
theorem find?_rel {red red' : Reducer} {shape shape' : Shape} {columns columns' : List Column}
    {R : Traced (Option (Rule × Bindings)) → Traced (Option (Rule × Bindings)) → Prop} :
    ∀ {branches : Branches}, branches.Each (fun s tree => (s = shape ↔ s = shape')
      ∧ (s = shape → R (tree.find red columns) (tree.find red' columns'))) →
    Option.Rel R (branches.find? red shape columns) (branches.find? red' shape' columns')
  | .nil, _ => .none
  | .cons s tree rest, hall => by
      rw [find?, find?]
      simp only [← hall.1.1]
      split
      · next hs => exact .some (hall.1.2 hs)
      · exact find?_rel hall.2

end Branches

/-- Answers of a search: the same regular rule, with renamed bindings. -/
abbrev FoundRenamed (ρ : Renaming) : Option (Rule × Bindings) → Option (Rule × Bindings) → Prop :=
  Option.Rel fun p q => p.1 = q.1 ∧ p.1.Regular ∧ Bindings.Renamed ρ p.1 p.2 q.2

/-- The tree of regular rules finds the same rule for renamed columns. -/
theorem Matrix.Compiled.find_renamed {m : Matrix} {tree : Tree} (h : m.Compiled tree)
    (hm : m.Regular) {red red' : Reducer} (hred : Simulation.renaming.Reducers red red')
    {ρ : Renaming} {columns columns' : List Column}
    (hcols : ColumnsRenamed ρ m.depths columns columns') :
    (tree.find red columns).Related (FoundRenamed ρ) (tree.find red' columns') := by
  induction h generalizing columns columns' with
  | fail =>
      rw [Tree.find, Tree.find]
      exact .pure .none
  | @test m first rest tests otherwise hrows hrigid htests _ ih =>
      have hfirst := hm first (hrows ▸ List.mem_cons_self ..)
      have hbinds := hfirst.binds htests
      rw [Tree.find, Tree.find]
      refine .bind (MetaTest.runAll_renamed hred hfirst.rule hcols hbinds .nil) fun θ θ' hθ => ?_
      cases hθ with
      | some hθ => exact .pure (.some ⟨rfl, hfirst.rule, hθ⟩)
      | none => exact ih (hm.tail hrows) hcols
  | @switch m first rest j branches otherwise hrows hj hcheck hshapes _ _ ihshape ihother =>
      have hd := hm.aligned.getElem?_depths (hrows ▸ List.mem_cons_self ..)
        (Row.lt_of_firstRigid? hj)
      obtain ⟨c, c', hc, hc', hcc'⟩ := hcols.getElem? hd
      rw [Tree.find, Tree.find, hc, hc']
      refine .bind (hcc'.whnf hred) fun t u htu => .emit ?_ ..
      have hlook : Column.Renamed (ρ.under (m.depths.getD j 0)) ⟨t, true⟩ ⟨u, true⟩ := ⟨htu, rfl⟩
      have hseen := hcols.set hd hlook
      have hdefault := ihother (hm.others j) hseen
      have hshape := htu.shape?
      dsimp only
      generalize ht : t.shape? = p, u.shape? = q at hshape
      cases hshape with
      | none => exact hdefault
      | @some p q hpq =>
          obtain ⟨shape, parts⟩ := p
          obtain ⟨_, parts'⟩ := q
          obtain ⟨rfl, hparts⟩ := hpq
          dsimp only at hparts ⊢
          rw [ρ.under_under, ← Shape.depthInside_eq_add] at hparts
          have hall := hseen.append (.unseen hparts)
          rw [Term.length_of_shape? ht] at hall
          -- a branch is for a shape that is not renamed, so it is taken for both terms or for none
          have hbranch : (Branches.ofList branches).Each fun s tree =>
              (s = shape ↔ s = shape.rename (ρ.under (m.depths.getD j 0)))
                ∧ (s = shape → Traced.Related (FoundRenamed ρ)
                  (tree.find red (columns.set j ⟨t, true⟩ ++ parts.map .unseen))
                  (tree.find red' (columns'.set j ⟨u, true⟩ ++ parts'.map .unseen))) := by
            refine Branches.each_ofList fun s tree hmem => ⟨?_, ?_⟩
            · have hs := hm.rename_shape hd ((hshapes s).mpr ⟨tree, hmem⟩) ρ
              rw [← Shape.rename_inj (ρ := ρ.under (m.depths.getD j 0)), hs]
            · rintro rfl
              exact ihshape s tree hmem (hm.specialize hd s) hall
          have hfound := Branches.find?_rel hbranch
          generalize (Branches.ofList branches).find? red shape
              (columns.set j ⟨t, true⟩ ++ parts.map .unseen) = f,
            (Branches.ofList branches).find? red' (shape.rename (ρ.under (m.depths.getD j 0)))
              (columns'.set j ⟨u, true⟩ ++ parts'.map .unseen) = f' at hfound
          cases hfound with
          | none => exact hdefault
          | some hfound => exact hfound

/-! ## Firing -/

namespace Signature

variable {P : Rule → Prop} {σ : Signature}

theorem Reachable.fireWith_renamed (hσ : σ.Reachable P) (hP : ∀ rule, P rule → rule.Regular)
    {red red' : Reducer} (hred : Simulation.renaming.Reducers red red') {ρ : Renaming}
    (s : Symbol) {as bs : List Term} (hargs : List.Forall₂ ρ.Rel as bs) :
    (σ.fireWith red s as).Related (Simulation.renaming.Fired ρ) (σ.fireWith red' s bs) := by
  unfold Signature.fireWith
  rw [hargs.length_eq]
  refine .bind (.same _) ?_
  rintro tree? _ ⟨rfl, htree⟩
  cases tree? with
  | none => exact .pure .none
  | some tree =>
      obtain ⟨harity, -, hcompiled⟩ := hσ.consult_some htree
      have hmatrix : (DecisionTree.matrixOf ((σ.rulesOf s).filter (·.arity ≤ tree.arity))
          tree.arity).Regular := by
        intro row hrow
        obtain ⟨rule, hrule, rfl⟩ := List.mem_map.mp hrow
        obtain ⟨hmem, hle⟩ := List.mem_filter.mp hrule
        have hregular := hP rule ((hσ.coherent s).holds rule hmem)
        exact DecisionTree.regular_rowOf hregular (of_decide_eq_true hle)
      have hcols := ColumnsRenamed.unseen (d := 0)
        (List.rel_reverse (List.forall₂_take tree.arity hargs))
      rw [List.length_reverse, List.length_take, hargs.length_eq, Nat.min_eq_left harity] at hcols
      refine .bind (hcompiled.find_renamed hmatrix hred hcols) fun found found' hfound => ?_
      cases hfound with
      | none => exact .pure .none
      | @some p q hpq =>
          obtain ⟨rule, θ⟩ := p
          obtain ⟨_, θ'⟩ := q
          obtain ⟨rfl, hrule, hθ⟩ := hpq
          exact .emit (.pure (.some ⟨hθ.instantiate hrule, rfl⟩)) ..

/-- A signature treats renamed terms as it treats the terms. -/
theorem Reachable.simulates_renaming (hσ : σ.Reachable P) (hP : ∀ rule, P rule → rule.Regular) :
    σ.Simulates Simulation.renaming σ where
  fire := by
    rintro red red' hred ρ s _ as bs rfl hargs
    exact hσ.fireWith_renamed hP hred s hargs
  isInjective := by
    rintro s _ rfl
    rfl
  eta := rfl

end Signature

end LambdaPi
