import LambdaPi.Proofs.ReductionWithin

/-!
# The budget does not matter

A larger budget gives the answers of a smaller one, and more. So what a term reduces to does not
depend on the budget: `Signature.Whnf` and `Signature.Nf` relate a term to its weak head normal form
and its normal form on some budget, and both are functional. A weak head normal form is its own weak
head normal form, and a term and its weak head normal form have the same normal form.
-/

namespace LambdaPi

/-! ## Answers that remain -/

namespace Traced

variable {α β : Type}

/-- If the first computation has a value, the second one has the same. -/
def Below (x y : Traced α) : Prop :=
  ∀ a, x.value = some a → y.value = some a

theorem Below.refl (x : Traced α) : x.Below x :=
  fun _ => id

theorem Below.exhausted (x : Traced α) : (Traced.exhausted : Traced α).Below x :=
  nofun

theorem Below.bind {x x' : Traced α} {f f' : α → Traced β} (hx : x.Below x')
    (hf : ∀ a, (f a).Below (f' a)) : (x >>= f).Below (x' >>= f') := by
  intro b h
  rw [value_bind] at h ⊢
  obtain ⟨a, ha, h⟩ := Option.bind_eq_some_iff.mp h
  rw [hx a ha]
  exact hf a b h

theorem Below.mapM {f f' : α → Traced β} (hf : ∀ a, (f a).Below (f' a)) (as : List α) :
    (as.mapM f).Below (as.mapM f') := by
  intro bs h
  rw [value_mapM] at h ⊢
  induction as generalizing bs with
  | nil => exact h
  | cons a as ih =>
      rw [List.mapM_cons] at h ⊢
      obtain ⟨b, hb, h⟩ := Option.bind_eq_some_iff.mp h
      obtain ⟨bs', hbs, h⟩ := Option.bind_eq_some_iff.mp h
      rw [hf a b hb, ih bs' hbs]
      exact h

end Traced

/-! ## Matching -/

/-- Each answer of the first reducer is one of the second. -/
structure Reducer.Below (red red' : Reducer) : Prop where
  whnf : ∀ t, (red.whnf t).Below (red'.whnf t)
  nf : ∀ t, (red.nf t).Below (red'.nf t)
  convertible : ∀ t u, (red.convertible t u).Below (red'.convertible t u)

namespace Reducer.Below

variable {red red' : Reducer}

section

variable (h : red.Below red')

include h

theorem column (c : Column) : (c.whnf red).Below (c.whnf red') := by
  unfold Column.whnf
  split
  · exact .refl _
  · exact h.whnf c.term

theorem settle (test : MetaTest) (t : Term) : (test.settle red t).Below (test.settle red' t) := by
  simp only [MetaTest.settle]
  split
  · exact .refl _
  · exact .bind (h.nf t) fun _ => .refl _

theorem run (columns : List Column) (θ : Bindings) (test : MetaTest) :
    (test.run red columns θ).Below (test.run red' columns θ) := by
  unfold MetaTest.run
  split
  · exact .refl _
  · refine .bind (h.settle test _) fun b? => ?_
    split
    · exact .refl _
    · split
      · exact .refl _
      · exact .bind (h.convertible _ _) fun _ => .refl _

theorem runAll (columns : List Column) (tests : List MetaTest) (θ : Bindings) :
    (MetaTest.runAll red columns tests θ).Below (MetaTest.runAll red' columns tests θ) := by
  induction tests generalizing θ with
  | nil => exact .refl _
  | cons test tests ih =>
      refine .bind (h.run columns θ test) fun θ? => ?_
      split
      · exact .refl _
      · exact ih _

end

mutual

theorem find (h : red.Below red') : ∀ (tree : Tree) (columns : List Column),
    (tree.find red columns).Below (tree.find red' columns)
  | .fail, columns => .refl _
  | .switch i branches otherwise, columns => by
      rw [Tree.find, Tree.find]
      split
      · exact .refl _
      · next c _ =>
        refine .bind (h.column c) fun t => .bind (.refl _) fun _ => ?_
        dsimp only
        split
        · exact find h otherwise _
        · next shape parts _ =>
          have hbranch := findBranch h shape branches (columns.set i ⟨t, true⟩ ++ parts.map .unseen)
          split
          · next found hfound =>
            obtain ⟨found', hfound', hbelow⟩ := hbranch.1 found hfound
            rw [hfound']
            exact hbelow
          · next hnone =>
            rw [hbranch.2 hnone]
            exact find h otherwise _
  | .test rule tests otherwise, columns => by
      rw [Tree.find, Tree.find]
      refine .bind (h.runAll columns tests []) fun θ? => ?_
      split
      · exact .refl _
      · exact find h otherwise columns

theorem findBranch (h : red.Below red') (shape : Shape) :
    ∀ (branches : Branches) (columns : List Column),
    (∀ found, branches.find? red shape columns = some found →
      ∃ found', branches.find? red' shape columns = some found' ∧ found.Below found')
    ∧ (branches.find? red shape columns = none → branches.find? red' shape columns = none)
  | .nil, columns => ⟨nofun, fun _ => rfl⟩
  | .cons s tree rest, columns => by
      rw [Branches.find?, Branches.find?]
      split
      · refine ⟨fun found hfound => ⟨_, rfl, ?_⟩, nofun⟩
        obtain rfl := Option.some.inj hfound
        exact find h tree columns
      · exact findBranch h shape rest columns

end

end Reducer.Below

/-! ## Reduction -/

namespace Signature

variable {σ : Signature}

theorem headStep?_below {red red' : Reducer} (h : red.Below red') (head : Term)
    (args : List Term) : (σ.headStep? red head args).Below (σ.headStep? red' head args) := by
  unfold headStep?
  refine .bind (.refl _) fun _ => ?_
  split
  · exact .refl _
  · exact .refl _
  · next s =>
    refine .bind ?_ fun _ => .refl _
    refine .bind (.refl _) fun tree? => ?_
    split
    · exact .refl _
    · next tree => exact .bind (h.find tree.root _) fun _ => .refl _
  · exact .refl _

theorem whnfBy_below {spine? spine?' : Term → List Term → Traced (Option Term)}
    (h : ∀ head args, (spine? head args).Below (spine?' head args)) (t : Term) :
    (whnfBy spine? t).Below (whnfBy spine?' t) :=
  .bind (h _ _) fun _ => .refl _

theorem mapParts_below {f f' : Term → Traced Term} (h : ∀ t, (f t).Below (f' t)) (t : Term) :
    (mapParts f t).Below (mapParts f' t) := by
  unfold mapParts
  split
  · exact .bind (h _) fun _ => .bind (h _) fun _ => .refl _
  · exact .bind (h _) fun _ => .refl _
  · exact .bind (h _) fun _ => .bind (h _) fun _ => .refl _
  · exact .bind (.mapM h _) fun _ => .refl _
  · exact .refl _

/-- A larger budget keeps every answer. -/
theorem budget_below {n m : Nat} (hnm : n ≤ m) :
    (∀ head args, (σ.spine? n head args).Below (σ.spine? m head args))
      ∧ (∀ t, (σ.nf n t).Below (σ.nf m t)) ∧ ∀ cs, (σ.agree n cs).Below (σ.agree m cs) := by
  induction n generalizing m with
  | zero =>
      refine ⟨fun head args => ?_, fun t => ?_, fun cs => ?_⟩
      · rw [spine?]; exact .exhausted _
      · rw [nf]; exact .exhausted _
      · rw [agree]; exact .exhausted _
  | succ n ih =>
      obtain ⟨m, rfl⟩ : ∃ m', m = m' + 1 := ⟨m - 1, by omega⟩
      obtain ⟨hspine, hnf, hagree⟩ := ih (Nat.le_of_succ_le_succ hnm)
      have hwhnf := whnfBy_below hspine
      refine ⟨fun head args => ?_, fun t => ?_, fun cs => ?_⟩
      · rw [spine?, spine?]
        refine .bind (headStep?_below ⟨hwhnf, hnf, fun t u => hagree _⟩ head args) fun step => ?_
        split
        · exact .refl _
        · exact .bind (hspine _ _) fun _ => .refl _
      · rw [nf, nf]
        exact .bind (hwhnf t) fun u => .bind (mapParts_below hnf _) fun _ =>
          .bind (.mapM hnf _) fun _ => .refl _
      · cases cs with
        | nil => rw [agree, agree]; exact .refl _
        | cons c rest =>
            rw [agree, agree]
            refine .bind (.refl _) fun _ => ?_
            split
            · exact hagree rest
            · split
              · exact hagree _
              · refine .bind (hwhnf _) fun t => .bind (hwhnf _) fun u => ?_
                split
                · exact hagree _
                · exact .refl _

theorem whnf_below {n m : Nat} (hnm : n ≤ m) (t : Term) : (σ.whnf n t).Below (σ.whnf m t) :=
  whnfBy_below (budget_below hnm).1 t

/-! ## Normal forms -/

/-- The second term is the weak head normal form of the first. -/
def Whnf (σ : Signature) (t u : Term) : Prop :=
  ∃ budget, (σ.whnf budget t).value = some u

/-- The second term is the normal form of the first. -/
def Nf (σ : Signature) (t u : Term) : Prop :=
  ∃ budget, (σ.nf budget t).value = some u

theorem Whnf.unique {t u v : Term} (hu : σ.Whnf t u) (hv : σ.Whnf t v) : u = v := by
  obtain ⟨n, hn⟩ := hu
  obtain ⟨m, hm⟩ := hv
  have hn' := whnf_below (Nat.le_max_left n m) t u hn
  have hm' := whnf_below (Nat.le_max_right n m) t v hm
  exact Option.some.inj (hn'.symm.trans hm')

theorem Nf.unique {t u v : Term} (hu : σ.Nf t u) (hv : σ.Nf t v) : u = v := by
  obtain ⟨n, hn⟩ := hu
  obtain ⟨m, hm⟩ := hv
  have hn' := (budget_below (Nat.le_max_left n m)).2.1 t u hn
  have hm' := (budget_below (Nat.le_max_right n m)).2.1 t v hm
  exact Option.some.inj (hn'.symm.trans hm')

/-- A head that cannot make a step is not an application. -/
theorem isAppl_of_spine?_none {n : Nat} {head : Term} {args : List Term}
    (h : (σ.spine? n head args).value = some none) : head.isAppl = false := by
  cases n with
  | zero => rw [spine?] at h; cases h
  | succ n =>
      cases head with
      | appl f a =>
          simp only [spine?, headStep?, Traced.value_bind, Traced.value_emit, Option.bind_some,
            Traced.value_pure] at h
          obtain ⟨_, -, h⟩ := Option.bind_eq_some_iff.mp h
          cases h
      | _ => rfl

/-- What reduction ends with cannot make a step. -/
theorem spine?_stuck {n : Nat} {head u : Term} {args : List Term}
    (h : (σ.spine? n head args).value = some (some u)) :
    ∃ m, (σ.spine? m u.unapply.1 u.unapply.2).value = some none := by
  induction n generalizing head args with
  | zero => rw [spine?] at h; cases h
  | succ n ih =>
      rw [spine?, Traced.value_bind] at h
      obtain ⟨step, -, h⟩ := Option.bind_eq_some_iff.mp h
      cases step with
      | none => cases h
      | some next =>
          obtain ⟨head', args'⟩ := next
          simp only [Traced.value_bind, Traced.value_pure] at h
          obtain ⟨rest?, hrest, h⟩ := Option.bind_eq_some_iff.mp h
          obtain rfl := Option.some.inj (Option.some.inj h)
          cases rest? with
          | some rest => exact ih hrest
          | none =>
              refine ⟨n, ?_⟩
              rw [Option.getD_none, Term.unapply_apply (isAppl_of_spine?_none hrest)]
              exact hrest

theorem Whnf.fixed {t u : Term} (h : σ.Whnf t u) : σ.Whnf u u := by
  obtain ⟨n, h⟩ := h
  simp only [whnf, whnfBy, Traced.value_bind, Traced.value_pure] at h
  obtain ⟨u?, hu, h⟩ := Option.bind_eq_some_iff.mp h
  obtain rfl := Option.some.inj h
  obtain ⟨m, hm⟩ : ∃ m, (σ.spine? m (u?.getD t).unapply.1 (u?.getD t).unapply.2).value
      = some none := by
    cases u? with
    | none => exact ⟨n, hu⟩
    | some u => exact spine?_stuck hu
  refine ⟨m, ?_⟩
  simp only [whnf, whnfBy, Traced.value_bind, hm]
  rfl

/-- A term and its weak head normal form have the same normal form. -/
theorem Whnf.nf_iff {t u v : Term} (h : σ.Whnf t u) : σ.Nf t v ↔ σ.Nf u v := by
  -- what is done after reducing the head depends on the result alone
  have hsame : ∀ {t t' : Term}, σ.Whnf t u → σ.Whnf t' u → σ.Nf t v → σ.Nf t' v := by
    intro t t' ht ht' hv
    obtain ⟨n, hn⟩ := hv
    obtain ⟨k, hk⟩ := ht'
    cases n with
    | zero => rw [nf] at hn; cases hn
    | succ n =>
        have hm := (budget_below (σ := σ) (Nat.succ_le_succ (Nat.le_max_left n k))).2.1 t v hn
        refine ⟨max n k + 1, ?_⟩
        rw [nf, Traced.value_bind] at hm ⊢
        obtain ⟨u', hu', hm⟩ := Option.bind_eq_some_iff.mp hm
        obtain rfl := Whnf.unique ht ⟨_, hu'⟩
        have hk' : (whnfBy (σ.spine? (max n k)) t').value = some u :=
          whnf_below (Nat.le_max_right n k) t' u hk
        rw [hk']
        exact hm
  exact ⟨hsame h h.fixed, hsame h.fixed h⟩

end Signature

end LambdaPi
