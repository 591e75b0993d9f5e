import LambdaPi.Proofs.Instantiation

/-!
# Spines and subterms

Taking a term apart into its head and its arguments, and putting them together again, are inverse to
each other. What occurs in a part of a term occurs in the term.
-/

namespace LambdaPi

namespace Term

/-! ## Applying and taking apart -/

/-- Applications are not heads. -/
def isAppl : Term → Bool
  | appl _ _ => true
  | _ => false

@[simp] theorem apply_nil (f : Term) : f.apply [] = f := rfl

@[simp] theorem apply_cons (f a : Term) (args : List Term) :
    f.apply (a :: args) = (appl f a).apply args := rfl

theorem apply_append (f : Term) (as bs : List Term) :
    f.apply (as ++ bs) = (f.apply as).apply bs :=
  List.foldl_append

/-- A relation that respects applications respects spines. -/
theorem apply_rel {R : Term → Term → Prop}
    (happl : ∀ {f g a b}, R f g → R a b → R (appl f a) (appl g b)) {f g : Term} (hfg : R f g)
    {as bs : List Term} (hlen : as.length = bs.length)
    (hargs : ∀ (i : Nat) (a b : Term), as[i]? = some a → bs[i]? = some b → R a b) :
    R (f.apply as) (g.apply bs) := by
  induction as generalizing f g bs with
  | nil =>
      obtain rfl := List.eq_nil_of_length_eq_zero hlen.symm
      exact hfg
  | cons a as ih =>
      obtain ⟨b, bs, rfl⟩ := List.exists_cons_of_length_eq_add_one hlen.symm
      have hhead := happl hfg (hargs 0 a b rfl rfl)
      exact ih hhead (Nat.succ.inj hlen) fun i c d hc hd => hargs (i + 1) c d hc hd

theorem apply_unapplyOnto (t : Term) (rest : List Term) :
    (t.unapplyOnto rest).1.apply (t.unapplyOnto rest).2 = t.apply rest := by
  induction t generalizing rest with
  | appl f a ihf _ =>
      rw [unapplyOnto, ihf (a :: rest)]
      rfl
  | _ => rfl

theorem apply_unapply (t : Term) : t.unapply.1.apply t.unapply.2 = t :=
  apply_unapplyOnto t []

theorem eq_apply_of_unapply {t head : Term} {args : List Term} (h : t.unapply = (head, args)) :
    t = head.apply args := by
  rw [← apply_unapply t, h]

theorem unapplyOnto_of_isAppl {t : Term} (h : t.isAppl = false) (rest : List Term) :
    t.unapplyOnto rest = (t, rest) := by
  cases t with
  | appl f a => cases h
  | _ => rfl

theorem unapplyOnto_apply (f : Term) (args rest : List Term) :
    (f.apply args).unapplyOnto rest = f.unapplyOnto (args ++ rest) := by
  induction args generalizing f with
  | nil => rfl
  | cons a args ih => rw [apply_cons, ih (appl f a)]; rfl

theorem unapply_apply {head : Term} (h : head.isAppl = false) (args : List Term) :
    (head.apply args).unapply = (head, args) := by
  rw [unapply, unapplyOnto_apply, List.append_nil, unapplyOnto_of_isAppl h]

/-! ## Subterms -/

theorem subtermsArgs_eq (args : List Term) : subtermsArgs args = args.flatMap subterms := by
  induction args with
  | nil => rfl
  | cons a args ih => rw [subtermsArgs, ih, List.flatMap_cons]

theorem mem_subterms_self (t : Term) : t ∈ t.subterms := by
  cases t <;> exact List.mem_cons_self ..

theorem mem_subterms_appl_left {u f : Term} (h : u ∈ f.subterms) (a : Term) :
    u ∈ (appl f a).subterms :=
  List.mem_cons_of_mem _ (List.mem_append_left _ h)

theorem mem_subterms_appl_right {u a : Term} (h : u ∈ a.subterms) (f : Term) :
    u ∈ (appl f a).subterms :=
  List.mem_cons_of_mem _ (List.mem_append_right _ h)

theorem mem_subterms_prod_left {u A : Term} (h : u ∈ A.subterms) (x : Option String) (B : Term) :
    u ∈ (prod x A B).subterms :=
  List.mem_cons_of_mem _ (List.mem_append_left _ h)

theorem mem_subterms_prod_right {u B : Term} (h : u ∈ B.subterms) (x : Option String) (A : Term) :
    u ∈ (prod x A B).subterms :=
  List.mem_cons_of_mem _ (List.mem_append_right _ h)

theorem mem_subterms_abst_ann {u A : Term} (h : u ∈ A.subterms) (x : String) (t : Term) :
    u ∈ (abst x (some A) t).subterms :=
  List.mem_cons_of_mem _ (List.mem_append_left _ h)

theorem mem_subterms_abst_body {u t : Term} (h : u ∈ t.subterms) (x : String)
    (A : Option Term) : u ∈ (abst x A t).subterms :=
  List.mem_cons_of_mem _ (List.mem_append_right _ h)

theorem mem_subterms_mvar {u a : Term} (h : u ∈ a.subterms) {args : List Term} (ha : a ∈ args)
    (m : Option MetaName) : u ∈ (mvar m args).subterms := by
  refine List.mem_cons_of_mem _ ?_
  rw [subtermsArgs_eq]
  exact List.mem_flatMap.mpr ⟨a, ha, h⟩

theorem mem_subterms_apply_head {u f : Term} (h : u ∈ f.subterms) (args : List Term) :
    u ∈ (f.apply args).subterms := by
  induction args generalizing f with
  | nil => exact h
  | cons a args ih => exact ih (mem_subterms_appl_left h a)

theorem mem_subterms_apply {u a : Term} (h : u ∈ a.subterms) {args : List Term} (ha : a ∈ args)
    (f : Term) : u ∈ (f.apply args).subterms := by
  induction args generalizing f with
  | nil => cases ha
  | cons b args ih =>
      rcases List.mem_cons.mp ha with rfl | ha
      · exact mem_subterms_apply_head (mem_subterms_appl_right h f) args
      · exact ih ha (appl f b)

theorem mem_subterms_of_unapply {t head u a : Term} {args : List Term}
    (ht : t.unapply = (head, args)) (ha : a ∈ args) (h : u ∈ a.subterms) : u ∈ t.subterms := by
  rw [eq_apply_of_unapply ht]
  exact mem_subterms_apply h ha head

end Term

end LambdaPi
