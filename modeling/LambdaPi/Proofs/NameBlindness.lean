import LambdaPi.Proofs.Likeness.Evaluation
import LambdaPi.Proofs.Names

/-!
# Evaluation does not look at names

Terms that differ in display names only (`Term.Alike`) are treated alike: the same rules fire, and
weak head normal forms, normal forms and the answers to comparisons are the same up to names, on
every budget (`Signature.blind`). To differ in names only is a likeness, for which every signature is
like itself.
-/

namespace LambdaPi

/-! ## Terms that differ in names only -/

namespace Term

/-- The terms differ in display names only. -/
inductive Alike : Term → Term → Prop
  | kind : Alike kind kind
  | type : Alike type type
  | symb {s} : Alike (symb s) (symb s)
  | bvar {n x y} : Alike (bvar n x) (bvar n y)
  | joker : Alike joker joker
  | appl {f g a b} : Alike f g → Alike a b → Alike (appl f a) (appl g b)
  | prod {x y A B C D} : Alike A C → Alike B D → Alike (prod x A B) (prod y C D)
  | abst {x y A B t u} : Option.Rel Alike A B → Alike t u → Alike (abst x A t) (abst y B u)
  | mvar {m as bs} : List.Forall₂ Alike as bs → Alike (mvar m as) (mvar m bs)

theorem alike_appl {f g a b : Term} :
    (appl f a).Alike (appl g b) ↔ f.Alike g ∧ a.Alike b := by
  constructor
  · rintro ⟨⟩
    exact ⟨‹_›, ‹_›⟩
  · rintro ⟨hf, ha⟩
    exact .appl hf ha

theorem alike_prod {x y : Option String} {A B C D : Term} :
    (prod x A B).Alike (prod y C D) ↔ A.Alike C ∧ B.Alike D := by
  constructor
  · rintro ⟨⟩
    exact ⟨‹_›, ‹_›⟩
  · rintro ⟨hA, hB⟩
    exact .prod hA hB

theorem alike_abst {x y : String} {A B : Option Term} {t u : Term} :
    (abst x A t).Alike (abst y B u) ↔ Option.Rel Alike A B ∧ t.Alike u := by
  constructor
  · rintro ⟨⟩
    exact ⟨‹_›, ‹_›⟩
  · rintro ⟨hA, ht⟩
    exact .abst hA ht

theorem alike_mvar {m : Option MetaName} {as bs : List Term} :
    (mvar m as).Alike (mvar m bs) ↔ List.Forall₂ Alike as bs := by
  constructor
  · rintro ⟨⟩
    assumption
  · exact .mvar

theorem alike_iff {t u : Term} : t.Alike u ↔ t.nameless = u.nameless := by
  induction t generalizing u with
  | kind | type | symb | bvar | joker =>
      constructor
      · intro h
        cases h
        rfl
      · intro h
        cases u <;> simp only [nameless, reduceCtorEq, symb.injEq, bvar.injEq, and_true] at h
        all_goals first | (subst h; constructor) | constructor
  | appl f a ihf iha =>
      constructor
      · intro h
        cases h with
        | appl hf ha => rw [nameless, nameless, ihf.1 hf, iha.1 ha]
      · intro h
        cases u <;> simp only [nameless, reduceCtorEq, appl.injEq] at h
        exact .appl (ihf.2 h.1) (iha.2 h.2)
  | prod x A B ihA ihB =>
      constructor
      · intro h
        cases h with
        | prod hA hB => rw [nameless, nameless, ihA.1 hA, ihB.1 hB]
      · intro h
        cases u <;> simp only [nameless, reduceCtorEq, prod.injEq, true_and] at h
        exact .prod (ihA.2 h.1) (ihB.2 h.2)
  | abst x A t ihA iht =>
      constructor
      · intro h
        cases h with
        | abst hA ht =>
            rw [nameless, nameless, iht.1 ht]
            cases hA with
            | none => rfl
            | some hA => rw [namelessAnn, namelessAnn, (ihA _ rfl).1 hA]
      · intro h
        cases u <;> simp only [nameless, reduceCtorEq, abst.injEq, true_and] at h
        next y B u =>
        refine .abst ?_ (iht.2 h.2)
        cases A <;> cases B <;>
          simp only [namelessAnn, reduceCtorEq, Option.some.injEq, false_and, true_and] at h
        · exact .none
        · exact .some ((ihA _ rfl).2 h.1)
  | mvar m as ih =>
      have hargs : ∀ bs, List.Forall₂ Alike as bs ↔ as.map nameless = bs.map nameless := by
        intro bs
        induction as generalizing bs with
        | nil => cases bs <;> simp
        | cons a as ihas =>
            have hrest := ihas fun b hb => ih b (List.mem_cons_of_mem _ hb)
            cases bs with
            | nil => simp
            | cons b bs => simp [ih a (List.mem_cons_self ..), hrest]
      constructor
      · intro h
        cases h with
        | mvar h => rw [nameless, nameless, namelessArgs_eq_map, namelessArgs_eq_map, (hargs _).1 h]
      · intro h
        cases u <;> simp only [nameless, reduceCtorEq, mvar.injEq, namelessArgs_eq_map] at h
        obtain ⟨rfl, h⟩ := h
        exact .mvar ((hargs _).2 h)

end Term

/-! ## Names as a likeness -/

/-- Symbols and labels are the same, and names are any. -/
def Likeness.names : Likeness where
  symbol := Eq
  name _ _ := True
  label := Eq
  symbol_inj := by
    rintro s _ s' _ rfl rfl
    rfl
  symbol_before := by
    rintro s _ s' _ rfl rfl
    rfl
  unnamed := trivial
  definition := by
    rintro a _ ⟨⟩
    rfl

theorem Term.alike_iff_like {t u : Term} : t.Alike u ↔ t.Like .names u := by
  induction t generalizing u with
  | kind | type | bvar | joker =>
      constructor
      · rintro ⟨⟩
        constructor <;> trivial
      · rintro ⟨⟩
        constructor
  | symb s =>
      constructor
      · rintro ⟨⟩
        exact .symb rfl
      · intro h
        cases h with
        | symb hs => exact hs ▸ .symb
  | appl f a ihf iha =>
      constructor
      · intro h
        cases h with
        | appl hf ha => exact .appl (ihf.1 hf) (iha.1 ha)
      · intro h
        cases h with
        | appl hf ha => exact .appl (ihf.2 hf) (iha.2 ha)
  | prod x A B ihA ihB =>
      constructor
      · intro h
        cases h with
        | prod hA hB => exact .prod trivial (ihA.1 hA) (ihB.1 hB)
      · intro h
        cases h with
        | prod _ hA hB => exact .prod (ihA.2 hA) (ihB.2 hB)
  | abst x A t ihA iht =>
      constructor
      · intro h
        cases h with
        | abst hA ht =>
            refine .abst trivial ?_ (iht.1 ht)
            cases hA with
            | none => exact .none
            | some hA => exact .some ((ihA _ rfl).1 hA)
      · intro h
        cases h with
        | abst _ hA ht =>
            refine .abst ?_ (iht.2 ht)
            cases hA with
            | none => exact .none
            | some hA => exact .some ((ihA _ rfl).2 hA)
  | mvar m as ih =>
      have hargs : ∀ bs, List.Forall₂ Alike as bs ↔ List.Forall₂ (Like .names) as bs := by
        intro bs
        induction as generalizing bs with
        | nil => cases bs <;> simp
        | cons a as ihas =>
            have hrest := ihas fun b hb => ih b (List.mem_cons_of_mem _ hb)
            cases bs with
            | nil => simp
            | cons b bs => simp [ih a (List.mem_cons_self ..), hrest]
      constructor
      · intro h
        cases h with
        | mvar h => exact .mvar ((hargs _).1 h)
      · intro h
        cases h with
        | mvar h => exact .mvar ((hargs _).2 h)

theorem Term.Alike.apply {t u : Term} (h : t.Alike u) {as bs : List Term}
    (hargs : List.Forall₂ Alike as bs) : (t.apply as).Alike (u.apply bs) :=
  alike_iff_like.2 ((alike_iff_like.1 h).apply (hargs.imp fun _ _ => alike_iff_like.1))

theorem Term.Alike.unapply {t u : Term} (h : t.Alike u) :
    t.unapply.1.Alike u.unapply.1 ∧ List.Forall₂ Alike t.unapply.2 u.unapply.2 := by
  obtain ⟨hhead, hargs⟩ := (alike_iff_like.1 h).unapply
  exact ⟨alike_iff_like.2 hhead, hargs.imp fun _ _ => alike_iff_like.2⟩

theorem Term.Like.refl (t : Term) : t.Like .names t :=
  alike_iff_like.1 (alike_iff.2 rfl)

theorem Rule.Like.refl (r : Rule) : r.Like .names r :=
  ⟨rfl, rfl, List.forall₂_same.2 fun t _ => .refl t, .refl r.rhs⟩

theorem MetaTest.Like.refl (test : MetaTest) : test.Like .names test :=
  ⟨rfl, rfl, rfl, rfl, List.forall₂_same.2 fun t _ => .refl t, rfl⟩

theorem Shape.Like.refl : ∀ shape : Shape, shape.Like .names shape
  | .abst => .abst
  | .symb _ _ => .symb rfl
  | .bvar _ _ => .bvar

mutual

theorem Tree.Like.refl : ∀ tree : Tree, tree.Like .names tree
  | .fail => .fail
  | .switch _ branches otherwise => .switch (Branches.Like.refl branches) (Tree.Like.refl otherwise)
  | .test rule _ otherwise =>
      .test (.refl rule) (List.forall₂_same.2 fun test _ => .refl test) (Tree.Like.refl otherwise)

theorem Branches.Like.refl : ∀ branches : Branches, branches.Like .names branches
  | .nil => .nil
  | .cons shape tree rest => .cons (.refl shape) (Tree.Like.refl tree) (Branches.Like.refl rest)

end

theorem TreeCell.Like.refl (cell : TreeCell) : TreeCell.Like .names cell cell := by
  rcases cell with e | tree?
  · refine .error ?_
    cases e with
    | noRules => exact .noRules
    | headMismatch s t => exact .headMismatch rfl rfl
    | arityTooSmall name n => exact .arityTooSmall rfl
    | pattern e => cases e <;> exact .pattern (by constructor; exact .refl _)
    | unmatchable p => exact .unmatchable (.refl p)
  · refine .ok ?_
    cases tree? with
    | none => exact .none
    | some tree => exact .some ⟨rfl, .refl tree.root⟩

theorem Signature.Like.refl (σ : Signature) : σ.Like .names σ := by
  refine ⟨?_, ?_, rfl⟩
  · rintro s _ rfl
    cases σ.entry? s with
    | none => exact .none
    | some e => exact .some ⟨.refl e.type, rfl, rfl⟩
  · rintro s _ rfl
    cases σ.ruleSet? s with
    | none => exact .none
    | some r =>
        refine .some ⟨?_, rfl, rfl, ?_⟩
        · exact List.forall₂_same.2 fun rule _ => .refl rule
        · exact List.forall₂_same.2 fun cell _ => .refl cell.get

/-- On every budget, terms that differ in names only are treated alike. -/
theorem Signature.blind (σ : Signature) (n : Nat) : EvaluationLike .names σ σ n :=
  (Signature.Like.refl σ).evaluation n

end LambdaPi
