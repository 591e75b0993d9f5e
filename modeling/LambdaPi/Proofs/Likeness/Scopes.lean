import LambdaPi.Proofs.Likeness.Sessions
import LambdaPi.Session.Scope

/-!
# Scoping in spaces that are alike

Two scopes may read the same text differently, each in its own space. If the references of two terms
mean corresponding symbols (`Scope.Like`), the terms that result are like each other, and so are the
commands (`Scope.Like.command`).
-/

namespace LambdaPi

/-- What is like for `K` before names are resolved is like for `L` afterwards. -/
structure Scope.Like (K L : Likeness) (sc sc' : Scope) : Prop where
  resolve : ∀ {s t}, K.symbol s t → L.symbol (sc.resolve s) (sc'.resolve t)
  name : ∀ {x y}, K.name x y → L.name x y
  symbol : ∀ a, L.symbol ⟨sc.qualify a⟩ ⟨sc'.qualify a⟩
  label : ∀ a, L.label (sc.qualify a) (sc'.qualify a)

namespace Scope.Like

variable {K L : Likeness} {sc sc' : Scope}

/-- An annotation is left out in both terms or in neither. -/
theorem ann_of {A B : Option Term} (hAB : Option.Rel (Term.Like K) A B)
    (hterm : ∀ C D, A = some C → C.Like K D → (sc.term C).Like L (sc'.term D)) :
    Option.Rel (Term.Like L) (sc.ann A) (sc'.ann B) := by
  cases hAB with
  | none => exact .none
  | some hAB =>
      have hscoped := hterm _ _ rfl hAB
      cases hAB with
      | joker => exact .none
      | _ => exact .some hscoped

theorem term (h : sc.Like K L sc') {t u : Term} (htu : t.Like K u) :
    (sc.term t).Like L (sc'.term u) := by
  induction t generalizing u with
  | kind | type | joker =>
      cases htu
      constructor
  | symb s =>
      cases htu with
      | symb hs => exact .symb (h.resolve hs)
  | bvar n x =>
      cases htu with
      | bvar hx => exact .bvar (h.name hx)
  | appl f a ihf iha =>
      cases htu with
      | appl hf ha => exact .appl (ihf hf) (iha ha)
  | prod x A B ihA ihB =>
      cases htu with
      | prod hx hA hB => exact .prod (h.name hx) (ihA hA) (ihB hB)
  | abst x A t ihA iht =>
      cases htu with
      | abst hx hA ht =>
          exact .abst (h.name hx) (ann_of hA fun C D hC hCD => ihA C hC hCD) (iht ht)
  | mvar m args ih =>
      cases htu with
      | mvar hargs =>
          refine .mvar ?_
          induction hargs with
          | nil => exact .nil
          | cons ha _ ihargs =>
              refine .cons (ih _ (List.mem_cons_self ..) ha) (ihargs ?_)
              exact fun a ha => ih a (List.mem_cons_of_mem _ ha)

/-- Related results, and the same number for the next meta-variable. -/
abbrev NumberedLike {α β : Type} (R : α → β → Prop) (x : StateM Nat α) (y : StateM Nat β) : Prop :=
  ∀ n, R (x.run n).1 (y.run n).1 ∧ (x.run n).2 = (y.run n).2

theorem numbered_bind {α β γ δ : Type} {R : α → β → Prop} {S : γ → δ → Prop} {x : StateM Nat α}
    {y : StateM Nat β} {f : α → StateM Nat γ} {g : β → StateM Nat δ} (hx : NumberedLike R x y)
    (hf : ∀ a b, R a b → NumberedLike S (f a) (g b)) : NumberedLike S (x >>= f) (y >>= g) := by
  intro n
  have hfg := hf _ _ (hx n).1 (x.run n).2
  rw [(hx n).2] at hfg
  have hrun : (x >>= f).run n = (f (x.run n).1).run (y.run n).2 := by
    rw [← (hx n).2]
    rfl
  rw [hrun]
  exact hfg

theorem numbered_pure {α β : Type} {R : α → β → Prop} {a : α} {b : β} (h : R a b) :
    NumberedLike R (pure a) (pure b) :=
  fun _ => ⟨h, rfl⟩

theorem nextMeta_like (depth : Nat) :
    NumberedLike (Term.Like L) (nextMeta depth) (nextMeta depth) := by
  refine fun n => ⟨.mvar ?_, rfl⟩
  refine List.forall₂_same.2 fun t ht => ?_
  obtain ⟨i, -, rfl⟩ := List.mem_map.1 ht
  exact .bvar L.unnamed

theorem pattern (h : sc.Like K L sc') (depth : Nat) {t u : Term} (htu : t.Like K u) :
    NumberedLike (Term.Like L) (sc.pattern depth t) (sc'.pattern depth u) := by
  induction t generalizing u depth with
  | kind | type =>
      cases htu
      exact numbered_pure (by constructor)
  | joker =>
      cases htu
      exact nextMeta_like depth
  | symb s =>
      cases htu with
      | symb hs => exact numbered_pure (.symb (h.resolve hs))
  | bvar n x =>
      cases htu with
      | bvar hx => exact numbered_pure (.bvar (h.name hx))
  | appl f a ihf iha =>
      cases htu with
      | appl hf ha =>
          refine numbered_bind (ihf depth hf) fun _ _ hf' => ?_
          exact numbered_bind (iha depth ha) fun _ _ ha' => numbered_pure (.appl hf' ha')
  | prod x A B ihA ihB =>
      cases htu with
      | prod hx hA hB =>
          refine numbered_bind (ihA depth hA) fun _ _ hA' => ?_
          refine numbered_bind (ihB (depth + 1) hB) fun _ _ hB' => ?_
          exact numbered_pure (.prod (h.name hx) hA' hB')
  | abst x A t ihA iht =>
      cases htu with
      | @abst _ _ _ B _ _ hx hA ht =>
          have hann : NumberedLike (Option.Rel (Term.Like L)) (sc.patternAnn depth A)
              (sc'.patternAnn depth B) := by
            cases hA with
            | none => exact numbered_pure .none
            | some hA =>
                have hscoped := numbered_bind (S := Option.Rel (Term.Like L)) (ihA _ rfl depth hA)
                  fun _ _ hA' => numbered_pure (.some hA')
                -- a joker as annotation is dropped, whereas elsewhere it would get a number
                cases hA with
                | joker => exact numbered_pure .none
                | _ => exact hscoped
          refine numbered_bind hann fun _ _ hA' => ?_
          refine numbered_bind (iht (depth + 1) ht) fun _ _ ht' => ?_
          exact numbered_pure (.abst (h.name hx) hA' ht')
  | mvar m args ih =>
      cases htu with
      | @mvar _ _ args' hargs =>
          have hpatterns : NumberedLike (List.Forall₂ (Term.Like L)) (sc.patterns depth args)
              (sc'.patterns depth args') := by
            induction hargs with
            | nil => exact numbered_pure .nil
            | cons ha _ ihargs =>
                have hrest := ihargs fun a ha => ih a (List.mem_cons_of_mem _ ha)
                refine numbered_bind (ih _ (List.mem_cons_self ..) depth ha) fun _ _ ha' => ?_
                exact numbered_bind hrest fun _ _ hargs' => numbered_pure (.cons ha' hargs')
          exact numbered_bind hpatterns fun _ _ hargs' => numbered_pure (.mvar hargs')

theorem option (h : sc.Like K L sc') {A B : Option Term} (hAB : Option.Rel (Term.Like K) A B) :
    Option.Rel (Term.Like L) (A.map sc.term) (B.map sc'.term) := by
  cases hAB with
  | none => exact .none
  | some hAB => exact .some (h.term hAB)

theorem context (h : sc.Like K L sc') {Γ Δ : Context} (hΓ : Context.Like K Γ Δ) :
    Context.Like L (sc.context Γ) (sc'.context Δ) := by
  refine List.rel_map ?_ hΓ
  intro g d hgd
  exact ⟨h.name hgd.name, h.option hgd.type⟩

/-- Commands that are like each other as they stand, with the same names, are so in their scopes. -/
theorem command (h : sc.Like K L sc') {c c' : Command} (hc : c.Like K Eq Eq c') (n : Nat) :
    Command.LikeIn L ((sc.command c).run n).1 ((sc'.command c').run n).1 := by
  cases hc with
  | @declare d d' hd =>
      obtain ⟨name, type, body, constant, isTheorem⟩ := d
      obtain ⟨_, type', body', constant', isTheorem'⟩ := d'
      obtain ⟨rfl, htype, hbody, hconstant, htheorem⟩ := hd
      exact .declare ⟨h.symbol name, h.option htype, h.option hbody, hconstant, htheorem⟩
  | constant hab => exact hab ▸ .constant (h.symbol _)
  | injective hab => exact hab ▸ .injective (h.symbol _)
  | rule hab hlhs hrhs =>
      subst hab
      exact .rule (h.label _) (h.pattern 0 hlhs n).1 (h.term hrhs)
  | eval hΓ ht => exact .eval (h.context hΓ) (h.term ht)
  | infer hΓ ht => exact .infer (h.context hΓ) (h.term ht)
  | check hΓ ht hA => exact .check (h.context hΓ) (h.term ht) (h.term hA)
  | compare hΓ ht hu => exact .compare (h.context hΓ) (h.term ht) (h.term hu)
  | print ht => exact .print (h.term ht)
  | trees hab => exact hab ▸ .trees (h.symbol _)
  | clock => exact .clock
  | require => exact .require
  | debugOn => exact .debugOn
  | debugOff => exact .debugOff

end Scope.Like

end LambdaPi
