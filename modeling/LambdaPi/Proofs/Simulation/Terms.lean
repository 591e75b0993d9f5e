import LambdaPi.Term.Shared
import LambdaPi.Term.Substitution
import Mathlib.Data.List.Forall2

/-!
# Relations that go through terms layer by layer

Terms may be related in ways that evaluation and typing cannot tell apart: they may differ in names, in
symbols, or in the numbers of their free variables. What these relations have in common is that related
terms have the same constructor at the outside and related parts, that different symbols and variables
stay different, and that lifting and substitution go along. This is a `Simulation`. The relation may
change under a binder; what it is at some place is called a world.

This module goes through the functions on terms that look at one layer at a time: spines and
comparison.
-/

namespace LambdaPi

/-- The same constructor at the outside, and parts related by `R`, or by `R'` if a variable is bound
around them. -/
inductive Term.SameLayer (symbol : Symbol → Symbol → Prop) (var : Nat → Nat → Prop)
    (name : Option String → Option String → Prop) (R R' : Term → Term → Prop) :
    Term → Term → Prop
  | kind : SameLayer symbol var name R R' kind kind
  | type : SameLayer symbol var name R R' type type
  | symb {s t} : symbol s t → SameLayer symbol var name R R' (symb s) (symb t)
  | bvar {m n x y} : var m n → name x y → SameLayer symbol var name R R' (bvar m x) (bvar n y)
  | joker : SameLayer symbol var name R R' joker joker
  | appl {f g a b} : R f g → R a b → SameLayer symbol var name R R' (appl f a) (appl g b)
  | prod {x y A B C D} : name x y → R A C → R' B D →
      SameLayer symbol var name R R' (prod x A B) (prod y C D)
  | abst {x y A B t u} : name (some x) (some y) → Option.Rel R A B → R' t u →
      SameLayer symbol var name R R' (abst x A t) (abst y B u)
  | mvar {m as bs} : List.Forall₂ R as bs → SameLayer symbol var name R R' (mvar m as) (mvar m bs)

/-- Relations between terms, one for each world, that hold layer by layer. -/
structure Simulation where
  World : Type
  /-- the world under one more binder -/
  under : World → World
  rel : World → Term → Term → Prop
  symbol : Symbol → Symbol → Prop
  var : World → Nat → Nat → Prop
  name : Option String → Option String → Prop
  layer : ∀ {w t u}, rel w t u ↔ t.SameLayer symbol (var w) name (rel w) (rel (under w)) u
  symbol_inj : ∀ {s t s' t'}, symbol s t → symbol s' t' → (s = s' ↔ t = t')
  var_inj : ∀ {w m n m' n'}, var w m n → var w m' n' → (m = m' ↔ n = n')
  var_bound : ∀ w, var (under w) 0 0
  unnamed : name none none
  lift : ∀ {w t u}, rel w t u → rel (under w) (t.lift 1) (u.lift 1)
  subst : ∀ {w t u a b}, rel (under w) t u → rel w a b → rel w (t.subst a) (u.subst b)

namespace Simulation

variable (S : Simulation) {w : S.World} {t t' u u' : Term}

/-! ## Spines -/

theorem apply (h : S.rel w t u) {as bs : List Term} (hargs : List.Forall₂ (S.rel w) as bs) :
    S.rel w (t.apply as) (u.apply bs) := by
  induction hargs generalizing t u with
  | nil => exact h
  | cons ha _ ih => exact ih (S.layer.2 (.appl h ha))

theorem unapplyOnto (h : S.rel w t u) {as bs : List Term}
    (hargs : List.Forall₂ (S.rel w) as bs) :
    S.rel w (t.unapplyOnto as).1 (u.unapplyOnto bs).1
      ∧ List.Forall₂ (S.rel w) (t.unapplyOnto as).2 (u.unapplyOnto bs).2 := by
  induction t generalizing u as bs with
  | appl f a ihf _ =>
      cases S.layer.1 h with
      | appl hf ha =>
          have hspine := ihf hf (.cons ha hargs)
          exact hspine
  | _ =>
      have hhead := h
      cases S.layer.1 h
      exact ⟨hhead, hargs⟩

theorem unapply (h : S.rel w t u) :
    S.rel w t.unapply.1 u.unapply.1 ∧ List.Forall₂ (S.rel w) t.unapply.2 u.unapply.2 :=
  S.unapplyOnto h .nil

theorem isMetaVariable (h : S.rel w t u) : t.isMetaVariable = u.isMetaVariable := by
  cases S.layer.1 h <;> rfl

theorem informative? {A B : Option Term} (h : Option.Rel (S.rel w) A B) :
    Option.Rel (S.rel w) (Term.informative? A) (Term.informative? B) := by
  cases h with
  | none => exact .none
  | some h =>
      have hsome := h
      cases S.layer.1 h with
      | joker => exact .none
      | _ => exact .some hsome

/-! ## Comparison -/

/-- Comparisons of related terms, in whatever world. -/
def Compared (c d : Comparison) : Prop :=
  ∃ w, S.rel w c.left d.left ∧ S.rel w c.right d.right

theorem compareArgs {as as' bs bs' : List Term} (ha : List.Forall₂ (S.rel w) as as')
    (hb : List.Forall₂ (S.rel w) bs bs') (depth depth' : Nat) :
    List.Forall₂ S.Compared (Term.compareArgs depth as bs) (Term.compareArgs depth' as' bs') := by
  induction ha generalizing bs bs' with
  | nil => exact .nil
  | cons haa' _ ih =>
      cases hb with
      | nil => exact .nil
      | cons hbb' hb => exact .cons ⟨w, haa', hbb'⟩ (ih hb)

theorem compareAnns {A A' B B' : Option Term} (hA : Option.Rel (S.rel w) A A')
    (hB : Option.Rel (S.rel w) B B') (depth depth' : Nat) :
    List.Forall₂ S.Compared (Term.compareAnns depth A B) (Term.compareAnns depth' A' B') := by
  have hA' := S.informative? hA
  have hB' := S.informative? hB
  unfold Term.compareAnns
  generalize Term.informative? A = C, Term.informative? A' = C' at hA'
  generalize Term.informative? B = D, Term.informative? B' = D' at hB'
  cases hA' with
  | none => exact .nil
  | some hA' =>
      cases hB' with
      | none => exact .nil
      | some hB' => exact .cons ⟨w, hA', hB'⟩ .nil

theorem sameHead (ht : S.rel w t t') (hu : S.rel w u u') (depth depth' : Nat) :
    Option.Rel (List.Forall₂ S.Compared) (t.sameHead depth u) (t'.sameHead depth' u') := by
  cases S.layer.1 ht with
  | appl hf ha =>
      cases S.layer.1 hu with
      | appl hg hb => exact .some (.cons ⟨w, hf, hg⟩ (.cons ⟨w, ha, hb⟩ .nil))
      | _ => exact .none
  | prod _ hA hB =>
      cases S.layer.1 hu with
      | prod _ hC hD => exact .some (.cons ⟨w, hA, hC⟩ (.cons ⟨_, hB, hD⟩ .nil))
      | _ => exact .none
  | abst _ hA hbody =>
      cases S.layer.1 hu with
      | abst _ hB hbody' =>
          have hanns := S.compareAnns hA hB depth depth'
          exact .some (List.rel_append hanns (.cons ⟨_, hbody, hbody'⟩ .nil))
      | _ => exact .none
  | mvar has =>
      cases S.layer.1 hu with
      | mvar hbs =>
          rw [Term.sameHead, Term.sameHead, has.length_eq, hbs.length_eq]
          split
          · exact .some (S.compareArgs has hbs depth depth')
          · exact .none
      | _ => exact .none
  | symb hs =>
      cases S.layer.1 hu with
      | symb hs' =>
          simp only [Term.sameHead, S.symbol_inj hs hs']
          split
          · exact .some .nil
          · exact .none
      | _ => exact .none
  | bvar hm _ =>
      cases S.layer.1 hu with
      | bvar hn _ =>
          simp only [Term.sameHead, S.var_inj hm hn]
          split
          · exact .some .nil
          · exact .none
      | _ => exact .none
  | kind | type | joker => cases S.layer.1 hu <;> first | exact .some .nil | exact .none

end Simulation

namespace Comparison

theorem allEqual_of_sameHead {c : Comparison} {parts : List Comparison}
    (h : c.left.sameHead c.depth c.right = some parts) (rest : List Comparison) :
    allEqual (c :: rest) = allEqual (parts.reverse ++ rest) := by
  rw [allEqual_cons, allEqual_singleton, h, allEqual_append, allEqual_reverse]
  rfl

theorem allEqual_of_sameHead_none {c : Comparison} (h : c.left.sameHead c.depth c.right = none)
    (rest : List Comparison) : allEqual (c :: rest) = false := by
  rw [allEqual_cons, allEqual_singleton, h]
  rfl

end Comparison

namespace Simulation

variable (S : Simulation)

theorem allEqual {cs ds : List Comparison} (h : List.Forall₂ S.Compared cs ds) :
    Comparison.allEqual cs = Comparison.allEqual ds := by
  fun_induction Comparison.allEqual cs generalizing ds with
  | case1 =>
      cases h
      exact Comparison.allEqual_nil.symm
  | case2 c rest hnone =>
      cases h with
      | @cons _ d _ ds hc _ =>
          obtain ⟨w, hleft, hright⟩ := hc
          have hparts := S.sameHead hleft hright c.depth d.depth
          rw [hnone] at hparts
          refine (Comparison.allEqual_of_sameHead_none ?_ ds).symm
          generalize d.left.sameHead d.depth d.right = p at hparts
          cases hparts
          rfl
  | case3 c rest parts hsome ih =>
      cases h with
      | @cons _ d _ ds hc hrest =>
          obtain ⟨w, hleft, hright⟩ := hc
          have hparts := S.sameHead hleft hright c.depth d.depth
          rw [hsome] at hparts
          generalize hd : d.left.sameHead d.depth d.right = p at hparts
          cases hparts with
          | some hparts =>
              rw [Comparison.allEqual_of_sameHead hd]
              exact ih (List.rel_append (List.rel_reverse hparts) hrest)

theorem equals {w : S.World} {t t' u u' : Term} (ht : S.rel w t t') (hu : S.rel w u u') :
    t.equals u = t'.equals u' := by
  rw [Term.equals_eq_allEqual, Term.equals_eq_allEqual]
  exact S.allEqual (.cons ⟨w, ht, hu⟩ .nil)

end Simulation

end LambdaPi
