import LambdaPi.Evaluation.Binding
import LambdaPi.Proofs.Simulation.Results
import LambdaPi.Proofs.Simulation.Terms

/-!
# Terms that are alike

Two terms may differ without the kernel treating them differently: in the names that they display,
or in the symbols they are made of, as long as different symbols stay different and in the same
order. A `Likeness` says which names and symbols correspond to each other, and `Term.Like` which
terms do.

Everything that is done with terms takes like things to like things. Most of it is so because a
likeness is a `Simulation` in one world (`Likeness.simulation`); this module goes through the rest of
the functions on terms: replacement of variables, and bindings.
-/

namespace LambdaPi

/-- Which symbols, display names and labels of rules correspond to each other. -/
structure Likeness where
  symbol : Symbol → Symbol → Prop
  name : Option String → Option String → Prop
  label : String → String → Prop
  symbol_inj : ∀ {s t s' t'}, symbol s t → symbol s' t' → (s = s' ↔ t = t')
  symbol_before : ∀ {s t s' t'}, symbol s t → symbol s' t' → s.before s' = t.before t'
  unnamed : name none none
  definition : ∀ {a b}, symbol ⟨a⟩ ⟨b⟩ → label (a ++ "_def") (b ++ "_def")

/-! ## Terms -/

namespace Term

/-- The terms have the same structure, with corresponding symbols and names. -/
inductive Like (L : Likeness) : Term → Term → Prop
  | kind : Like L kind kind
  | type : Like L type type
  | symb {s t} : L.symbol s t → Like L (symb s) (symb t)
  | bvar {n x y} : L.name x y → Like L (bvar n x) (bvar n y)
  | joker : Like L joker joker
  | appl {f g a b} : Like L f g → Like L a b → Like L (appl f a) (appl g b)
  | prod {x y A B C D} : L.name x y → Like L A C → Like L B D → Like L (prod x A B) (prod y C D)
  | abst {x y A B t u} : L.name (some x) (some y) → Option.Rel (Like L) A B → Like L t u →
      Like L (abst x A t) (abst y B u)
  | mvar {m as bs} : List.Forall₂ (Like L) as bs → Like L (mvar m as) (mvar m bs)

variable {L : Likeness} {t u : Term}

theorem Like.isVar (h : t.Like L u) (n : Nat) : t.isVar n = u.isVar n := by
  cases h <;> rfl

theorem Like.isMeta (h : t.Like L u) : t.isMeta = u.isMeta := by
  cases h <;> rfl

theorem Like.allFree (h : t.Like L u) (p : Nat → Bool) (k : Nat) :
    t.allFree p k = u.allFree p k := by
  induction t generalizing u k with
  | kind | type | symb | joker | bvar =>
      cases h
      rfl
  | appl f a ihf iha =>
      cases h with
      | appl hf ha => simp only [Term.allFree, ihf hf, iha ha]
  | prod x A B ihA ihB =>
      cases h with
      | prod _ hA hB => simp only [Term.allFree, ihA hA, ihB hB]
  | abst x A t ihA iht =>
      cases h with
      | abst _ hA ht =>
          cases hA with
          | none => simp only [Term.allFree, allFreeAnn, iht ht]
          | some hA => simp only [Term.allFree, allFreeAnn, iht ht, ihA _ rfl hA]
  | mvar m args ih =>
      cases h with
      | mvar hargs =>
          rw [Term.allFree, Term.allFree]
          induction hargs with
          | nil => rfl
          | cons ha _ ihargs =>
              rw [allFreeArgs, allFreeArgs, ih _ (List.mem_cons_self ..) ha,
                ihargs fun a ha => ih a (List.mem_cons_of_mem _ ha)]

end Term

/-! ## Replacing variables -/

/-- Corresponding variables are replaced by like terms. -/
def Replacement.Like (L : Likeness) (ρ τ : Replacement) : Prop :=
  ∀ n k {x y}, L.name x y → (ρ n k x).Like L (τ n k y)

namespace Term

variable {L : Likeness} {t u : Term}

/-- Like terms are kept or not together, since that depends on the numbers of variables alone. -/
theorem Like.replace {ρ τ : Replacement} (hρ : ρ.Like L τ) (h : t.Like L u) (k : Nat) :
    (t.replace ρ k).result.Like L (u.replace τ k).result
      ∧ (t.replace ρ k).kept = (u.replace τ k).kept := by
  induction t generalizing u k with
  | kind | type | symb | joker =>
      cases h
      exact ⟨by constructor <;> assumption, rfl⟩
  | bvar n x =>
      cases h with
      | bvar hx =>
          rw [Term.replace, Term.replace]
          split
          · exact ⟨.bvar hx, rfl⟩
          · exact ⟨hρ n k hx, (hρ n k hx).isVar n⟩
  | appl f a ihf iha =>
      cases h with
      | appl hf ha =>
          obtain ⟨hf', hfk⟩ := ihf hf k
          obtain ⟨ha', hak⟩ := iha ha k
          simp only [Term.replace, hfk, hak]
          split
          · exact ⟨.appl hf ha, rfl⟩
          · exact ⟨.appl hf' ha', rfl⟩
  | prod x A B ihA ihB =>
      cases h with
      | prod hx hA hB =>
          obtain ⟨hA', hAk⟩ := ihA hA k
          obtain ⟨hB', hBk⟩ := ihB hB (k + 1)
          simp only [Term.replace, hAk, hBk]
          split
          · exact ⟨.prod hx hA hB, rfl⟩
          · exact ⟨.prod hx hA' hB', rfl⟩
  | abst x A t ihA iht =>
      cases h with
      | @abst _ _ _ B _ _ hx hA ht =>
          obtain ⟨ht', htk⟩ := iht ht (k + 1)
          have hann : Option.Rel (Like L) (replaceAnn ρ k A).result (replaceAnn τ k B).result
              ∧ (replaceAnn ρ k A).kept = (replaceAnn τ k B).kept := by
            cases hA with
            | none => exact ⟨.none, rfl⟩
            | some hA => exact ⟨.some (ihA _ rfl hA k).1, (ihA _ rfl hA k).2⟩
          simp only [Term.replace, hann.2, htk]
          split
          · exact ⟨.abst hx hA ht, rfl⟩
          · exact ⟨.abst hx hann.1 ht', rfl⟩
  | mvar m as ih =>
      cases h with
      | @mvar _ _ bs h =>
          have hargs : List.Forall₂ (Like L) (replaceArgs ρ k as).result (replaceArgs τ k bs).result
              ∧ (replaceArgs ρ k as).kept = (replaceArgs τ k bs).kept := by
            induction h with
            | nil => exact ⟨.nil, rfl⟩
            | cons ha _ ihargs =>
                obtain ⟨ha', hak⟩ := ih _ (List.mem_cons_self ..) ha k
                obtain ⟨hargs', hargsk⟩ := ihargs fun a ha => ih a (List.mem_cons_of_mem _ ha)
                rw [replaceArgs, replaceArgs, hak, hargsk]
                exact ⟨.cons ha' hargs', rfl⟩
          simp only [Term.replace, hargs.2]
          split
          · exact ⟨.mvar h, rfl⟩
          · exact ⟨.mvar hargs.1, rfl⟩

theorem Like.lift (h : t.Like L u) (k : Nat) : (t.lift k).Like L (u.lift k) := by
  unfold Term.lift shift
  split
  · exact h
  · refine (Like.replace ?_ h 0).1
    intro n _ x y hx
    exact .bvar hx

theorem Like.subst {a b : Term} (h : t.Like L u) (hab : a.Like L b) :
    (t.subst a).Like L (u.subst b) := by
  unfold Term.subst
  rw [substAt_eq, substAt_eq]
  refine (Like.replace ?_ h 0).1
  intro n k x y hx
  unfold substitution
  split
  · exact hab.lift _
  · exact .bvar hx

end Term

/-! ## Layers -/

/-- Terms that are alike are so layer by layer, and under binders as well. -/
def Likeness.simulation (L : Likeness) : Simulation where
  World := Unit
  under := id
  rel _ := Term.Like L
  symbol := L.symbol
  var _ m n := m = n
  name := L.name
  layer := by
    intro w t u
    constructor
    · intro h
      cases h <;> constructor <;> first | rfl | assumption
    · intro h
      cases h with
      | bvar hn hx => exact hn ▸ .bvar hx
      | _ => constructor <;> assumption
  symbol_inj := L.symbol_inj
  var_inj := by
    rintro w m _ m' _ rfl rfl
    rfl
  var_bound _ := rfl
  unnamed := L.unnamed
  lift h := h.lift 1
  subst ht ha := ht.subst ha

namespace Term

variable {L : Likeness} {t u : Term}

theorem Like.apply (h : t.Like L u) {as bs : List Term} (hargs : List.Forall₂ (Like L) as bs) :
    (t.apply as).Like L (u.apply bs) :=
  L.simulation.apply (w := ()) h hargs

theorem Like.unapply (h : t.Like L u) :
    t.unapply.1.Like L u.unapply.1 ∧ List.Forall₂ (Like L) t.unapply.2 u.unapply.2 :=
  L.simulation.unapply (w := ()) h

end Term

/-! ## Bindings -/

/-- Like terms, bound in the same way. -/
structure Binding.Like (L : Likeness) (b c : Binding) : Prop where
  term : b.term.Like L c.term
  depth : b.depth = c.depth
  positions : b.positions = c.positions

section

variable {L : Likeness}

theorem Binding.Like.valid {b c : Binding} (h : b.Like L c) : b.valid = c.valid := by
  rw [Binding.valid, Binding.valid, h.depth, h.positions, h.term.allFree]

theorem Binding.Like.instantiate {b c : Binding} (h : b.Like L c) {as bs : List Term}
    (hargs : List.Forall₂ (Term.Like L) as bs) (k : Nat) :
    (b.instantiate as k).Like L (c.instantiate bs k) := by
  unfold Binding.instantiate
  rw [h.depth]
  split
  · exact h.term.lift k
  · refine (Term.Like.replace ?_ h.term 0).1
    intro n l x y hx
    simp only [Binding.replacement, h.depth, h.positions]
    split
    · cases c.positions.getD (n - l) none with
      | none => exact .bvar hx
      | some i =>
          have hi := forall₂_getElem? hargs i
          simp only [Option.bind_some]
          generalize as[i]? = a, bs[i]? = b at hi
          cases hi with
          | none => exact .bvar hx
          | some hab => exact hab.lift l
    · exact .bvar hx

/-- The same meta-variables, bound to like terms. -/
def Bindings.Like (L : Likeness) (θ η : Bindings) : Prop :=
  List.Forall₂ (fun p q => p.1 = q.1 ∧ p.2.Like L q.2) θ η

theorem Bindings.Like.lookup {θ η : Bindings} (h : Bindings.Like L θ η) (X : MetaName) :
    Option.Rel (Binding.Like L) (θ.lookup X) (η.lookup X) :=
  forall₂_lookup (R := fun _ => Binding.Like L) h X

theorem Bindings.Like.fill {θ η : Bindings} (h : Bindings.Like L θ η) {t u : Term}
    (htu : t.Like L u) (c : Nat) : (t.fill θ c).Like L (u.fill η c) := by
  induction t generalizing u c with
  | kind | type | symb | bvar | joker =>
      cases htu
      constructor <;> assumption
  | appl f a ihf iha =>
      cases htu with
      | appl hf ha => exact .appl (ihf hf c) (iha ha c)
  | prod x A B ihA ihB =>
      cases htu with
      | prod hx hA hB => exact .prod hx (ihA hA c) (ihB hB (c + 1))
  | abst x A t ihA iht =>
      cases htu with
      | abst hx hA ht =>
          refine .abst hx ?_ (iht ht (c + 1))
          cases hA with
          | none => exact .none
          | some hA => exact .some (ihA _ rfl hA c)
  | mvar m args ih =>
      cases htu with
      | @mvar _ _ args' hargs =>
          have hfilled : List.Forall₂ (Term.Like L) (Term.fillArgs θ c args)
              (Term.fillArgs η c args') := by
            induction hargs with
            | nil => exact .nil
            | cons ha _ ihargs =>
                refine .cons (ih _ (List.mem_cons_self ..) ha c) (ihargs ?_)
                exact fun a ha => ih a (List.mem_cons_of_mem _ ha)
          have hbound : Option.Rel (Binding.Like L) (m.bind fun X => θ.lookup X)
              (m.bind fun X => η.lookup X) := by
            cases m with
            | none => exact .none
            | some X => exact h.lookup X
          rw [Term.fill, Term.fill]
          generalize (m.bind fun X => θ.lookup X) = b, (m.bind fun X => η.lookup X) = b' at hbound
          cases hbound with
          | none => exact .mvar hfilled
          | some hbound => exact hbound.instantiate hfilled c

end

end LambdaPi
