import LambdaPi.Proofs.Bindings
import LambdaPi.Proofs.Spines

/-!
# Matching one pattern against one term

What it means for a term to match a pattern, said without decision trees: the pattern is compared
with the term from the outside in, and terms are reduced where the pattern is rigid. The relation
also collects what the named meta-variables are bound to.

How terms are reduced is left open. A `View` says what the weak head normal forms of a term are, and
as what a term may be bound to a meta-variable; the second need not be the term as it stands, since
variables it must not depend on may disappear when it is reduced.

`MatchesAll` matches a list of patterns against a list of terms, each under its own number of
pattern variables, which is what a row of a matrix does to the columns.
-/

namespace LambdaPi

/-- How matching sees terms. -/
structure View where
  /-- the second term is a weak head normal form of the first -/
  whnf : Term → Term → Prop
  /-- the first term may be bound as the second -/
  settles : Term → Term → Prop

/-- A term that stands under `d` variables of the pattern matches a pattern, with bindings. -/
inductive Matches (V : View) : Nat → Term → Term → Bindings → Prop
  | joker {d t} : Matches V d .joker t []
  | unnamed {d args t} : Matches V d (.mvar none args) t []
  | named {d X args t u positions} : V.settles t u → localPositions args d = .ok positions →
      u.usesOnly args d = true → Matches V d (.mvar (some X) args) t [(X, ⟨u, d, positions⟩)]
  | abst {d x A p t y B u θ} : V.whnf t (.abst y B u) → Matches V (d + 1) p u θ →
      Matches V d (.abst x A p) t θ
  | symb {d p t u s ps ts} {θs : List Bindings} : p.unapply = (.symb s, ps) → V.whnf t u →
      u.unapply = (.symb s, ts) → ps.length = ts.length → ps.length = θs.length →
      (∀ (i : Nat) (q v : Term) (θ : Bindings), ps[i]? = some q → ts[i]? = some v →
        θs[i]? = some θ → Matches V d q v θ) →
      Matches V d p t θs.flatten
  | bvar {d p t u n x y ps ts} {θs : List Bindings} : p.unapply = (.bvar n x, ps) → V.whnf t u →
      u.unapply = (.bvar n y, ts) → ps.length = ts.length → ps.length = θs.length →
      (∀ (i : Nat) (q v : Term) (θ : Bindings), ps[i]? = some q → ts[i]? = some v →
        θs[i]? = some θ → Matches V d q v θ) →
      Matches V d p t θs.flatten

/-- Terms match patterns one by one, each under its own number of pattern variables. -/
inductive MatchesAll (V : View) : List Nat → List Term → List Term → Bindings → Prop
  | nil : MatchesAll V [] [] [] []
  | cons {d p t θ ds ps ts θs} : Matches V d p t θ → MatchesAll V ds ps ts θs →
      MatchesAll V (d :: ds) (p :: ps) (t :: ts) (θ ++ θs)

/-- The same bindings, perhaps in another order. -/
def SameBindings (θ θ' : Bindings) : Prop :=
  ∀ b, b ∈ θ ↔ b ∈ θ'

namespace SameBindings

theorem refl (θ : Bindings) : SameBindings θ θ := fun _ => Iff.rfl

theorem symm {θ θ' : Bindings} (h : SameBindings θ θ') : SameBindings θ' θ :=
  fun b => (h b).symm

end SameBindings

/-! ## Lists of patterns -/

theorem Matches.eq_nil_of_joker {V : View} {d : Nat} {t : Term} {θ : Bindings}
    (h : Matches V d .joker t θ) : θ = [] := by
  cases h with
  | joker => rfl
  | symb hp => cases hp
  | bvar hp => cases hp

namespace MatchesAll

variable {V : View}

theorem lengths {ds : List Nat} {ps ts : List Term} {θ : Bindings} (h : MatchesAll V ds ps ts θ) :
    ds.length = ps.length ∧ ts.length = ps.length := by
  induction h with
  | nil => exact ⟨rfl, rfl⟩
  | cons _ _ ih => exact ⟨congrArg (· + 1) ih.1, congrArg (· + 1) ih.2⟩

theorem append {ds ds' : List Nat} {ps ps' ts ts' : List Term} {θ θ' : Bindings}
    (h : MatchesAll V ds ps ts θ) (h' : MatchesAll V ds' ps' ts' θ') :
    MatchesAll V (ds ++ ds') (ps ++ ps') (ts ++ ts') (θ ++ θ') := by
  induction h with
  | nil => exact h'
  | cons hp _ ih =>
      rw [List.append_assoc]
      exact .cons hp ih

theorem append_inv {ds ds' : List Nat} {ps ps' ts ts' : List Term} {θ : Bindings}
    (hds : ds.length = ps.length) (hts : ts.length = ps.length)
    (h : MatchesAll V (ds ++ ds') (ps ++ ps') (ts ++ ts') θ) :
    ∃ θ₁ θ₂, θ = θ₁ ++ θ₂ ∧ MatchesAll V ds ps ts θ₁ ∧ MatchesAll V ds' ps' ts' θ₂ := by
  induction ps generalizing ds ts θ with
  | nil =>
      obtain rfl := List.eq_nil_of_length_eq_zero hds
      obtain rfl := List.eq_nil_of_length_eq_zero hts
      exact ⟨[], θ, rfl, .nil, h⟩
  | cons p ps ih =>
      cases ds with
      | nil => cases hds
      | cons d ds =>
          cases ts with
          | nil => cases hts
          | cons t ts =>
              cases h with
              | cons hp hrest =>
                  obtain ⟨θ₁, θ₂, rfl, h₁, h₂⟩ :=
                    ih (Nat.succ.inj hds) (Nat.succ.inj hts) hrest
                  exact ⟨_ ++ θ₁, θ₂, (List.append_assoc ..).symm, .cons hp h₁, h₂⟩

theorem cons_joker {d : Nat} {t : Term} {ds : List Nat} {ps ts : List Term} {θ : Bindings}
    (h : MatchesAll V ds ps ts θ) : MatchesAll V (d :: ds) (.joker :: ps) (t :: ts) θ :=
  .cons .joker h

theorem jokers {ds : List Nat} {ts : List Term} {n : Nat} (hds : ds.length = n)
    (hts : ts.length = n) : MatchesAll V ds (List.replicate n .joker) ts [] := by
  induction n generalizing ds ts with
  | zero =>
      obtain rfl := List.eq_nil_of_length_eq_zero hds
      obtain rfl := List.eq_nil_of_length_eq_zero hts
      exact .nil
  | succ n ih =>
      cases ds with
      | nil => cases hds
      | cons d ds =>
          cases ts with
          | nil => cases hts
          | cons t ts =>
              exact cons_joker (ih (Nat.succ.inj hds) (Nat.succ.inj hts))

theorem eq_nil_of_jokers {ds : List Nat} {ts : List Term} {n : Nat} {θ : Bindings}
    (h : MatchesAll V ds (List.replicate n .joker) ts θ) : θ = [] := by
  induction n generalizing ds ts θ with
  | zero => cases h; rfl
  | succ n ih =>
      rw [List.replicate_succ] at h
      cases h with
      | cons hp hrest =>
          rw [hp.eq_nil_of_joker, ih hrest]
          rfl

theorem reverse {ds : List Nat} {ps ts : List Term} {θ : Bindings}
    (h : MatchesAll V ds ps ts θ) :
    ∃ θ', MatchesAll V ds.reverse ps.reverse ts.reverse θ' ∧ SameBindings θ' θ := by
  induction h with
  | nil => exact ⟨[], .nil, .refl _⟩
  | @cons d p t θ ds ps ts θs hp _ ih =>
      obtain ⟨θ', hrest, hsame⟩ := ih
      simp only [List.reverse_cons]
      refine ⟨θ' ++ (θ ++ []), hrest.append (.cons hp .nil), fun b => ?_⟩
      simp only [List.append_nil, List.mem_append, hsame b]
      exact Or.comm

/-- Matching position by position is matching the lists. -/
theorem of_getElem? {d : Nat} {ps ts : List Term} {θs : List Bindings}
    (hts : ps.length = ts.length) (hθs : ps.length = θs.length)
    (h : ∀ (i : Nat) (q v : Term) (θ : Bindings), ps[i]? = some q → ts[i]? = some v →
      θs[i]? = some θ → Matches V d q v θ) :
    MatchesAll V (List.replicate ps.length d) ps ts θs.flatten := by
  induction ps generalizing ts θs with
  | nil =>
      obtain rfl := List.eq_nil_of_length_eq_zero hts.symm
      obtain rfl := List.eq_nil_of_length_eq_zero hθs.symm
      exact .nil
  | cons p ps ih =>
      cases ts with
      | nil => cases hts
      | cons t ts =>
          cases θs with
          | nil => cases hθs
          | cons θ θs =>
              exact .cons (h 0 p t θ rfl rfl rfl)
                (ih (Nat.succ.inj hts) (Nat.succ.inj hθs) fun i q v θ hq hv hθ =>
                  h (i + 1) q v θ hq hv hθ)

theorem getElem? {d n : Nat} {ps ts : List Term} {θ : Bindings}
    (h : MatchesAll V (List.replicate n d) ps ts θ) :
    ∃ θs, θ = List.flatten θs ∧ ps.length = ts.length ∧ ps.length = θs.length
      ∧ ∀ (i : Nat) (q v : Term) (θ : Bindings), ps[i]? = some q → ts[i]? = some v →
        θs[i]? = some θ → Matches V d q v θ := by
  induction n generalizing ps ts θ with
  | zero =>
      cases h
      exact ⟨[], rfl, rfl, rfl, nofun⟩
  | succ n ih =>
      rw [List.replicate_succ] at h
      cases h with
      | @cons _ p t θ _ ps ts θ' hp hrest =>
          obtain ⟨θs, rfl, hts, hθs, hall⟩ := ih hrest
          refine ⟨θ :: θs, rfl, congrArg (· + 1) hts, congrArg (· + 1) hθs, ?_⟩
          intro i q v η hq hv hη
          cases i with
          | zero =>
              obtain rfl := Option.some.inj hq
              obtain rfl := Option.some.inj hv
              obtain rfl := Option.some.inj hη
              exact hp
          | succ i => exact hall i q v η hq hv hη

theorem reversed_args {d n : Nat} {ps ts : List Term} {θ : Bindings}
    (h : MatchesAll V (List.replicate n d) ps.reverse ts.reverse θ) :
    ∃ θs, SameBindings (List.flatten θs) θ ∧ ps.length = ts.length ∧ ps.length = θs.length
      ∧ ∀ (i : Nat) (q v : Term) (θ : Bindings), ps[i]? = some q → ts[i]? = some v →
        θs[i]? = some θ → Matches V d q v θ := by
  obtain ⟨θ', hall, hsame⟩ := h.reverse
  simp only [List.reverse_reverse, List.reverse_replicate] at hall
  obtain ⟨θs, rfl, hargs⟩ := hall.getElem?
  exact ⟨θs, hsame, hargs⟩

/-- One column taken out of the lists. What is left does not depend on the term there. -/
theorem extract {ds : List Nat} {ps ts : List Term} {θ : Bindings} (h : MatchesAll V ds ps ts θ)
    {j d : Nat} {p t : Term} (hd : ds[j]? = some d) (hp : ps[j]? = some p) (ht : ts[j]? = some t) :
    ∃ θ₁ θ₂, Matches V d p t θ₁
      ∧ (∀ u, MatchesAll V ds (ps.set j .joker) (ts.set j u) θ₂)
      ∧ SameBindings θ (θ₁ ++ θ₂) := by
  induction h generalizing j with
  | nil => cases hd
  | @cons d' p' t' θ ds ps ts θs hp' hrest ih =>
      cases j with
      | zero =>
          obtain rfl := Option.some.inj hd
          obtain rfl := Option.some.inj hp
          obtain rfl := Option.some.inj ht
          exact ⟨θ, θs, hp', fun u => cons_joker hrest, .refl _⟩
      | succ j =>
          obtain ⟨θ₁, θ₂, h₁, h₂, hsame⟩ := ih hd hp ht
          refine ⟨θ₁, θ ++ θ₂, h₁, fun u => .cons hp' (h₂ u), fun b => ?_⟩
          simp only [List.mem_append, hsame b]
          exact or_left_comm

/-- One column put back. -/
theorem insert {ds : List Nat} {ps ts : List Term} {j d : Nat} {p t u : Term} {θ₁ θ₂ : Bindings}
    (h : MatchesAll V ds (ps.set j .joker) (ts.set j u) θ₂) (hd : ds[j]? = some d)
    (hp : ps[j]? = some p) (ht : ts[j]? = some t) (hpt : Matches V d p t θ₁) :
    ∃ θ, MatchesAll V ds ps ts θ ∧ SameBindings θ (θ₁ ++ θ₂) := by
  induction ps generalizing ds ts j θ₂ with
  | nil => cases hp
  | cons p' ps ih =>
      cases ts with
      | nil => cases ht
      | cons t' ts =>
          cases j with
          | zero =>
              obtain rfl := Option.some.inj hp
              obtain rfl := Option.some.inj ht
              cases h with
              | @cons d' _ _ θ₀ ds _ _ θs h₀ hrest =>
                  obtain rfl := Option.some.inj hd
                  obtain rfl := h₀.eq_nil_of_joker
                  exact ⟨_, .cons hpt hrest, .refl _⟩
          | succ j =>
              cases h with
              | @cons d' _ _ θ₀ ds _ _ θs h₀ hrest =>
                  obtain ⟨θ, hall, hsame⟩ := ih hrest hd hp ht
                  refine ⟨θ₀ ++ θ, .cons h₀ hall, fun b => ?_⟩
                  simp only [List.mem_append, hsame b]
                  exact or_left_comm

end MatchesAll

/-! ## Shapes

A switch of a decision tree looks at the shape of a term and at its parts; that a rigid pattern
matches is said in these words too. -/

namespace Term

theorem shape?_cases {t : Term} {shape : Shape} {parts : List Term}
    (h : t.shape? = some (shape, parts)) :
    (∃ x A body, t = .abst x A body ∧ shape = .abst ∧ parts = [body])
      ∨ (∃ s args, t.unapply = (.symb s, args) ∧ shape = .symb s args.length
        ∧ parts = args.reverse)
      ∨ ∃ n x args, t.unapply = (.bvar n x, args) ∧ shape = .bvar n args.length
        ∧ parts = args.reverse := by
  unfold shape? at h
  split at h
  · next x A body =>
    obtain ⟨rfl, rfl⟩ := Prod.mk.inj (Option.some.inj h)
    exact Or.inl ⟨x, A, body, rfl, rfl, rfl⟩
  · split at h
    · next s args hargs =>
      obtain ⟨rfl, rfl⟩ := Prod.mk.inj (Option.some.inj h)
      exact Or.inr (Or.inl ⟨s, args, hargs, rfl, rfl⟩)
    · next n x args hargs =>
      obtain ⟨rfl, rfl⟩ := Prod.mk.inj (Option.some.inj h)
      exact Or.inr (Or.inr ⟨n, x, args, hargs, rfl, rfl⟩)
    · cases h

theorem shape?_of_symb {t : Term} {s : Symbol} {args : List Term}
    (h : t.unapply = (.symb s, args)) : t.shape? = some (.symb s args.length, args.reverse) := by
  cases t with
  | abst x A body => cases h
  | _ => simp only [shape?, h]

theorem shape?_of_bvar {t : Term} {n : Nat} {x : Option String} {args : List Term}
    (h : t.unapply = (.bvar n x, args)) : t.shape? = some (.bvar n args.length, args.reverse) := by
  cases t with
  | abst x A body => cases h
  | _ => simp only [shape?, h]

theorem length_of_shape? {t : Term} {shape : Shape} {parts : List Term}
    (h : t.shape? = some (shape, parts)) : parts.length = shape.width := by
  rcases shape?_cases h with ⟨x, A, body, -, rfl, rfl⟩ | ⟨s, args, -, rfl, rfl⟩
    | ⟨n, x, args, -, rfl, rfl⟩
  · rfl
  · exact List.length_reverse
  · exact List.length_reverse

end Term

namespace Matches

variable {V : View} {d : Nat} {p t : Term} {shape : Shape} {ps : List Term}

/-- A rigid pattern matches if the weak head normal form has its shape and the parts match. -/
theorem of_shape (hp : p.shape? = some (shape, ps)) {u : Term} {ts : List Term} {θ : Bindings}
    (ht : V.whnf t u) (hu : u.shape? = some (shape, ts))
    (h : MatchesAll V (List.replicate shape.width (shape.depthInside d)) ps ts θ) :
    ∃ θ', Matches V d p t θ' ∧ SameBindings θ' θ := by
  rcases Term.shape?_cases hp with ⟨x, A, q, rfl, rfl, rfl⟩ | ⟨s, as, has, rfl, rfl⟩
    | ⟨n, x, as, has, rfl, rfl⟩
  · rcases Term.shape?_cases hu with ⟨y, B, v, rfl, -, rfl⟩ | ⟨_, _, _, hshape, _⟩
      | ⟨_, _, _, _, hshape, _⟩
    · cases h with
      | cons hq hrest =>
          cases hrest
          refine ⟨_, .abst ht hq, ?_⟩
          rw [List.append_nil]
          exact .refl _
    · cases hshape
    · cases hshape
  · rcases Term.shape?_cases hu with ⟨_, _, _, _, hshape, _⟩ | ⟨s', bs, hbs, hshape, rfl⟩
      | ⟨_, _, _, _, hshape, _⟩
    · cases hshape
    · obtain ⟨rfl, -⟩ := Shape.symb.inj hshape
      obtain ⟨θs, hsame, hts, hθs, hmatch⟩ := h.reversed_args
      exact ⟨_, .symb has ht hbs hts hθs hmatch, hsame⟩
    · cases hshape
  · rcases Term.shape?_cases hu with ⟨_, _, _, _, hshape, _⟩ | ⟨_, _, _, hshape, _⟩
      | ⟨n', y, bs, hbs, hshape, rfl⟩
    · cases hshape
    · cases hshape
    · obtain ⟨rfl, -⟩ := Shape.bvar.inj hshape
      obtain ⟨θs, hsame, hts, hθs, hmatch⟩ := h.reversed_args
      exact ⟨_, .bvar has ht hbs hts hθs hmatch, hsame⟩

/-- The only way in which a rigid pattern matches. -/
theorem of_rigid (hp : p.shape? = some (shape, ps)) {θ : Bindings} (h : Matches V d p t θ) :
    ∃ u ts θ', V.whnf t u ∧ u.shape? = some (shape, ts)
      ∧ MatchesAll V (List.replicate shape.width (shape.depthInside d)) ps ts θ'
      ∧ SameBindings θ θ' := by
  cases h with
  | joker | unnamed | named => cases hp
  | @abst _ x A q _ y B u θ ht hq =>
      obtain ⟨rfl, rfl⟩ := Prod.mk.inj (Option.some.inj hp)
      refine ⟨_, [u], θ ++ [], ht, rfl, .cons hq .nil, ?_⟩
      rw [List.append_nil]
      exact .refl _
  | @symb _ _ _ u s as bs θs has ht hbs hts hθs hmatch =>
      obtain ⟨rfl, rfl⟩ := Prod.mk.inj (Option.some.inj ((Term.shape?_of_symb has).symm.trans hp))
      obtain ⟨θ', hall, hsame⟩ := (MatchesAll.of_getElem? hts hθs hmatch).reverse
      rw [List.reverse_replicate] at hall
      exact ⟨u, bs.reverse, θ', ht, by rw [Term.shape?_of_symb hbs, hts], hall, hsame.symm⟩
  | @bvar _ _ _ u n x y as bs θs has ht hbs hts hθs hmatch =>
      obtain ⟨rfl, rfl⟩ := Prod.mk.inj (Option.some.inj ((Term.shape?_of_bvar has).symm.trans hp))
      obtain ⟨θ', hall, hsame⟩ := (MatchesAll.of_getElem? hts hθs hmatch).reverse
      rw [List.reverse_replicate] at hall
      exact ⟨u, bs.reverse, θ', ht, by rw [Term.shape?_of_bvar hbs, hts], hall, hsame.symm⟩

end Matches

/-! ## Laws of views -/

namespace View

/-- Reducing a term further does not show more than the term. -/
structure Lawful (V : View) : Prop where
  keep : ∀ t, V.settles t t
  fixed : ∀ {t u}, V.whnf t u → V.whnf u u
  trans : ∀ {t u v}, V.whnf t u → V.whnf u v → V.whnf t v
  settle : ∀ {t u v}, V.whnf t u → V.settles u v → V.settles t v

/-- Reducing a term does not show less of it either. -/
structure Exact (V : View) : Prop extends V.Lawful where
  unique : ∀ {t u v}, V.whnf t u → V.whnf t v → u = v
  later : ∀ {t u v}, V.whnf t u → V.settles t v →
    ∃ w, V.settles u w ∧ ∀ q, v.allFree q 0 = true → w.allFree q 0 = true

end View

/-- What a reduced term matches, the term matches. -/
theorem Matches.of_whnf {V : View} (hV : V.Lawful) {d : Nat} {p t u : Term} {θ : Bindings}
    (ht : V.whnf t u) (h : Matches V d p u θ) : Matches V d p t θ := by
  cases h with
  | joker => exact .joker
  | unnamed => exact .unnamed
  | named hu hargs hv => exact .named (hV.settle ht hu) hargs hv
  | abst hu hq => exact .abst (hV.trans ht hu) hq
  | symb hp hu hargs hts hθs hmatch => exact .symb hp (hV.trans ht hu) hargs hts hθs hmatch
  | bvar hp hu hargs hts hθs hmatch => exact .bvar hp (hV.trans ht hu) hargs hts hθs hmatch

/-- What a term matches, it matches after reduction, perhaps with other bindings. -/
theorem Matches.whnf {V : View} (hV : V.Exact) {d : Nat} {p t u : Term} {θ : Bindings}
    (ht : V.whnf t u) (h : Matches V d p t θ) : ∃ θ', Matches V d p u θ' := by
  cases h with
  | joker => exact ⟨_, .joker⟩
  | unnamed => exact ⟨_, .unnamed⟩
  | named hv hargs huses =>
      obtain ⟨w, hw, hfree⟩ := hV.later ht hv
      exact ⟨_, .named hw hargs (hfree _ huses)⟩
  | abst hu hq =>
      obtain rfl := hV.unique ht hu
      exact ⟨_, .abst (hV.fixed ht) hq⟩
  | symb hp hu hargs hts hθs hmatch =>
      obtain rfl := hV.unique ht hu
      exact ⟨_, .symb hp (hV.fixed ht) hargs hts hθs hmatch⟩
  | bvar hp hu hargs hts hθs hmatch =>
      obtain rfl := hV.unique ht hu
      exact ⟨_, .bvar hp (hV.fixed ht) hargs hts hθs hmatch⟩

/-- Reducing one column. -/
theorem MatchesAll.of_whnf {V : View} (hV : V.Lawful) {ds : List Nat} {ps ts : List Term}
    {θ : Bindings} {j : Nat} {t u : Term} (ht : ts[j]? = some t) (htu : V.whnf t u)
    (h : MatchesAll V ds ps (ts.set j u) θ) : MatchesAll V ds ps ts θ := by
  induction ts generalizing ds ps θ j with
  | nil => cases ht
  | cons t' ts ih =>
      cases j with
      | zero =>
          obtain rfl := Option.some.inj ht
          cases h with
          | cons hp hrest => exact .cons (hp.of_whnf hV htu) hrest
      | succ j =>
          cases h with
          | cons hp hrest => exact .cons hp (ih ht hrest)

theorem MatchesAll.whnf {V : View} (hV : V.Exact) {ds : List Nat} {ps ts : List Term}
    {θ : Bindings} {j : Nat} {t u : Term} (ht : ts[j]? = some t) (htu : V.whnf t u)
    (h : MatchesAll V ds ps ts θ) : ∃ θ', MatchesAll V ds ps (ts.set j u) θ' := by
  induction h generalizing j with
  | nil => cases ht
  | cons hp hrest ih =>
      cases j with
      | zero =>
          obtain rfl := Option.some.inj ht
          obtain ⟨θ', hp'⟩ := hp.whnf hV htu
          exact ⟨_, .cons hp' hrest⟩
      | succ j =>
          obtain ⟨θ', hrest'⟩ := ih ht
          exact ⟨_, .cons hp hrest'⟩

/-! ## What meta-variables are bound to -/

/-- A binding of a meta-variable that is applied to the given arguments: it depends on no other
variables of the pattern. -/
structure Binding.MatchedBy (b : Binding) (args : List Term) : Prop where
  positions : localPositions args b.depth = .ok b.positions
  valid : b.valid = true

theorem Binding.MatchedBy.arity {b : Binding} {args : List Term} (h : b.MatchedBy args) :
    b.arity = args.length :=
  localPositions_countP h.positions

/-- A binding of an application comes from one of the arguments. -/
theorem mem_flatten_args {ps ts : List Term} {θs : List Bindings} {b : MetaName × Binding}
    (hts : ps.length = ts.length) (hθs : ps.length = θs.length) (hb : b ∈ θs.flatten) :
    ∃ (i : Nat) (p t : Term) (θ : Bindings), ps[i]? = some p ∧ ts[i]? = some t
      ∧ θs[i]? = some θ ∧ b ∈ θ := by
  obtain ⟨θ, hθ, hb⟩ := List.mem_flatten.mp hb
  obtain ⟨i, hi⟩ := List.mem_iff_getElem?.mp hθ
  have hlt : i < ps.length := hθs ▸ (List.getElem?_eq_some_iff.mp hi).1
  exact ⟨i, _, _, θ, List.getElem?_eq_getElem hlt, List.getElem?_eq_getElem (hts ▸ hlt), hi, hb⟩

theorem Matches.occurrence {V : View} {d : Nat} {p t : Term} {θ : Bindings}
    (h : Matches V d p t θ) {X : MetaName} {b : Binding} (hb : (X, b) ∈ θ) :
    ∃ args, .mvar (some X) args ∈ p.subterms ∧ b.MatchedBy args := by
  induction h with
  | joker | unnamed => cases hb
  | @named d X' args t u positions _ hpositions huses =>
      obtain ⟨rfl, rfl⟩ := Prod.mk.inj (List.mem_singleton.mp hb)
      exact ⟨args, Term.mem_subterms_self _, hpositions,
        (Binding.valid_eq_usesOnly hpositions u).trans huses⟩
  | abst _ _ ih =>
      obtain ⟨args, hargs, hmatched⟩ := ih hb
      exact ⟨args, Term.mem_subterms_abst_body hargs _ _, hmatched⟩
  | symb hp _ _ hts hθs _ ih =>
      obtain ⟨i, q, v, θ, hq, hv, hθ, hb⟩ := mem_flatten_args hts hθs hb
      obtain ⟨args, hargs, hmatched⟩ := ih i q v θ hq hv hθ hb
      exact ⟨args, Term.mem_subterms_of_unapply hp (List.mem_of_getElem? hq) hargs, hmatched⟩
  | bvar hp _ _ hts hθs _ ih =>
      obtain ⟨i, q, v, θ, hq, hv, hθ, hb⟩ := mem_flatten_args hts hθs hb
      obtain ⟨args, hargs, hmatched⟩ := ih i q v θ hq hv hθ hb
      exact ⟨args, Term.mem_subterms_of_unapply hp (List.mem_of_getElem? hq) hargs, hmatched⟩

theorem MatchesAll.occurrence {V : View} {ds : List Nat} {ps ts : List Term} {θ : Bindings}
    (h : MatchesAll V ds ps ts θ) {X : MetaName} {b : Binding} (hb : (X, b) ∈ θ) :
    ∃ p ∈ ps, ∃ args, .mvar (some X) args ∈ p.subterms ∧ b.MatchedBy args := by
  induction h with
  | nil => cases hb
  | cons hp _ ih =>
      rcases List.mem_append.mp hb with hb | hb
      · exact ⟨_, List.mem_cons_self .., hp.occurrence hb⟩
      · obtain ⟨p, hp, hargs⟩ := ih hb
        exact ⟨p, List.mem_cons_of_mem _ hp, hargs⟩

end LambdaPi
