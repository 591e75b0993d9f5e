import LambdaPi.Proofs.FreeVariables
import LambdaPi.Proofs.RegularRules
import LambdaPi.Rules.Signature

/-!
# Conversion

The equality of terms that a signature declares, said without any algorithm. `Signature.Conv` is the
least equivalence that is a congruence for every term constructor and contains beta, every instance
of every rule, the irrelevance of annotations and, if the signature says so, eta. Terms that differ
in display names only are related.

An instance of a rule is given by a `Valuation`, which maps each meta-variable with `m` arguments to
a term with `m` holes. On the left-hand side each joker and each unnamed meta-variable may be filled
freely, which makes instances of it a relation (`Instance`); the right-hand side has one instance
(`Term.valuate`). A meta-variable that has no value is left as it is.

Conversion is stable under simultaneous substitution: `Signature.Conv.inst`.
-/

namespace LambdaPi

/-! ## Instances of rules -/

/-- A term with holes, which are its `holes` innermost variables. -/
structure Holed where
  holes : Nat
  body : Term

namespace Holed

/-- Put terms that stand under `c` binders in the holes. -/
def fill (h : Holed) (args : List Term) (c : Nat) : Term :=
  h.body.inst fun n x =>
    if n < h.holes then args.getD n (.bvar n x) else .bvar (n - h.holes + c) x

/-- Replace the variables of a term with holes other than the holes. -/
def inst (ρ : Assignment) (h : Holed) : Holed :=
  ⟨h.holes, h.body.inst (ρ.under h.holes)⟩

end Holed

/-- Terms for meta-variables. -/
abbrev Valuation := MetaName → Option Holed

namespace Valuation

/-- Only meta-variables of the term have values, and a meta-variable with `m` arguments has a value
with `m` holes. -/
def Fits (θ : Valuation) (t : Term) : Prop :=
  ∀ X h, θ X = some h → (∃ args, .mvar (some X) args ∈ t.subterms)
    ∧ ∀ args, .mvar (some X) args ∈ t.subterms → args.length = h.holes

/-- Replace the variables of all values. -/
def inst (ρ : Assignment) (θ : Valuation) : Valuation :=
  fun X => (θ X).map (Holed.inst ρ)

end Valuation

namespace Term

mutual

/-- Put the values of its meta-variables in a term that stands under `c` binders. -/
def valuate (θ : Valuation) (c : Nat) : Term → Term
  | appl f a => appl (f.valuate θ c) (a.valuate θ c)
  | prod x A B => prod x (A.valuate θ c) (B.valuate θ (c + 1))
  | abst x A t => abst x (valuateAnn θ c A) (t.valuate θ (c + 1))
  | mvar m args =>
    match m.bind θ with
    | some h => h.fill (valuateArgs θ c args) c
    | none => mvar m (valuateArgs θ c args)
  | t => t

def valuateAnn (θ : Valuation) (c : Nat) : Option Term → Option Term
  | none => none
  | some A => some (A.valuate θ c)

def valuateArgs (θ : Valuation) (c : Nat) : List Term → List Term
  | [] => []
  | t :: ts => t.valuate θ c :: valuateArgs θ c ts

end

theorem valuateAnn_eq_map (θ : Valuation) (c : Nat) (A : Option Term) :
    valuateAnn θ c A = A.map (valuate θ c) := by
  cases A <;> rfl

theorem valuateArgs_eq_map (θ : Valuation) (c : Nat) (args : List Term) :
    valuateArgs θ c args = args.map (valuate θ c) := by
  induction args with
  | nil => rfl
  | cons a args ih => simp only [valuateArgs, ih, List.map_cons]

end Term

/-- Instances of a pattern that stands under `c` binders: its meta-variables have the given values,
jokers and unnamed meta-variables are filled freely. -/
inductive Instance (θ : Valuation) : Nat → Term → Term → Prop
  | kind {c} : Instance θ c .kind .kind
  | type {c} : Instance θ c .type .type
  | symb {c s} : Instance θ c (.symb s) (.symb s)
  | bvar {c n x} : Instance θ c (.bvar n x) (.bvar n x)
  | joker {c t} : Instance θ c .joker t
  | unnamed {c args t} : Instance θ c (.mvar none args) t
  | appl {c f a f' a'} : Instance θ c f f' → Instance θ c a a' →
      Instance θ c (.appl f a) (.appl f' a')
  | prod {c x A B A' B'} : Instance θ c A A' → Instance θ (c + 1) B B' →
      Instance θ c (.prod x A B) (.prod x A' B')
  | abst {c x A t A' t'} : A.isSome = A'.isSome →
      (∀ B B', A = some B → A' = some B' → Instance θ c B B') → Instance θ (c + 1) t t' →
      Instance θ c (.abst x A t) (.abst x A' t')
  | bound {c X h args args'} : θ X = some h → args.length = args'.length →
      (∀ (i : Nat) (a a' : Term), args[i]? = some a → args'[i]? = some a' → Instance θ c a a') →
      Instance θ c (.mvar (some X) args) (h.fill args' c)
  | unbound {c X args args'} : θ X = none → args.length = args'.length →
      (∀ (i : Nat) (a a' : Term), args[i]? = some a → args'[i]? = some a' → Instance θ c a a') →
      Instance θ c (.mvar (some X) args) (.mvar (some X) args')

/-! ## The relation -/

namespace Signature

/-- The rules of a symbol, in the order in which they were added. -/
def rulesOf (σ : Signature) (s : Symbol) : List Rule :=
  ((σ.ruleSet? s).getD {}).rules

/-- Conversion in a signature. -/
inductive Conv (σ : Signature) : Term → Term → Prop
  | names {t u} : t.nameless = u.nameless → Conv σ t u
  | symm {t u} : Conv σ t u → Conv σ u t
  | trans {t u v} : Conv σ t u → Conv σ u v → Conv σ t v
  | appl {f f' a a'} : Conv σ f f' → Conv σ a a' → Conv σ (.appl f a) (.appl f' a')
  | prod {x A A' B B'} : Conv σ A A' → Conv σ B B' → Conv σ (.prod x A B) (.prod x A' B')
  | abst {x A t t'} : Conv σ t t' → Conv σ (.abst x A t) (.abst x A t')
  | mvar {m args args'} : args.length = args'.length →
      (∀ (i : Nat) (a a' : Term), args[i]? = some a → args'[i]? = some a' → Conv σ a a') →
      Conv σ (.mvar m args) (.mvar m args')
  | beta {x A t u} : Conv σ (.appl (.abst x A t) u) (t.subst u)
  | rule {s rule θ t} : rule ∈ σ.rulesOf s → θ.Fits rule.lhs → Instance θ 0 rule.lhs t →
      Conv σ t (rule.rhs.valuate θ 0)
  | ann {x A t} : Conv σ (.abst x (some A) t) (.abst x none t)
  | eta {x t} : σ.eta = true →
      Conv σ (.abst x none (.appl (t.lift 1) (.bvar 0 none))) t

end Signature

/-! ## Instances and simultaneous substitution

A rule is closed, so the variables of an instance are those of the values: replacing them in the
instance is replacing them in the values. -/

theorem Holed.fill_inst (h : Holed) {args : List Term} (hlen : args.length = h.holes) (c : Nat)
    (ρ : Assignment) :
    (h.fill args c).inst (ρ.under c) = (h.inst ρ).fill (args.map (·.inst (ρ.under c))) c := by
  show (h.body.inst _).inst (ρ.under c) = (h.body.inst (ρ.under h.holes)).inst fun n x =>
    if n < h.holes then (args.map (·.inst (ρ.under c))).getD n (.bvar n x)
    else .bvar (n - h.holes + c) x
  rw [Term.inst_inst, Term.inst_inst]
  congr 1
  funext n x
  by_cases hn : n < h.holes
  · have hlt : n < args.length := by omega
    simp only [Assignment.under, hn, if_true, Term.inst_bvar]
    simp [List.getD_eq_getElem?_getD, hlt]
  · simp only [Assignment.under, hn, if_false, Term.inst_bvar, Term.lift_inst]
    rw [if_neg (by omega), show n - h.holes + c - c = n - h.holes by omega, Term.lift_eq_inst]
    congr 1
    funext m y
    rw [if_neg (by omega), show m + h.holes - h.holes = m by omega]

section

variable {θ : Valuation} (ρ : Assignment)

theorem Instance.inst {c : Nat} {p t : Term} (h : Instance θ c p t)
    (hclosed : p.allFree (fun _ => false) c = true)
    (harity : ∀ X args h, .mvar (some X) args ∈ p.subterms → θ X = some h →
      args.length = h.holes) :
    Instance (θ.inst ρ) c p (t.inst (ρ.under c)) := by
  induction h with
  | kind => exact .kind
  | type => exact .type
  | symb => exact .symb
  | @bvar c n x =>
      have hn : n < c := by simpa [Term.allFree] using hclosed
      rw [Term.inst_bvar, Assignment.under, if_pos hn]
      exact .bvar
  | joker => exact .joker
  | unnamed => exact .unnamed
  | appl _ _ ihf iha =>
      simp only [Term.allFree, Bool.and_eq_true] at hclosed
      exact .appl
        (ihf hclosed.1 fun X args h hX => harity X args h (Term.mem_subterms_appl_left hX _))
        (iha hclosed.2 fun X args h hX => harity X args h (Term.mem_subterms_appl_right hX _))
  | prod _ _ ihA ihB =>
      simp only [Term.allFree, Bool.and_eq_true] at hclosed
      rw [Term.inst_prod, Assignment.under_under]
      exact .prod
        (ihA hclosed.1 fun X args h hX => harity X args h (Term.mem_subterms_prod_left hX _ _))
        (ihB hclosed.2 fun X args h hX => harity X args h (Term.mem_subterms_prod_right hX _ _))
  | @abst c x A t A' t' hsome _ _ ihA iht =>
      simp only [Term.allFree, Bool.and_eq_true, Term.allFreeAnn_iff] at hclosed
      rw [Term.inst_abst, Assignment.under_under]
      refine .abst (by simpa using hsome) (fun B B' hB hB' => ?_)
        (iht hclosed.2 fun X args h hX => harity X args h (Term.mem_subterms_abst_body hX _ _))
      obtain ⟨C, hC, rfl⟩ := Option.map_eq_some_iff.mp hB'
      subst hB
      exact ihA B C rfl hC (hclosed.1 B rfl) fun X args h hX =>
        harity X args h (Term.mem_subterms_abst_ann hX _ _)
  | @bound c X h args args' hX hlen _ ih =>
      simp only [Term.allFree, Term.allFreeArgs_iff] at hclosed
      have hholes : args.length = h.holes := harity X args h (Term.mem_subterms_self _) hX
      rw [Holed.fill_inst h (by omega)]
      refine .bound (by rw [Valuation.inst, hX]; rfl) (by simpa using hlen)
        fun i a a' ha ha' => ?_
      rw [List.getElem?_map] at ha'
      obtain ⟨b, hb, rfl⟩ := Option.map_eq_some_iff.mp ha'
      exact ih i a b ha hb (hclosed a (List.mem_of_getElem? ha)) fun Y as h hY =>
        harity Y as h (Term.mem_subterms_mvar hY (List.mem_of_getElem? ha) _)
  | @unbound c X args args' hX hlen _ ih =>
      simp only [Term.allFree, Term.allFreeArgs_iff] at hclosed
      rw [Term.inst_mvar]
      refine .unbound (by rw [Valuation.inst, hX]; rfl) (by simpa using hlen)
        fun i a a' ha ha' => ?_
      rw [List.getElem?_map] at ha'
      obtain ⟨b, hb, rfl⟩ := Option.map_eq_some_iff.mp ha'
      exact ih i a b ha hb (hclosed a (List.mem_of_getElem? ha)) fun Y as h hY =>
        harity Y as h (Term.mem_subterms_mvar hY (List.mem_of_getElem? ha) _)

theorem Term.valuate_inst {c : Nat} {p : Term} (hclosed : p.allFree (fun _ => false) c = true)
    (harity : ∀ X args h, .mvar (some X) args ∈ p.subterms → θ X = some h →
      args.length = h.holes) :
    (p.valuate θ c).inst (ρ.under c) = p.valuate (θ.inst ρ) c := by
  induction p generalizing c with
  | kind | type | symb | joker => rfl
  | bvar n x =>
      have hn : n < c := by simpa [allFree] using hclosed
      simp only [valuate, inst_bvar, Assignment.under, if_pos hn]
  | appl f a ihf iha =>
      simp only [allFree, Bool.and_eq_true] at hclosed
      simp only [valuate, inst_appl,
        ihf hclosed.1 fun X args h hX => harity X args h (mem_subterms_appl_left hX _),
        iha hclosed.2 fun X args h hX => harity X args h (mem_subterms_appl_right hX _)]
  | prod x A B ihA ihB =>
      simp only [allFree, Bool.and_eq_true] at hclosed
      simp only [valuate, inst_prod, Assignment.under_under,
        ihA hclosed.1 fun X args h hX => harity X args h (mem_subterms_prod_left hX _ _),
        ihB hclosed.2 fun X args h hX => harity X args h (mem_subterms_prod_right hX _ _)]
  | abst x A t ihA iht =>
      simp only [allFree, Bool.and_eq_true, allFreeAnn_iff] at hclosed
      have hbody := iht hclosed.2 fun X args h hX => harity X args h (mem_subterms_abst_body hX _ _)
      have hann : (A.map (valuate θ c)).map (Term.inst (ρ.under c))
          = A.map (valuate (θ.inst ρ) c) := by
        cases A with
        | none => rfl
        | some B =>
            exact congrArg some (ihA B rfl (hclosed.1 B rfl) fun X args h hX =>
              harity X args h (mem_subterms_abst_ann hX _ _))
      simp only [valuate, valuateAnn_eq_map, inst_abst, Assignment.under_under, hbody, hann]
  | mvar m args ih =>
      simp only [allFree, allFreeArgs_iff] at hclosed
      have hargs : (args.map (valuate θ c)).map (Term.inst (ρ.under c))
          = args.map (valuate (θ.inst ρ) c) := by
        rw [List.map_map]
        exact List.map_congr_left fun a ha => ih a ha (hclosed a ha) fun X as h hX =>
          harity X as h (mem_subterms_mvar hX ha _)
      cases m with
      | none => simp only [valuate, valuateArgs_eq_map, Option.bind_none, inst_mvar, hargs]
      | some X =>
          simp only [valuate, valuateArgs_eq_map, Option.bind_some, Valuation.inst]
          cases hX : θ X with
          | none => simp only [Option.map_none, inst_mvar, hargs]
          | some h =>
              have hholes := harity X args h (mem_subterms_self _) hX
              simp only [Option.map_some]
              rw [Holed.fill_inst h (by simpa using hholes), hargs]

end

theorem Valuation.Fits.inst {θ : Valuation} {t : Term} (h : θ.Fits t) (ρ : Assignment) :
    (θ.inst ρ).Fits t := by
  intro X g hX
  obtain ⟨g', hX', rfl⟩ := Option.map_eq_some_iff.mp hX
  exact h X g' hX'

/-! ## Laws of conversion -/

namespace Signature.Conv

variable {σ : Signature}

theorem refl (t : Term) : σ.Conv t t :=
  .names rfl

/-- Annotations and display names of abstractions do not matter. -/
theorem abst_congr {x y : String} {A B : Option Term} {t u : Term} (h : σ.Conv t u) :
    σ.Conv (.abst x A t) (.abst y B u) := by
  have plain : ∀ (x : String) (A : Option Term) (t : Term),
      σ.Conv (.abst x A t) (.abst "" none t) := by
    intro x A t
    have hname : σ.Conv (.abst x none t) (.abst "" none t) := .names rfl
    cases A with
    | none => exact hname
    | some A => exact .trans .ann hname
  exact .trans (plain x A t) (.trans (.abst h) (.symm (plain y B u)))

theorem prod_congr {x y : Option String} {A A' B B' : Term} (hA : σ.Conv A A')
    (hB : σ.Conv B B') : σ.Conv (.prod x A B) (.prod y A' B') :=
  .trans (.prod hA hB) (.names rfl)

theorem apply_congr {f g : Term} (h : σ.Conv f g) {as bs : List Term}
    (hlen : as.length = bs.length)
    (hargs : ∀ (i : Nat) (a b : Term), as[i]? = some a → bs[i]? = some b → σ.Conv a b) :
    σ.Conv (f.apply as) (g.apply bs) :=
  Term.apply_rel .appl h hlen hargs

/-- Conversion is stable under simultaneous substitution. -/
theorem inst (hσ : ∀ s, ∀ rule ∈ σ.rulesOf s, rule.Regular) {t u : Term} (h : σ.Conv t u)
    {ρ : Assignment} (hρ : ρ.Uniform) : σ.Conv (t.inst ρ) (u.inst ρ) := by
  induction h generalizing ρ with
  | names hnames => exact .names (Term.nameless_inst_congr hρ hρ rfl hnames)
  | symm _ ih => exact .symm (ih hρ)
  | trans _ _ ih₁ ih₂ => exact .trans (ih₁ hρ) (ih₂ hρ)
  | appl _ _ ihf iha => exact .appl (ihf hρ) (iha hρ)
  | prod _ _ ihA ihB =>
      rw [Term.inst_prod, Term.inst_prod]
      exact .prod (ihA hρ) (ihB (hρ.under 1))
  | abst _ ih =>
      rw [Term.inst_abst, Term.inst_abst]
      exact .abst (ih (hρ.under 1))
  | mvar hlen _ ih =>
      rw [Term.inst_mvar, Term.inst_mvar]
      refine .mvar (by simpa using hlen) fun i a a' ha ha' => ?_
      rw [List.getElem?_map] at ha ha'
      obtain ⟨b, hb, rfl⟩ := Option.map_eq_some_iff.mp ha
      obtain ⟨b', hb', rfl⟩ := Option.map_eq_some_iff.mp ha'
      exact ih i b b' hb hb' hρ
  | @beta x A t u =>
      rw [Term.inst_appl, Term.inst_abst]
      refine .trans .beta (.names ?_)
      rw [Term.nameless_subst, ← Term.inst_single_inst]
      exact Term.nameless_inst_congr hρ hρ rfl (Term.nameless_subst t u).symm
  | @rule s rule θ t hrule hfits hinst =>
      have hreg := hσ s rule hrule
      have hlhs := Term.allFree_of_closedUnder hreg.lhs_closed fun _ => false
      have hrhs := Term.allFree_of_closedUnder hreg.rhs_closed fun _ => false
      -- a value has as many holes as its meta-variable has arguments, on either side
      have hleft : ∀ X args h, .mvar (some X) args ∈ rule.lhs.subterms → θ X = some h →
          args.length = h.holes := fun X args h hmem hX => (hfits X h hX).2 args hmem
      have hright : ∀ X args h, .mvar (some X) args ∈ rule.rhs.subterms → θ X = some h →
          args.length = h.holes := by
        intro X args h hmem hX
        obtain ⟨⟨as, has⟩, hlen⟩ := hfits X h hX
        rw [← hreg.rhs_arity has hmem, hlen as has]
      have hl := hinst.inst ρ hlhs hleft
      have hr := Term.valuate_inst ρ hrhs hright
      rw [Assignment.under_zero] at hl hr
      rw [hr]
      exact .rule hrule (hfits.inst ρ) hl
  | @ann x A t =>
      rw [Term.inst_abst, Term.inst_abst]
      exact .ann
  | @eta x t heta =>
      rw [Term.inst_abst, Term.inst_appl, Term.lift_inst_under, Term.inst_bvar]
      exact .eta heta

end Signature.Conv

end LambdaPi
