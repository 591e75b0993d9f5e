import Mathlib
import LambdaPi.Proofs.Marks
import LambdaPi.Proofs.NormalForms

/-!
# Lazy conversion agrees with normal forms

Convertibility is decided without computing normal forms: terms that are equal as they stand are not
reduced, applications of an injective symbol are compared argument by argument, and other terms are
reduced to weak head normal form only, before their parts are compared. For terms that have normal
forms this gives the same answer as comparing these.

The work list is followed together with the list of the normal forms of what is to be compared.
Every step replaces a comparison by comparisons of parts, and the normal forms of the parts are the
parts of the normal form (`Comparison.parts_values`). So what is left to compare succeeds exactly if
the comparison does, and the normal forms on the left become smaller with every step
(`Signature.agree_step`), until all is answered (`Signature.agree_values`).

Jokers and missing annotations are ignored by comparisons, and equality up to these is not
transitive; the terms and the rules are therefore assumed to be plain.
-/

namespace LambdaPi

/-! ## Plain terms -/

namespace Term

/-- There are no jokers, and all abstractions have an annotation or none has. -/
def Plain (annotated : Bool) (t : Term) : Prop :=
  ¬ t.Has .joker ∧ ¬ t.Has (.abst !annotated)

variable {annotated : Bool}

theorem Plain.of_has {t u : Term} (h : t.Plain annotated) (hu : ∀ c, u.Has c → t.Has c) :
    u.Plain annotated :=
  ⟨fun hc => h.1 (hu _ hc), fun hc => h.2 (hu _ hc)⟩

theorem Plain.not_isJoker {t : Term} (h : t.Plain annotated) : t.isJoker = false := by
  cases t with
  | joker => exact absurd (has_joker.2 rfl) h.1
  | _ => rfl

theorem Plain.appl_inv {f a : Term} (h : (appl f a).Plain annotated) :
    f.Plain annotated ∧ a.Plain annotated :=
  ⟨h.of_has fun _ hc => (has_appl ..).2 (.inl hc), h.of_has fun _ hc => (has_appl ..).2 (.inr hc)⟩

theorem Plain.prod_inv {x : Option String} {A B : Term} (h : (prod x A B).Plain annotated) :
    A.Plain annotated ∧ B.Plain annotated :=
  ⟨h.of_has fun _ hc => (has_prod ..).2 (.inl hc), h.of_has fun _ hc => (has_prod ..).2 (.inr hc)⟩

theorem Plain.abst_inv {x : String} {A : Option Term} {t : Term}
    (h : (abst x A t).Plain annotated) :
    A.isSome = annotated ∧ (∀ B, A = some B → B.Plain annotated) ∧ t.Plain annotated := by
  refine ⟨?_, fun B hB => h.of_has fun c hc => ?_, h.of_has fun c hc => ?_⟩
  · refine Decidable.byContradiction fun hne => h.2 ?_
    rw [has_abst]
    left
    cases A <;> cases annotated <;> simp_all
  · rw [has_abst]
    exact .inr (.inl ⟨B, hB, hc⟩)
  · rw [has_abst]
    exact .inr (.inr hc)

theorem Plain.mvar_inv {m : Option MetaName} {args : List Term}
    (h : (mvar m args).Plain annotated) : ∀ a ∈ args, a.Plain annotated := by
  intro a ha
  exact h.of_has fun c hc => (has_mvar ..).2 (.inr ⟨a, ha, hc⟩)

theorem Plain.unapply {t head : Term} {args : List Term} (h : t.Plain annotated)
    (ht : t.unapply = (head, args)) : ∀ a ∈ args, a.Plain annotated := by
  intro a ha
  rw [eq_apply_of_unapply ht] at h
  exact h.of_has fun c hc => (has_apply ..).2 (.inr ⟨a, ha, hc⟩)

end Term

theorem Term.Parts.refl (t : Term) : t.Parts Eq t :=
  .self fun _ _ => rfl

theorem Term.size_pos (t : Term) : 0 < t.size := by
  cases t <;> simp [size]

theorem Term.size_apply (f : Term) (args : List Term) :
    (f.apply args).size = f.size + (sizeArgs args + args.length) := by
  induction args generalizing f with
  | nil => rfl
  | cons a args ih =>
      rw [apply_cons, ih, size, sizeArgs, List.length_cons]
      omega

/-! ## Comparisons and what they come to -/

namespace Comparison

open Term

/-- Both sides of a comparison are plain, and related to the terms of a pair. -/
structure Values (R : Term → Term → Prop) (annotated : Bool) (c : Comparison) (p : Term × Term) :
    Prop where
  left : R c.left p.1
  right : R c.right p.2
  plainLeft : c.left.Plain annotated
  plainRight : c.right.Plain annotated

/-- Size of what stands on the left of some pairs. -/
def pairSize (ps : List (Term × Term)) : Nat :=
  (ps.map (·.1.size)).sum

/-- To compare the parts is as good as to compare the values `v` and `w`, and the values of the parts
are smaller. -/
def SplitsInto (R : Term → Term → Prop) (annotated : Bool) (v w : Term) (parts : List Comparison) :
    Prop :=
  ∃ ps, List.Forall₂ (Values R annotated) parts ps
    ∧ (v.Alike w ↔ ∀ p ∈ ps, p.1.Alike p.2) ∧ pairSize ps < v.size

variable {R : Term → Term → Prop} {annotated : Bool} {v w : Term}

theorem SplitsInto.nil (h : v.Alike w) : SplitsInto R annotated v w [] :=
  ⟨[], .nil, iff_of_true h nofun, size_pos v⟩

theorem SplitsInto.pair {c d : Comparison} {a b a' b' : Term} (hc : Values R annotated c (a, b))
    (hd : Values R annotated d (a', b')) (halike : v.Alike w ↔ a.Alike b ∧ a'.Alike b')
    (hsize : a.size + a'.size < v.size) : SplitsInto R annotated v w [c, d] := by
  refine ⟨[(a, b), (a', b')], .cons hc (.cons hd .nil), ?_, ?_⟩
  · rw [halike, List.forall_mem_cons, List.forall_mem_singleton]
  · simpa [pairSize] using hsize

theorem SplitsInto.reverse {parts : List Comparison} (h : SplitsInto R annotated v w parts) :
    SplitsInto R annotated v w parts.reverse := by
  obtain ⟨ps, hvalues, halike, hsize⟩ := h
  refine ⟨ps.reverse, List.rel_reverse hvalues, ?_, ?_⟩
  · simpa only [List.mem_reverse] using halike
  · rwa [pairSize, List.map_reverse, List.sum_reverse, ← pairSize]

/-- Arguments that are as many are compared one by one. -/
theorem SplitsInto.args (depth : Nat) {as bs as' bs' : List Term} (hlen : as.length = bs.length)
    (has : List.Forall₂ R as as') (hbs : List.Forall₂ R bs bs')
    (hpa : ∀ a ∈ as, a.Plain annotated) (hpb : ∀ b ∈ bs, b.Plain annotated)
    (halike : v.Alike w ↔ List.Forall₂ Term.Alike as' bs') (hsize : sizeArgs as' < v.size) :
    SplitsInto R annotated v w (compareArgs depth as bs) := by
  suffices hargs : List.Forall₂ (Values R annotated) (compareArgs depth as bs) (as'.zip bs')
      ∧ (List.Forall₂ Term.Alike as' bs' ↔ ∀ p ∈ as'.zip bs', p.1.Alike p.2)
      ∧ pairSize (as'.zip bs') ≤ sizeArgs as' by
    obtain ⟨hvalues, hzip, hle⟩ := hargs
    exact ⟨_, hvalues, halike.trans hzip, Nat.lt_of_le_of_lt hle hsize⟩
  clear halike hsize
  induction has generalizing bs bs' with
  | nil =>
      cases hbs with
      | nil => exact ⟨.nil, by simp, Nat.le_refl 0⟩
      | cons => cases hlen
  | cons haa' _ ih =>
      cases hbs with
      | nil => cases hlen
      | cons hbb' hbs =>
          rw [List.forall_mem_cons] at hpa hpb
          obtain ⟨hvalues, halike, hsize⟩ := ih (Nat.succ.inj hlen) hbs hpa.2 hpb.2
          refine ⟨.cons ⟨haa', hbb', hpa.1, hpb.1⟩ hvalues, ?_, ?_⟩
          · rw [List.forall₂_cons, List.zip_cons_cons, List.forall_mem_cons, halike]
          · simp only [pairSize, List.zip_cons_cons, List.map_cons, List.sum_cons, sizeArgs] at *
            omega

/-- Terms with different outermost constructors do not come to the same, and otherwise they do
exactly if their parts do. -/
theorem parts_values (depth : Nat) {t u : Term} (ht : t.Parts R v) (hu : u.Parts R w)
    (hpt : t.Plain annotated) (hpu : u.Plain annotated) :
    match t.sameHead depth u with
    | none => ¬ v.Alike w
    | some parts => SplitsInto R annotated v w parts := by
  cases ht with
  | kind | type | joker =>
      cases hu with
      | kind | type | joker =>
          first
            | exact .nil (by constructor)
            | change ¬ Term.Alike _ _
              rintro ⟨⟩
      | _ =>
          change ¬ Term.Alike _ _
          rintro ⟨⟩
  | @symb s =>
      cases hu with
      | @symb r =>
          by_cases hsr : s = r
          · subst hsr
            simp only [sameHead, if_pos]
            exact .nil .symb
          · simp only [sameHead, if_neg hsr]
            rintro ⟨⟩
            exact hsr rfl
      | _ =>
          change ¬ Term.Alike _ _
          rintro ⟨⟩
  | @bvar m x =>
      cases hu with
      | @bvar n y =>
          by_cases hmn : m = n
          · subst hmn
            simp only [sameHead, if_pos]
            exact .nil .bvar
          · simp only [sameHead, if_neg hmn]
            rintro ⟨⟩
            exact hmn rfl
      | _ =>
          change ¬ Term.Alike _ _
          rintro ⟨⟩
  | @appl f f' a a' hf ha =>
      cases hu with
      | @appl g g' b b' hg hb =>
          refine .pair ⟨hf, hg, hpt.appl_inv.1, hpu.appl_inv.1⟩
            ⟨ha, hb, hpt.appl_inv.2, hpu.appl_inv.2⟩ alike_appl ?_
          simp only [size]
          omega
      | _ =>
          change ¬ Term.Alike _ _
          rintro ⟨⟩
  | @prod x A A' B B' hA hB =>
      cases hu with
      | @prod y C C' D D' hC hD =>
          refine .pair ⟨hA, hC, hpt.prod_inv.1, hpu.prod_inv.1⟩
            ⟨hB, hD, hpt.prod_inv.2, hpu.prod_inv.2⟩ alike_prod ?_
          simp only [size]
          omega
      | _ =>
          change ¬ Term.Alike _ _
          rintro ⟨⟩
  | @abst x t t' ht =>
      obtain ⟨hnone, -, hpt⟩ := hpt.abst_inv
      cases hu with
      | @abst y u u' hu =>
          obtain ⟨-, -, hpu⟩ := hpu.abst_inv
          refine ⟨[(t', u')], .cons ⟨ht, hu, hpt, hpu⟩ .nil, ?_, ?_⟩
          · rw [List.forall_mem_singleton, alike_abst]
            exact and_iff_right .none
          · simp only [pairSize, List.map_cons, List.map_nil, List.sum_cons, List.sum_nil, size]
            omega
      | annotated _ _ =>
          obtain ⟨hsome, -, -⟩ := hpu.abst_inv
          rw [← hnone] at hsome
          cases hsome
      | _ =>
          change ¬ Term.Alike _ _
          rintro ⟨⟩
  | @annotated x A A' t t' hA ht =>
      obtain ⟨hsome, hpA, hpt⟩ := hpt.abst_inv
      cases hu with
      | @annotated y B B' u u' hB hu =>
          obtain ⟨-, hpB, hpu⟩ := hpu.abst_inv
          have hanns : compareAnns depth (some A) (some B) = [⟨A, B, depth⟩] := by
            rw [compareAnns, informative?_some (hpA A rfl).not_isJoker,
              informative?_some (hpB B rfl).not_isJoker]
          simp only [sameHead, hanns]
          refine .pair ⟨hA, hB, hpA A rfl, hpB B rfl⟩ ⟨ht, hu, hpt, hpu⟩ ?_ ?_
          · rw [alike_abst, Option.rel_some_some]
          · simp only [size, sizeAnn]
            omega
      | abst _ =>
          obtain ⟨hnone, -, -⟩ := hpu.abst_inv
          rw [← hsome] at hnone
          cases hnone
      | _ =>
          change ¬ Term.Alike _ _
          rintro ⟨⟩
  | @mvar m as as' has =>
      cases hu with
      | @mvar n bs bs' hbs =>
          by_cases hmn : m = n ∧ as.length = bs.length
          · obtain ⟨rfl, hlen⟩ := hmn
            simp only [sameHead, hlen, and_self, if_pos]
            exact .args depth hlen has hbs hpt.mvar_inv hpu.mvar_inv alike_mvar
              (Nat.lt_succ_self _)
          · simp only [sameHead, if_neg hmn]
            intro h
            cases h with
            | mvar h =>
                exact hmn ⟨rfl, has.length_eq.trans (h.length_eq.trans hbs.length_eq.symm)⟩
      | _ =>
          change ¬ Term.Alike _ _
          rintro ⟨⟩

theorem forall_mem_values {cs : List Comparison} {ps : List (Term × Term)}
    (h : List.Forall₂ (Values Eq annotated) cs ps) :
    (∀ p ∈ ps, p.1.Alike p.2) ↔ ∀ c ∈ cs, c.left.Alike c.right := by
  induction h with
  | nil => simp
  | cons hc _ ih => rw [List.forall_mem_cons, List.forall_mem_cons, ih, hc.left, hc.right]

/-- Plain terms are equal exactly if they differ in names only. -/
theorem allEqual_iff {cs : List Comparison}
    (h : ∀ c ∈ cs, c.left.Plain annotated ∧ c.right.Plain annotated) :
    allEqual cs = true ↔ ∀ c ∈ cs, c.left.Alike c.right := by
  fun_induction allEqual cs with
  | case1 => simp
  | case2 c rest hnone =>
      rw [List.forall_mem_cons] at h
      have hdiffer := parts_values c.depth (.refl c.left) (.refl c.right) h.1.1 h.1.2
      rw [hnone] at hdiffer
      simp [hdiffer]
  | case3 c rest parts hparts ih =>
      rw [List.forall_mem_cons] at h ⊢
      have hvalues := parts_values c.depth (.refl c.left) (.refl c.right) h.1.1 h.1.2
      rw [hparts] at hvalues
      obtain ⟨ps, hps, halike, -⟩ := hvalues
      have hplain : ∀ d ∈ parts, d.left.Plain annotated ∧ d.right.Plain annotated := by
        intro d hd
        obtain ⟨p, -, hp⟩ := forall₂_exists_right hps hd
        exact ⟨hp.plainLeft, hp.plainRight⟩
      rw [ih, halike, forall_mem_values hps]
      · simp only [List.mem_append, List.mem_reverse, or_imp, forall_and]
      · intro d hd
        rcases List.mem_append.1 hd with hd | hd
        · exact hplain d (List.mem_reverse.1 hd)
        · exact h.2 d hd

end Comparison

theorem Term.Plain.equals_iff {annotated : Bool} {t u : Term} (ht : t.Plain annotated)
    (hu : u.Plain annotated) : t.equals u = true ↔ t.Alike u := by
  rw [equals_eq_allEqual, Comparison.allEqual_iff (List.forall_mem_singleton.2 ⟨ht, hu⟩),
    List.forall_mem_singleton]

/-! ## The work list -/

namespace Signature

open Comparison

variable {σ : Signature} {annotated : Bool}

/-- The comparisons are answered on some budget. -/
def Answers (σ : Signature) (cs : List Comparison) (answer : Bool) : Prop :=
  ∃ n, (σ.agree n cs).value = some answer

namespace Answers

variable {c : Comparison} {rest parts : List Comparison} {answer : Bool} {t u : Term}

theorem nil : σ.Answers [] true :=
  ⟨1, by rw [agree]; rfl⟩

theorem of_equals (heq : c.left.equals c.right = true) (h : σ.Answers rest answer) :
    σ.Answers (c :: rest) answer := by
  obtain ⟨n, hn⟩ := h
  refine ⟨n + 1, ?_⟩
  simp only [agree, Traced.value_bind, Traced.value_emit, Option.bind_some, heq, if_pos, hn]

theorem of_injectiveParts (heq : ¬ c.left.equals c.right = true)
    (hparts : σ.injectiveParts? c = some parts) (h : σ.Answers (parts ++ rest) answer) :
    σ.Answers (c :: rest) answer := by
  obtain ⟨n, hn⟩ := h
  refine ⟨n + 1, ?_⟩
  simp only [agree, Traced.value_bind, Traced.value_emit, Option.bind_some, if_neg heq, hparts, hn]

section

variable (heq : ¬ c.left.equals c.right = true) (hinj : σ.injectiveParts? c = none)
  (ht : σ.Whnf c.left t) (hu : σ.Whnf c.right u)

include heq hinj ht hu

theorem of_whnfParts (hparts : σ.whnfParts? c.depth t u = some parts)
    (h : σ.Answers (parts ++ rest) answer) : σ.Answers (c :: rest) answer := by
  obtain ⟨n, hn⟩ := h
  obtain ⟨k, hk⟩ := ht
  obtain ⟨l, hl⟩ := hu
  have hn' := (budget_below (σ := σ) (Nat.le_max_left n (max k l))).2.2 _ _ hn
  have hk' := whnf_below (Nat.le_trans (Nat.le_max_left k l) (Nat.le_max_right n (max k l))) _ _ hk
  have hl' := whnf_below (Nat.le_trans (Nat.le_max_right k l) (Nat.le_max_right n (max k l))) _ _ hl
  rw [whnf] at hk' hl'
  refine ⟨max n (max k l) + 1, ?_⟩
  simp only [agree, Traced.value_bind, Traced.value_emit, Option.bind_some, if_neg heq, hinj, hk',
    hl', hparts, hn']

theorem of_whnfParts_none (hparts : σ.whnfParts? c.depth t u = none) :
    σ.Answers (c :: rest) false := by
  obtain ⟨k, hk⟩ := ht
  obtain ⟨l, hl⟩ := hu
  have hk' := whnf_below (Nat.le_max_left k l) _ _ hk
  have hl' := whnf_below (Nat.le_max_right k l) _ _ hl
  rw [whnf] at hk' hl'
  refine ⟨max k l + 1, ?_⟩
  simp only [agree, Traced.value_bind, Traced.value_emit, Option.bind_some, if_neg heq, hinj, hk',
    hl', hparts]
  rfl

end

theorem unique {answer' : Bool} (h : σ.Answers parts answer) (h' : σ.Answers parts answer') :
    answer = answer' := by
  obtain ⟨n, hn⟩ := h
  obtain ⟨m, hm⟩ := h'
  have hn' := (budget_below (σ := σ) (Nat.le_max_left n m)).2.2 _ _ hn
  have hm' := (budget_below (σ := σ) (Nat.le_max_right n m)).2.2 _ _ hm
  exact Option.some.inj (hn'.symm.trans hm')

end Answers

section

variable (hσ : σ.Reachable fun rule => rule.Admissible ∧ rule.LeftLinear)

include hσ

theorem plain_of_whnf (hrules : ∀ s, ∀ rule ∈ σ.rulesOf s, rule.rhs.Plain annotated)
    {t w : Term} (ht : t.Plain annotated) (h : σ.Whnf t w) : w.Plain annotated := by
  obtain ⟨n, hn⟩ := h
  have hmarks : σ.MarksWithin t w := σ.contains_marks.whnf hσ hn
  constructor
  · intro hc
    rcases hmarks _ hc with hc | ⟨s, rule, hrule, hc⟩
    · exact ht.1 hc
    · exact (hrules s rule hrule).1 hc
  · intro hc
    rcases hmarks _ hc with hc | ⟨s, rule, hrule, hc⟩
    · exact ht.2 hc
    · exact (hrules s rule hrule).2 hc

/-- The normal form of a symbol without rules applied to arguments. -/
theorem nf_apply_of_no_rules {s : Symbol} (hs : σ.rulesOf s = []) {t v : Term} {as : List Term}
    (ht : t.unapply = (.symb s, as)) (h : σ.Nf t v) :
    ∃ as', List.Forall₂ σ.Nf as as' ∧ v = (Term.symb s).apply as' := by
  have hstuck : σ.Whnf t t := by
    refine Stuck.whnf ?_
    rw [ht]
    exact stuck_of_no_rules hσ hs as
  obtain ⟨head, as', hhead, has, rfl⟩ := h.of_whnf hstuck
  rw [ht] at hhead has
  cases hhead
  exact ⟨as', has, rfl⟩

/-- Applications of an injective symbol are compared argument by argument, which is as good as
comparing them. -/
theorem injectiveParts?_values (hinj : ∀ s, σ.isInjective s = true → σ.rulesOf s = [])
    {c : Comparison} {p : Term × Term} (hc : c.Values σ.Nf annotated p)
    {parts : List Comparison} (hparts : σ.injectiveParts? c = some parts) :
    SplitsInto σ.Nf annotated p.1 p.2 parts := by
  obtain ⟨v, w⟩ := p
  unfold injectiveParts? at hparts
  split at hparts
  · next s as r bs has hbs =>
    split at hparts
    · next hsame =>
      obtain ⟨rfl, hlen, hs⟩ := hsame
      obtain rfl := Option.some.inj hparts
      obtain ⟨as', hnfas, rfl⟩ := nf_apply_of_no_rules hσ (hinj s hs) has hc.left
      obtain ⟨bs', hnfbs, rfl⟩ := nf_apply_of_no_rules hσ (hinj s hs) hbs hc.right
      refine .args c.depth hlen hnfas hnfbs (hc.plainLeft.unapply has) (hc.plainRight.unapply hbs)
        ⟨fun h => ?_, fun h => .apply .symb h⟩ ?_
      · obtain ⟨-, hargs⟩ := h.unapply
        rwa [Term.unapply_apply rfl, Term.unapply_apply rfl] at hargs
      · have hhead : (Term.symb s).size = 1 := rfl
        rw [Term.size_apply, hhead]
        omega
    · cases hparts
  · cases hparts

variable (heta : σ.eta = false) (hinj : ∀ s, σ.isInjective s = true → σ.rulesOf s = [])
  (hrules : ∀ s, ∀ rule ∈ σ.rulesOf s, rule.rhs.Plain annotated)

include heta hinj hrules

/-- A step of the work list: a comparison of terms that have normal forms is replaced by comparisons
of parts, or it fails, and then the normal forms differ. -/
theorem agree_step {c : Comparison} {p : Term × Term} (hc : c.Values σ.Nf annotated p)
    (rest : List Comparison) :
    (∃ parts, SplitsInto σ.Nf annotated p.1 p.2 parts
        ∧ ∀ answer, σ.Answers (parts ++ rest) answer → σ.Answers (c :: rest) answer)
      ∨ (¬ p.1.Alike p.2 ∧ σ.Answers (c :: rest) false) := by
  by_cases heq : c.left.equals c.right = true
  · have halike : p.1.Alike p.2 := by
      have hterms := (hc.plainLeft.equals_iff hc.plainRight).1 heq
      obtain ⟨v, hv, halike⟩ := hc.left.alike hterms
      rwa [hv.unique hc.right] at halike
    exact .inl ⟨[], .nil halike, fun _ => .of_equals heq⟩
  · cases hparts : σ.injectiveParts? c with
    | some parts =>
        exact .inl ⟨parts, injectiveParts?_values hσ hinj hc hparts,
          fun _ => .of_injectiveParts heq hparts⟩
    | none =>
        obtain ⟨t, ht, hnft⟩ := hc.left.whnf
        obtain ⟨u, hu, hnfu⟩ := hc.right.whnf
        have hvalues := parts_values c.depth (ht.fixed.parts hσ hnft) (hu.fixed.parts hσ hnfu)
          (plain_of_whnf hσ hrules hc.plainLeft ht) (plain_of_whnf hσ hrules hc.plainRight hu)
        cases hhead : t.sameHead c.depth u with
        | none =>
            rw [hhead] at hvalues
            have hnone : σ.whnfParts? c.depth t u = none := by simp [whnfParts?, hhead, heta]
            exact .inr ⟨hvalues, .of_whnfParts_none heq hparts ht hu hnone⟩
        | some parts =>
            rw [hhead] at hvalues
            have hsome : σ.whnfParts? c.depth t u = some parts.reverse := by
              simp [whnfParts?, hhead]
            exact .inl ⟨parts.reverse, SplitsInto.reverse hvalues,
              fun _ => .of_whnfParts heq hparts ht hu hsome⟩

/-- Comparisons of terms that have normal forms are answered, and the answer is whether the normal
forms differ in names only. -/
theorem agree_values {cs : List Comparison} {ps : List (Term × Term)}
    (h : List.Forall₂ (Values σ.Nf annotated) cs ps) :
    ∃ answer, σ.Answers cs answer ∧ (answer = true ↔ ∀ p ∈ ps, p.1.Alike p.2) := by
  -- every step makes the normal forms on the left smaller
  generalize hk : pairSize ps = k
  induction k using Nat.strong_induction_on generalizing cs ps with
  | _ k ih =>
      cases h with
      | nil => exact ⟨true, .nil, by simp⟩
      | @cons c p rest qs hc hrest =>
          rcases agree_step hσ heta hinj hrules hc rest with
            ⟨parts, ⟨ps, hparts, halike, hsmaller⟩, hstep⟩ | ⟨hdiffer, hfalse⟩
          · have hless : pairSize (ps ++ qs) < k := by
              rw [← hk]
              simp only [pairSize, List.map_append, List.sum_append, List.map_cons,
                List.sum_cons] at hsmaller ⊢
              omega
            obtain ⟨answer, hanswer, hiff⟩ := ih _ hless (List.rel_append hparts hrest) rfl
            refine ⟨answer, hstep answer hanswer, ?_⟩
            rw [hiff, List.forall_mem_cons, halike, List.forall_mem_append]
          · refine ⟨false, hfalse, ?_⟩
            rw [List.forall_mem_cons]
            exact iff_of_false Bool.false_ne_true fun hall => hdiffer hall.1

end

/-! ## Rules for bodies, under an injective symbol -/

/-- The rules for bodies and an injective symbol. -/
def injectiveBodies : Signature :=
  bodies.declareInjective ⟨"h"⟩

theorem injectiveBodies_ruleSet? (s : Symbol) :
    injectiveBodies.ruleSet? s
      = if s = ⟨"h"⟩ then some { injective := true } else bodies.ruleSet? s := by
  by_cases h : s = ⟨"h"⟩
  · subst h
    rfl
  · rw [if_neg h]
    exact Table.find?_enter_of_ne h _ _

theorem injectiveBodies_rulesOf (s : Symbol) :
    injectiveBodies.rulesOf s = if s = ⟨"f"⟩ then [constantRule, bodyRule] else [] := by
  rw [rulesOf, injectiveBodies_ruleSet?]
  by_cases h : s = ⟨"h"⟩
  · subst h
    rfl
  · rw [if_neg h]
    by_cases hf : s = ⟨"f"⟩ <;> simp [ruleSet?, bodies, Table.find?, hf, RuleSet.ofRules]

/-- The term `x => h t`. -/
def underInjective (x : String) (t : Term) : Term :=
  .abst x none (.appl (.symb ⟨"h"⟩) t)

/-- The term `f (x => a)`, to which the first rule applies. -/
def constantBody : Term :=
  .appl (.symb ⟨"f"⟩) (.abst "x" none (.symb ⟨"a"⟩))

/-! ## Convertibility -/

/-- In a signature without eta and with left-linear rules, none of them for an injective symbol:
whenever two terms have normal forms, their convertibility is answered, and the answer is whether
the normal forms are the same but for names. The terms and the right-hand sides of the rules are
without jokers, and all their abstractions have an annotation or none has. -/
theorem convertible_iff_nf {annotated : Bool}
    (hσ : σ.Reachable fun rule => rule.Admissible ∧ rule.LeftLinear) (heta : σ.eta = false)
    (hinj : ∀ s, σ.isInjective s = true → σ.rulesOf s = [])
    (hrules : ∀ s, ∀ rule ∈ σ.rulesOf s, rule.rhs.Plain annotated) {a b u v : Term}
    (ha : a.Plain annotated) (hb : b.Plain annotated) (hu : σ.Nf a u) (hv : σ.Nf b v) :
    (∃ budget answer, (σ.convertible budget a b).value = some answer)
      ∧ ∀ budget answer, (σ.convertible budget a b).value = some answer →
        (answer = true ↔ u.nameless = v.nameless) := by
  have hvalues : Values σ.Nf annotated ⟨a, b, 0⟩ (u, v) := ⟨hu, hv, ha, hb⟩
  obtain ⟨answer, hanswer, hiff⟩ := agree_values hσ heta hinj hrules (.cons hvalues .nil)
  rw [List.forall_mem_singleton, Term.alike_iff] at hiff
  obtain ⟨budget, hbudget⟩ := hanswer
  refine ⟨⟨budget, answer, hbudget⟩, fun budget' answer' hbudget' => ?_⟩
  rw [Answers.unique ⟨budget', hbudget'⟩ ⟨budget, hbudget⟩]
  exact hiff

theorem convertible_iff_nf_injectiveBodies :
    (injectiveBodies.Reachable fun rule => rule.Admissible ∧ rule.LeftLinear)
      ∧ injectiveBodies.eta = false
      ∧ (∀ s, injectiveBodies.isInjective s = true → injectiveBodies.rulesOf s = [])
      ∧ (∀ s, ∀ rule ∈ injectiveBodies.rulesOf s, rule.rhs.Plain false)
      ∧ (underInjective "y" constantBody).Plain false
      ∧ (∀ s, (underInjective "z" (.symb s)).Plain false)
      ∧ injectiveBodies.Nf (underInjective "y" constantBody) (underInjective "y" (.symb ⟨"b"⟩))
      ∧ (∃ budget, (injectiveBodies.convertible budget (underInjective "y" constantBody)
          (underInjective "z" (.symb ⟨"b"⟩))).value = some true)
      ∧ ∃ budget, (injectiveBodies.convertible budget (underInjective "y" constantBody)
          (underInjective "z" (.symb ⟨"a"⟩))).value = some false := by
  have hreach : injectiveBodies.Reachable fun rule => rule.Admissible ∧ rule.LeftLinear :=
    .declareInjective _ reachable_bodies
  have hinj : ∀ s, injectiveBodies.isInjective s = true → injectiveBodies.rulesOf s = [] := by
    intro s hs
    rw [isInjective, injectiveBodies_ruleSet?] at hs
    rw [injectiveBodies_rulesOf]
    split
    · subst s
      cases hs
    · rfl
  have hrules : ∀ s, ∀ rule ∈ injectiveBodies.rulesOf s, rule.rhs.Plain false := by
    intro s rule hrule
    rw [injectiveBodies_rulesOf] at hrule
    split at hrule
    · rcases List.mem_pair.mp hrule with rfl | rfl <;> simp [Term.Plain, constantRule, bodyRule]
    · cases hrule
  have hleft : (underInjective "y" constantBody).Plain false := by
    simp [Term.Plain, underInjective, constantBody]
  have hright : ∀ s, (underInjective "z" (.symb s)).Plain false := by
    intro s
    simp [Term.Plain, underInjective]
  have hnf : injectiveBodies.Nf (underInjective "y" constantBody)
      (underInjective "y" (.symb ⟨"b"⟩)) := ⟨9, by cbv⟩
  refine ⟨hreach, rfl, hinj, hrules, hleft, hright, hnf, ?_, ?_⟩
  · obtain ⟨⟨budget, answer, hanswer⟩, hiff⟩ :=
      convertible_iff_nf hreach rfl hinj hrules hleft (hright ⟨"b"⟩) hnf
        (v := underInjective "z" (.symb ⟨"b"⟩)) ⟨9, by cbv⟩
    obtain rfl := (hiff budget answer hanswer).mpr rfl
    exact ⟨budget, hanswer⟩
  · obtain ⟨⟨budget, answer, hanswer⟩, hiff⟩ :=
      convertible_iff_nf hreach rfl hinj hrules hleft (hright ⟨"a"⟩) hnf
        (v := underInjective "z" (.symb ⟨"a"⟩)) ⟨9, by cbv⟩
    refine ⟨budget, ?_⟩
    rw [hanswer, Option.some_inj, Bool.eq_false_iff]
    intro htrue
    have hnames := (hiff budget answer hanswer).mp htrue
    simp [underInjective, Term.nameless] at hnames

end Signature

end LambdaPi
