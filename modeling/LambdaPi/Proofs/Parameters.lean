import Mathlib
import LambdaPi.Proofs.InferCheck
import LambdaPi.Session.Instruction

/-!
# Declarations with parameters

A declaration with parameters is turned into one without: the type becomes a product over the
parameters and the definition a function of them, each folded up from the right. This says what it
should. The definition passes the check against the type exactly if the type of each parameter is a
type where the parameters before it are bound, and the definition passes the check where all of them
are bound; and the type has the sort that it has there (`Signature.typing_withParams`).

Both are inductions over the parameters, and a parameter is one step of the checker: the type of a
product is read off from its parts (`Signature.infers_prod_iff`), and an abstraction is checked
against a product by checking its parts (`Signature.checks_abst_iff`). The annotation of the
abstraction is the domain of the product, so that comparing the two always succeeds.
-/

namespace LambdaPi

namespace Signature

/-! ## Judgements -/

/-- The type is inferred for the term, on some budget. -/
def Infers (σ : Signature) (Γ : Context) (t A : Term) : Prop :=
  ∃ budget, (σ.infer budget Γ t).run.value = some (.ok A)

/-- The term passes the check against the type, on some budget. -/
def Checks (σ : Signature) (Γ : Context) (t A : Term) : Prop :=
  ∃ budget, (σ.check budget Γ t A).run.value = some (.ok ())

/-- The type that is inferred for the term reduces to the sort. -/
def HasSort (σ : Signature) (Γ : Context) (A T : Term) : Prop :=
  T.IsSort ∧ ∃ S, σ.Infers Γ A S ∧ σ.Whnf S T

variable {σ : Signature} {Γ : Context} {n m : Nat}

theorem infer_of_le (h : n ≤ m) {t A : Term} (hA : (σ.infer n Γ t).run.value = some (.ok A)) :
    (σ.infer m Γ t).run.value = some (.ok A) :=
  (typing_below h t Γ).1 _ hA

theorem check_of_le (h : n ≤ m) {t A : Term} (hA : (σ.check n Γ t A).run.value = some (.ok ())) :
    (σ.check m Γ t A).run.value = some (.ok ()) :=
  (typing_below h t Γ).2 A _ hA

theorem Whnf.of_isSort {T : Term} (h : T.IsSort) : σ.Whnf T T := by
  rcases h with rfl | rfl
  · exact Stuck.whnf (stuck_iff_headStep?.2 ⟨0, rfl⟩)
  · exact Stuck.whnf (stuck_iff_headStep?.2 ⟨0, rfl⟩)

/-! ## One parameter -/

/-- The type of a product is the sort of its codomain, if the domain is a type. -/
theorem infers_prod_iff {x : Option String} {A B T : Term} :
    σ.Infers Γ (.prod x A B) T
      ↔ σ.HasSort Γ A .type ∧ σ.HasSort (Γ.bind x (some A)) B T := by
  constructor
  · rintro ⟨n, h⟩
    cases Inferred.of_infer h with
    | prod hS htype hS' hwhnf hsort =>
        exact ⟨⟨.inl rfl, _, ⟨n, hS⟩, n, htype⟩, hsort, _, ⟨n, hS'⟩, n, hwhnf⟩
  · rintro ⟨⟨-, S, ⟨i, hS⟩, j, htype⟩, hsort, S', ⟨k, hS'⟩, l, hwhnf⟩
    refine ⟨max (max i j) (max k l), infer_ok_iff.2 ?_⟩
    exact .prod (infer_of_le (by omega) hS) (whnf_below (by omega) S _ htype)
      (infer_of_le (by omega) hS') (whnf_below (by omega) S' _ hwhnf) hsort

/-- An abstraction passes the check against a product, if its annotation is a type and convertible
with the domain, and its body passes the check against the codomain. -/
theorem checks_abst_iff {x : String} {y : Option String} {A t D C : Term} (hA : A ≠ .joker) :
    σ.Checks Γ (.abst x (some A) t) (.prod y D C)
      ↔ σ.HasSort Γ A .type ∧ σ.Answers [⟨A, D, 0⟩] true
        ∧ σ.Checks (Γ.bind (some x) (some D)) t C := by
  constructor
  · rintro ⟨n, h⟩
    cases Checked.of_check h with
    | abst hwhnf hann hbody =>
        obtain ⟨rfl, rfl, rfl⟩ := Term.prod.inj (eq_of_whnf_prod hwhnf)
        obtain ⟨S, hS, htype, hconv⟩ := hann A (Term.informative?_eq_some_iff.2 ⟨rfl, hA⟩)
        exact ⟨⟨.inl rfl, S, ⟨n, hS⟩, n, htype⟩, ⟨n, hconv⟩, n, hbody⟩
    | compare hwhnf hne _ _ => exact absurd (eq_of_whnf_prod hwhnf) (hne _ _ _ _ _ _ rfl)
  · rintro ⟨⟨-, S, ⟨i, hS⟩, j, htype⟩, ⟨k, hconv⟩, l, hbody⟩
    obtain ⟨p, hwhnf⟩ := Whnf.prod (σ := σ) y D C
    refine ⟨max (max i j) (max (max k l) p), check_ok_iff.2 ?_⟩
    refine .abst (whnf_below (by omega) _ _ hwhnf) (fun B hB => ?_) (check_of_le (by omega) hbody)
    obtain rfl := Option.some.inj (Term.eq_some_of_informative? hB)
    exact ⟨S, infer_of_le (by omega) hS, whnf_below (by omega) S _ htype,
      convertible_below (by omega) A D _ hconv⟩

end Signature

/-! ## All parameters -/

/-- Bind some parameters, the first one outermost. -/
def Context.extend (Γ : Context) (params : List Parameter) : Context :=
  params.foldl (fun Γ p => Γ.bind (some p.name) (some p.type)) Γ

/-- The product over some parameters. -/
def Term.prodOver (params : List Parameter) (A : Term) : Term :=
  params.foldr (fun p B => .prod (some p.name) p.type B) A

/-- The function of some parameters. -/
def Term.abstOver (params : List Parameter) (t : Term) : Term :=
  params.foldr (fun p u => .abst p.name (some p.type) u) t

theorem Declaration.type_withParams (d : Declaration) (params : List Parameter) :
    (d.withParams params).type = d.type.map (Term.prodOver params) :=
  rfl

theorem Declaration.body_withParams (d : Declaration) (params : List Parameter) :
    (d.withParams params).body = d.body.map (Term.abstOver params) :=
  rfl

namespace Signature

/-- The type of each parameter is a type where the parameters before it are bound. -/
def TypesParams (σ : Signature) (Γ : Context) (params : List Parameter) : Prop :=
  ∀ i p, params[i]? = some p → σ.HasSort (Γ.extend (params.take i)) p.type .type

variable {σ : Signature} {Γ : Context}

theorem typesParams_nil : σ.TypesParams Γ [] :=
  fun i p h => by simp at h

theorem typesParams_cons {p : Parameter} {params : List Parameter} :
    σ.TypesParams Γ (p :: params)
      ↔ σ.HasSort Γ p.type .type ∧ σ.TypesParams (Γ.bind (some p.name) (some p.type)) params := by
  constructor
  · exact fun h => ⟨h 0 p rfl, fun i q hq => h (i + 1) q hq⟩
  · rintro ⟨hp, hparams⟩ i q hq
    cases i with
    | zero =>
        obtain rfl := Option.some.inj hq
        exact hp
    | succ i => exact hparams i q hq

/-- A product has the sort of its codomain, if the domain is a type. -/
theorem hasSort_prod_iff {x : Option String} {A B T : Term} :
    σ.HasSort Γ (.prod x A B) T
      ↔ σ.HasSort Γ A .type ∧ σ.HasSort (Γ.bind x (some A)) B T := by
  rw [← infers_prod_iff]
  constructor
  · rintro ⟨hT, S, hS, hST⟩
    obtain ⟨-, hsort, -⟩ := infers_prod_iff.1 hS
    -- what is inferred for a product is a sort already
    obtain rfl := (Whnf.of_isSort hsort).unique hST
    exact hS
  · intro h
    have hsort := (infers_prod_iff.1 h).2.1
    exact ⟨hsort, T, h, .of_isSort hsort⟩

theorem hasSort_prodOver_iff {params : List Parameter} {A T : Term} :
    σ.HasSort Γ (.prodOver params A) T
      ↔ σ.TypesParams Γ params ∧ σ.HasSort (Γ.extend params) A T := by
  induction params generalizing Γ with
  | nil => exact (and_iff_right typesParams_nil).symm
  | cons p params ih =>
      rw [Term.prodOver, List.foldr_cons, hasSort_prod_iff, typesParams_cons, and_assoc]
      exact and_congr_right fun _ => ih

theorem checks_abstOver_iff {params : List Parameter} (hparams : ∀ p ∈ params, p.type ≠ .joker)
    {t A : Term} :
    σ.Checks Γ (.abstOver params t) (.prodOver params A)
      ↔ σ.TypesParams Γ params ∧ σ.Checks (Γ.extend params) t A := by
  induction params generalizing Γ with
  | nil => exact (and_iff_right typesParams_nil).symm
  | cons p params ih =>
      obtain ⟨hp, hparams⟩ := List.forall_mem_cons.1 hparams
      have hsame : σ.Answers [⟨p.type, p.type, 0⟩] true :=
        .of_same (List.forall_mem_singleton.2 rfl)
      rw [Term.abstOver, Term.prodOver, List.foldr_cons, List.foldr_cons, checks_abst_iff hp,
        and_iff_right hsame, typesParams_cons, and_assoc]
      exact and_congr_right fun _ => ih hparams

/-- Folding parameters into a declaration keeps what it says. Its definition passes the check
against its type exactly if each parameter has a type where those before it are bound, and the
definition passes the check where all are bound. If there are parameters, what is inferred for the
type is the sort that the type has where all are bound, again exactly if each parameter has a type.
-/
theorem typing_withParams (σ : Signature) (Γ : Context) (d : Declaration) (params : List Parameter)
    (hparams : ∀ p ∈ params, p.type ≠ .joker) {A t A' t' : Term} (hA : d.type = some A)
    (ht : d.body = some t) (hA' : (d.withParams params).type = some A')
    (ht' : (d.withParams params).body = some t') :
    (σ.Checks Γ t' A' ↔ σ.TypesParams Γ params ∧ σ.Checks (Γ.extend params) t A)
      ∧ (params ≠ [] → ∀ T,
        σ.Infers Γ A' T ↔ σ.TypesParams Γ params ∧ σ.HasSort (Γ.extend params) A T) := by
  rw [Declaration.type_withParams, hA] at hA'
  rw [Declaration.body_withParams, ht] at ht'
  obtain rfl : Term.prodOver params A = A' := Option.some.inj hA'
  obtain rfl : Term.abstOver params t = t' := Option.some.inj ht'
  refine ⟨checks_abstOver_iff hparams, fun hne T => ?_⟩
  obtain ⟨p, rest, rfl⟩ := List.exists_cons_of_ne_nil hne
  rw [← hasSort_prodOver_iff, Term.prodOver, List.foldr_cons, infers_prod_iff, hasSort_prod_iff]

/-- The symbols `nat : Type` and `vec : nat -> Type`. -/
def vectors : Signature where
  entries := [(⟨"nat"⟩, ⟨.type, false, false⟩),
    (⟨"vec"⟩, ⟨.prod none (.symb ⟨"nat"⟩) .type, false, false⟩)]

/-- The parameters `(n : nat) (v : vec n)`. -/
def vectorParams : List Parameter :=
  [⟨"n", .symb ⟨"nat"⟩⟩, ⟨"v", .appl (.symb ⟨"vec"⟩) (.bvar 0 none)⟩]

/-- The definition of `copy : vec n` as `v`. -/
def copyVector : Declaration :=
  ⟨"copy", some (.appl (.symb ⟨"vec"⟩) (.bvar 1 none)), some (.bvar 0 none), false, false⟩

/-- The second parameter and the type refer to the first. -/
theorem typing_withParams_vectors :
    (∀ p ∈ vectorParams, p.type ≠ .joker) ∧ vectors.TypesParams [] vectorParams
      ∧ vectors.Checks (Context.extend [] vectorParams) (.bvar 0 none)
        (.appl (.symb ⟨"vec"⟩) (.bvar 1 none))
      ∧ ∃ A t, (copyVector.withParams vectorParams).type = some A
        ∧ (copyVector.withParams vectorParams).body = some t
        ∧ vectors.Checks [] t A ∧ vectors.Infers [] A .type := by
  have hjoker : ∀ p ∈ vectorParams, p.type ≠ .joker := by simp [vectorParams]
  have hnat : vectors.HasSort [] (.symb ⟨"nat"⟩) .type := ⟨.inl rfl, .type, ⟨9, by cbv⟩, 9, by cbv⟩
  have hvec : vectors.HasSort [⟨some "n", some (.symb ⟨"nat"⟩)⟩]
      (.appl (.symb ⟨"vec"⟩) (.bvar 0 none)) .type :=
    ⟨.inl rfl, .type, ⟨9, by cbv⟩, 9, by cbv⟩
  have htypes : vectors.TypesParams [] vectorParams :=
    typesParams_cons.2 ⟨hnat, typesParams_cons.2 ⟨hvec, typesParams_nil⟩⟩
  have hcheck : vectors.Checks (Context.extend [] vectorParams) (.bvar 0 none)
      (.appl (.symb ⟨"vec"⟩) (.bvar 1 none)) := ⟨9, by cbv⟩
  have hsort : vectors.HasSort (Context.extend [] vectorParams)
      (.appl (.symb ⟨"vec"⟩) (.bvar 1 none)) .type :=
    ⟨.inl rfl, .type, ⟨9, by cbv⟩, 9, by cbv⟩
  obtain ⟨hchecks, hinfers⟩ :=
    typing_withParams vectors [] copyVector vectorParams hjoker rfl rfl rfl rfl
  refine ⟨hjoker, htypes, hcheck, _, _, rfl, rfl, hchecks.2 ⟨htypes, hcheck⟩, ?_⟩
  exact (hinfers (List.cons_ne_nil _ _) .type).2 ⟨htypes, hsort⟩

end Signature

end LambdaPi
