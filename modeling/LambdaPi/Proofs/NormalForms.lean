import Mathlib
import LambdaPi.Proofs.FirstMatch
import LambdaPi.Proofs.NameBlindness
import LambdaPi.Proofs.WellFormedPatterns

/-!
# Normal forms, part by part

The normal form of a term in weak head normal form is made of the normal forms of its parts
(`Signature.Whnf.parts`). The parts of an application are a function and an argument, and the
function is a spine with one argument less. That it has a normal form, and the one that is seen in
the normal form of the application, is not obvious: a symbol applied to fewer arguments consults
another decision tree.

But a rule that matches fewer arguments matches more of them too, so the shorter spine cannot fire a
rule (`Signature.Stuck.of_append`) if it comes to an answer at all. It does because the arguments
have normal forms: looking at a column of the search reduces it to weak head normal form, whose parts
have normal forms again, and no meta-variable of a left-linear rule is bound twice, so nothing is
compared (`Signature.find_returns`).
-/

namespace LambdaPi

/-! ## Budgets -/

/-- What holds of each element on some budget, and of larger ones too, holds of all on one budget. -/
theorem exists_budget_forall {α : Type} {P : Nat → α → Prop}
    (hmono : ∀ {n m a}, n ≤ m → P n a → P m a) {as : List α} (h : ∀ a ∈ as, ∃ n, P n a) :
    ∃ n, ∀ a ∈ as, P n a := by
  induction as with
  | nil => exact ⟨0, nofun⟩
  | cons a as ih =>
      obtain ⟨n, hn⟩ := h a (List.mem_cons_self ..)
      obtain ⟨m, hm⟩ := ih fun b hb => h b (List.mem_cons_of_mem _ hb)
      refine ⟨max n m, List.forall_mem_cons.2 ⟨hmono (Nat.le_max_left n m) hn, fun b hb => ?_⟩⟩
      exact hmono (Nat.le_max_right n m) (hm b hb)

theorem Traced.value_mapM_eq_some {α β : Type} {f : α → Traced β} {as : List α} {bs : List β} :
    (as.mapM f).value = some bs ↔ List.Forall₂ (fun a b => (f a).value = some b) as bs := by
  rw [value_mapM]
  induction as generalizing bs with
  | nil => simp [eq_comm]
  | cons a as ih =>
      rw [List.mapM_cons, List.forall₂_cons_left_iff]
      constructor
      · intro h
        obtain ⟨b, hb, h⟩ := Option.bind_eq_some_iff.1 h
        obtain ⟨bs', hbs, h⟩ := Option.bind_eq_some_iff.1 h
        obtain rfl := Option.some.inj h
        exact ⟨b, bs', hb, ih.1 hbs, rfl⟩
      · rintro ⟨b, bs', hb, hbs, rfl⟩
        rw [hb, ih.2 hbs]
        rfl

/-- Two lists related element by element, one of which ends with an element. -/
theorem forall₂_concat_left {α β : Type} {R : α → β → Prop} {as : List α} {a : α} {cs : List β}
    (h : List.Forall₂ R (as ++ [a]) cs) :
    ∃ bs b, cs = bs ++ [b] ∧ List.Forall₂ R as bs ∧ R a b := by
  induction as generalizing cs with
  | nil =>
      cases h with
      | cons hab hrest =>
          cases hrest
          exact ⟨[], _, rfl, .nil, hab⟩
  | cons a' as ih =>
      cases h with
      | cons hab hrest =>
          obtain ⟨bs, b, rfl, hbs, hb⟩ := ih hrest
          exact ⟨_ :: bs, b, rfl, .cons hab hbs, hb⟩

theorem Term.unapply_appl (f a : Term) : (appl f a).unapply = (f.unapply.1, f.unapply.2 ++ [a]) := by
  have honto : ∀ (t : Term) (rest : List Term),
      t.unapplyOnto rest = (t.unapply.1, t.unapply.2 ++ rest) := by
    intro t
    induction t with
    | appl f a ihf _ =>
        intro rest
        rw [unapply, unapplyOnto, unapplyOnto, ihf, ihf [a], List.append_assoc]
        rfl
    | _ => exact fun rest => rfl
  exact honto f [a]

/-- The second term has the outermost constructor of the first, and its parts are related to those of
the first. -/
inductive Term.Parts (R : Term → Term → Prop) : Term → Term → Prop
  | kind : Parts R kind kind
  | type : Parts R type type
  | symb {s} : Parts R (symb s) (symb s)
  | bvar {n x} : Parts R (bvar n x) (bvar n x)
  | joker : Parts R joker joker
  | appl {f f' a a'} : R f f' → R a a' → Parts R (appl f a) (appl f' a')
  | prod {x A A' B B'} : R A A' → R B B' → Parts R (prod x A B) (prod x A' B')
  | abst {x t t'} : R t t' → Parts R (abst x none t) (abst x none t')
  | annotated {x A A' t t'} : R A A' → R t t' →
      Parts R (abst x (some A) t) (abst x (some A') t')
  | mvar {m as as'} : List.Forall₂ R as as' → Parts R (mvar m as) (mvar m as')

namespace Term

/-- The terms directly below the outermost constructor. -/
def parts : Term → List Term
  | appl f a => [f, a]
  | prod _ A B => [A, B]
  | abst _ A t => A.toList ++ [t]
  | mvar _ args => args
  | _ => []

theorem induction_parts {P : Term → Prop} (h : ∀ t, (∀ p ∈ t.parts, P p) → P t) (t : Term) :
    P t := by
  induction t with
  | appl f a ihf iha => exact h _ (by simp [parts, ihf, iha])
  | prod x A B ihA ihB => exact h _ (by simp [parts, ihA, ihB])
  | abst x A t ihA iht => exact h _ (by simpa [parts, or_imp, forall_and, iht] using ihA)
  | mvar m args ih => exact h _ ih
  | _ => exact h _ (by simp [parts])

theorem forall_mem_subterms {P : Term → Prop} {t : Term} :
    (∀ v ∈ t.subterms, P v) ↔ P t ∧ ∀ p ∈ t.parts, ∀ v ∈ p.subterms, P v := by
  cases t with
  | abst x A t => cases A <;> simp [subterms, subtermsAnn, parts, or_imp, forall_and]
  | mvar m args =>
      simp only [subterms, subtermsArgs_eq, parts, List.forall_mem_cons, List.forall_mem_flatMap]
  | _ => simp [subterms, parts, or_imp, forall_and]

theorem Parts.forall₂ {R : Term → Term → Prop} {t u : Term} (h : t.Parts R u) :
    List.Forall₂ R t.parts u.parts := by
  cases h <;> simp_all [parts]

theorem Parts.isAppl_eq {R : Term → Term → Prop} {t u : Term} (h : t.Parts R u) :
    u.isAppl = t.isAppl := by
  cases h <;> rfl

theorem Parts.self {R : Term → Term → Prop} {t : Term} (h : ∀ p ∈ t.parts, R p p) :
    t.Parts R t := by
  cases t with
  | appl f a => exact .appl (h f (by simp [parts])) (h a (by simp [parts]))
  | prod x A B => exact .prod (h A (by simp [parts])) (h B (by simp [parts]))
  | abst x A t =>
      cases A with
      | none => exact .abst (h t (by simp [parts]))
      | some A => exact .annotated (h A (by simp [parts])) (h t (by simp [parts]))
  | mvar m args => exact .mvar (List.forall₂_same.2 h)
  | _ => constructor

theorem isAppl_unapply (t : Term) : t.unapply.1.isAppl = false := by
  induction t with
  | appl f a ihf _ =>
      rw [unapply_appl]
      exact ihf
  | _ => rfl

end Term

namespace Signature

variable {σ : Signature}

theorem reducer_below {n m : Nat} (h : n ≤ m) : (σ.reducer n).Below (σ.reducer m) where
  whnf := whnf_below h
  nf := (budget_below h).2.1
  convertible _ _ := (budget_below h).2.2 _

/-- The term has a normal form. -/
def Normalizes (σ : Signature) (t : Term) : Prop :=
  ∃ u, σ.Nf t u

/-- What happens once the head is reduced. -/
theorem nf_iff_exists {t v : Term} : σ.Nf t v ↔ ∃ w n head args, σ.Whnf t w
    ∧ (mapParts (σ.nf n) w.unapply.1).value = some head
    ∧ (w.unapply.2.mapM (σ.nf n)).value = some args ∧ v = head.apply args := by
  constructor
  · rintro ⟨n, hn⟩
    cases n with
    | zero =>
        rw [nf] at hn
        cases hn
    | succ n =>
        simp only [nf, Traced.value_bind, Traced.value_pure] at hn
        obtain ⟨w, hw, hn⟩ := Option.bind_eq_some_iff.1 hn
        obtain ⟨head, hhead, hn⟩ := Option.bind_eq_some_iff.1 hn
        obtain ⟨args, hargs, hn⟩ := Option.bind_eq_some_iff.1 hn
        exact ⟨w, n, head, args, ⟨n, hw⟩, hhead, hargs, (Option.some.inj hn).symm⟩
  · rintro ⟨w, n, head, args, ⟨m, hw⟩, hhead, hargs, rfl⟩
    refine ⟨max n m + 1, ?_⟩
    have hw' : (whnfBy (σ.spine? (max n m)) t).value = some w :=
      whnf_below (Nat.le_max_right n m) t w hw
    have hbelow := (budget_below (σ := σ) (Nat.le_max_left n m)).2.1
    have hhead' := mapParts_below hbelow w.unapply.1 head hhead
    have hargs' := Traced.Below.mapM hbelow w.unapply.2 args hargs
    simp only [nf, Traced.value_bind, hw', hhead', hargs', Option.bind_some, Traced.value_pure]

theorem Nf.whnf {t v : Term} (h : σ.Nf t v) : ∃ w, σ.Whnf t w ∧ σ.Nf w v := by
  obtain ⟨w, _, _, _, hw, -⟩ := nf_iff_exists.1 h
  exact ⟨w, hw, hw.nf_iff.1 h⟩

theorem parts_of_mapParts {n : Nat} {t u : Term} (ht : t.isAppl = false)
    (h : (mapParts (σ.nf n) t).value = some u) : t.Parts σ.Nf u := by
  cases t with
  | appl f a => cases ht
  | prod x A B =>
      simp only [mapParts, Traced.value_bind, Traced.value_pure] at h
      obtain ⟨A', hA, h⟩ := Option.bind_eq_some_iff.1 h
      obtain ⟨B', hB, h⟩ := Option.bind_eq_some_iff.1 h
      obtain rfl := Option.some.inj h
      exact .prod ⟨n, hA⟩ ⟨n, hB⟩
  | abst x A t =>
      cases A with
      | none =>
          simp only [mapParts, Traced.value_bind, Traced.value_pure] at h
          obtain ⟨t', ht', h⟩ := Option.bind_eq_some_iff.1 h
          obtain rfl := Option.some.inj h
          exact .abst ⟨n, ht'⟩
      | some A =>
          simp only [mapParts, Traced.value_bind, Traced.value_pure] at h
          obtain ⟨A', hA, h⟩ := Option.bind_eq_some_iff.1 h
          obtain ⟨t', ht', h⟩ := Option.bind_eq_some_iff.1 h
          obtain rfl := Option.some.inj h
          exact .annotated ⟨n, hA⟩ ⟨n, ht'⟩
  | mvar m args =>
      simp only [mapParts, Traced.value_bind, Traced.value_pure] at h
      obtain ⟨args', hargs, h⟩ := Option.bind_eq_some_iff.1 h
      obtain rfl := Option.some.inj h
      exact .mvar ((Traced.value_mapM_eq_some.1 hargs).imp fun _ _ hab => ⟨n, hab⟩)
  | _ =>
      obtain rfl := Option.some.inj h
      constructor

/-- One budget for the normal forms of several terms. -/
theorem forall₂_nf_iff {as bs : List Term} : List.Forall₂ σ.Nf as bs ↔
    ∃ n, List.Forall₂ (fun a b => (σ.nf n a).value = some b) as bs := by
  constructor
  · intro h
    induction h with
    | nil => exact ⟨0, .nil⟩
    | cons hab _ ih =>
        obtain ⟨n, hab⟩ := hab
        obtain ⟨m, hm⟩ := ih
        refine ⟨max n m, .cons ((budget_below (Nat.le_max_left n m)).2.1 _ _ hab) ?_⟩
        exact hm.imp fun a b h => (budget_below (Nat.le_max_right n m)).2.1 a b h
  · rintro ⟨n, h⟩
    exact h.imp fun _ _ hab => ⟨n, hab⟩

theorem mapParts_of_parts {t u : Term} (ht : t.isAppl = false) (h : t.Parts σ.Nf u) :
    ∃ n, (mapParts (σ.nf n) t).value = some u := by
  cases h with
  | appl => cases ht
  | prod hA hB =>
      obtain ⟨n, hn⟩ := forall₂_nf_iff.1 (.cons hA (.cons hB .nil))
      simp only [List.forall₂_cons] at hn
      exact ⟨n, by simp [mapParts, hn]⟩
  | abst hbody =>
      obtain ⟨n, hn⟩ := hbody
      exact ⟨n, by simp [mapParts, hn]⟩
  | annotated hA hbody =>
      obtain ⟨n, hn⟩ := forall₂_nf_iff.1 (.cons hA (.cons hbody .nil))
      simp only [List.forall₂_cons] at hn
      exact ⟨n, by simp [mapParts, hn]⟩
  | mvar hargs =>
      obtain ⟨n, hn⟩ := forall₂_nf_iff.1 hargs
      exact ⟨n, by simp only [mapParts, Traced.value_bind, Traced.value_mapM_eq_some.2 hn,
        Option.bind_some, Traced.value_pure]⟩
  | _ => exact ⟨0, rfl⟩

/-- A term is normalized by reducing its head, and then normalizing what its head and its arguments
have become. -/
theorem nf_iff_spine {t v : Term} : σ.Nf t v ↔ ∃ w head args, σ.Whnf t w
    ∧ w.unapply.1.Parts σ.Nf head ∧ List.Forall₂ σ.Nf w.unapply.2 args ∧ v = head.apply args := by
  rw [nf_iff_exists]
  constructor
  · rintro ⟨w, n, head, args, hw, hhead, hargs, rfl⟩
    exact ⟨w, head, args, hw, parts_of_mapParts (Term.isAppl_unapply w) hhead,
      forall₂_nf_iff.2 ⟨n, Traced.value_mapM_eq_some.1 hargs⟩, rfl⟩
  · rintro ⟨w, head, args, hw, hhead, hargs, rfl⟩
    obtain ⟨n, hhead⟩ := mapParts_of_parts (Term.isAppl_unapply w) hhead
    obtain ⟨m, hargs⟩ := forall₂_nf_iff.1 hargs
    refine ⟨w, max n m, head, args, hw, ?_, Traced.value_mapM_eq_some.2 ?_, rfl⟩
    · exact mapParts_below (budget_below (Nat.le_max_left n m)).2.1 _ _ hhead
    · exact hargs.imp fun a b hab => (budget_below (Nat.le_max_right n m)).2.1 a b hab

/-- A term in weak head normal form is normalized part by part. -/
theorem Nf.of_whnf {w v : Term} (hw : σ.Whnf w w) (h : σ.Nf w v) :
    ∃ head args, w.unapply.1.Parts σ.Nf head ∧ List.Forall₂ σ.Nf w.unapply.2 args
      ∧ v = head.apply args := by
  obtain ⟨w', head, args, hw', hhead, hargs, rfl⟩ := nf_iff_spine.1 h
  obtain rfl := hw.unique hw'
  exact ⟨head, args, hhead, hargs, rfl⟩

/-- Terms that differ in names only have normal forms that do. -/
theorem Nf.alike {t t' u : Term} (h : σ.Nf t u) (ht : t.Alike t') :
    ∃ u', σ.Nf t' u' ∧ u.Alike u' := by
  obtain ⟨n, hn⟩ := h
  have hrel := (σ.blind n).nf (Term.alike_iff_like.1 ht)
  rw [Traced.Related, hn] at hrel
  generalize hu : (σ.nf n t').value = u? at hrel
  cases hrel with
  | some hrel => exact ⟨_, ⟨n, hu⟩, Term.alike_iff_like.2 hrel⟩

/-! ## Stuck spines -/

/-- A head applied to arguments cannot make a step. -/
def Stuck (σ : Signature) (head : Term) (args : List Term) : Prop :=
  ∃ n, (σ.spine? n head args).value = some none

theorem Whnf.stuck {w : Term} (h : σ.Whnf w w) : σ.Stuck w.unapply.1 w.unapply.2 := by
  obtain ⟨n, h⟩ := h
  simp only [whnf, whnfBy, Traced.value_bind, Traced.value_pure] at h
  obtain ⟨u?, hu, h⟩ := Option.bind_eq_some_iff.1 h
  cases u? with
  | none => exact ⟨n, hu⟩
  | some u =>
      obtain rfl : u = w := Option.some.inj h
      exact spine?_stuck hu

theorem Stuck.whnf {t : Term} (h : σ.Stuck t.unapply.1 t.unapply.2) : σ.Whnf t t := by
  obtain ⟨n, hn⟩ := h
  refine ⟨n, ?_⟩
  simp only [Signature.whnf, whnfBy, Traced.value_bind, hn]
  rfl

/-- A spine is stuck if there is no step at its head. -/
theorem stuck_iff_headStep? {head : Term} {args : List Term} :
    σ.Stuck head args ↔ ∃ n, (σ.headStep? (σ.reducer n) head args).value = some none := by
  constructor
  · rintro ⟨n, h⟩
    cases n with
    | zero =>
        rw [spine?] at h
        cases h
    | succ n =>
        rw [spine?, Traced.value_bind] at h
        obtain ⟨step, hstep, h⟩ := Option.bind_eq_some_iff.1 h
        cases step with
        | none => exact ⟨n, hstep⟩
        | some next =>
            obtain ⟨head', args'⟩ := next
            rw [Traced.value_bind] at h
            obtain ⟨_, -, h⟩ := Option.bind_eq_some_iff.1 h
            cases h
  · rintro ⟨n, h⟩
    refine ⟨n + 1, ?_⟩
    rw [spine?, Traced.value_bind]
    have hstep : (σ.headStep? ⟨whnfBy (σ.spine? n), σ.nf n, fun t u => σ.agree n [⟨t, u, 0⟩]⟩
      head args).value = some none := h
    rw [hstep]
    rfl

theorem stuck_symb_iff {s : Symbol} {args : List Term} :
    σ.Stuck (.symb s) args ↔ ∃ n, (σ.fireWith (σ.reducer n) s args).value = some none := by
  rw [stuck_iff_headStep?]
  refine exists_congr fun n => ?_
  simp only [headStep?, Traced.value_bind, Traced.value_emit, Option.bind_some]
  cases (σ.fireWith (σ.reducer n) s args).value with
  | none => simp
  | some fired => cases fired <;> simp

/-! ## The search of a decision tree returns -/

/-- The parts that a switch looks at have normal forms if the term has one. -/
theorem Normalizes.parts {u : Term} (h : σ.Normalizes u) (hu : σ.Whnf u u) {shape : Shape}
    {parts : List Term} (hparts : u.shape? = some (shape, parts)) :
    ∀ t ∈ parts, σ.Normalizes t := by
  obtain ⟨v, hv⟩ := h
  obtain ⟨head, args, hhead, hargs, -⟩ := hv.of_whnf hu
  rcases Term.shape?_cases hparts with ⟨x, A, body, rfl, -, rfl⟩ | ⟨s, as, has, -, rfl⟩
    | ⟨k, x, as, has, -, rfl⟩
  · refine List.forall_mem_singleton.2 ?_
    cases hhead with
    | abst hbody => exact ⟨_, hbody⟩
    | annotated _ hbody => exact ⟨_, hbody⟩
  all_goals
    rw [has] at hargs
    intro t ht
    obtain ⟨b, -, hb⟩ := forall₂_exists_right hargs (List.mem_reverse.1 ht)
    exact ⟨b, hb⟩

/-- Binding a meta-variable that is not bound yet returns if its column has a normal form. -/
theorem run_returns {test : MetaTest} {columns : List Column} {θ : Bindings}
    (hnf : ∀ c ∈ columns, σ.Normalizes c.term) (hnew : θ.lookup test.name = none) :
    ∃ n θ?, (test.run (σ.reducer n) columns θ).value = some θ? := by
  cases hc : columns[test.column]? with
  | none => exact ⟨0, none, by rw [MetaTest.run, hc]; rfl⟩
  | some c =>
      obtain ⟨v, n, hv⟩ := hnf c (List.mem_of_getElem? hc)
      have hv' : ((σ.reducer n).nf c.term).value = some v := hv
      obtain ⟨b?, hb⟩ : ∃ b?, (test.settle (σ.reducer n) c.term).value = some b? := by
        simp only [MetaTest.settle]
        split
        · exact ⟨_, rfl⟩
        · rw [Traced.value_bind, hv']
          simp only [Option.bind_some]
          split
          · exact ⟨_, rfl⟩
          · exact ⟨none, rfl⟩
      refine ⟨n, ?_⟩
      simp only [MetaTest.run, hc, Traced.value_bind, hb, Option.bind_some]
      cases b? with
      | none => exact ⟨none, rfl⟩
      | some b =>
          simp only [hnew]
          exact ⟨_, rfl⟩

theorem runAll_returns {tests : List MetaTest} {columns : List Column} {θ : Bindings}
    (hnf : ∀ c ∈ columns, σ.Normalizes c.term) (hnodup : (tests.map (·.name)).Nodup)
    (hnew : ∀ test ∈ tests, θ.lookup test.name = none) :
    ∃ n θ?, (MetaTest.runAll (σ.reducer n) columns tests θ).value = some θ? := by
  induction tests generalizing θ with
  | nil => exact ⟨0, some θ, rfl⟩
  | cons test tests ih =>
      obtain ⟨n, θ₁?, hrun⟩ := run_returns hnf (hnew test (List.mem_cons_self ..))
      cases θ₁? with
      | none =>
          refine ⟨n, none, ?_⟩
          rw [MetaTest.runAll, Traced.value_bind, hrun]
          rfl
      | some θ₁ =>
          rw [List.map_cons, List.nodup_cons] at hnodup
          obtain ⟨m, θ?, hrest⟩ : ∃ m θ?,
              (MetaTest.runAll (σ.reducer m) columns tests θ₁).value = some θ? := by
            obtain ⟨b, rfl⟩ : ∃ b, θ₁ = θ ++ [(test.name, b)] := by
              cases hc : columns[test.column]? with
              | none =>
                  rw [MetaTest.run, hc] at hrun
                  cases hrun
              | some c => exact MetaTest.run_of_new hc (hnew test (List.mem_cons_self ..)) hrun
            refine ih hnodup.2 fun other hother => ?_
            have hne : other.name ≠ test.name := fun heq =>
              hnodup.1 (List.mem_map.2 ⟨other, hother, heq⟩)
            rw [List.lookup_append, hnew other (List.mem_cons_of_mem _ hother), Option.none_or]
            simp only [List.lookup_cons, List.lookup_nil, beq_eq_false_iff_ne.2 hne]
          have hn := (reducer_below (Nat.le_max_left n m)).run columns θ test _ hrun
          have hm := (reducer_below (Nat.le_max_right n m)).runAll columns tests θ₁ _ hrest
          refine ⟨max n m, θ?, ?_⟩
          rw [MetaTest.runAll, Traced.value_bind, hn]
          exact hm

end Signature

/-- Meta-variables are bound no more often than they occur in the row. -/
theorem Row.count_metaTests {X : MetaName} {cols : List Term} {ds : List Nat} {i : Nat}
    {tests : List MetaTest} (h : metaTests i cols ds = .ok tests) :
    (tests.map (·.name)).count X ≤ Term.metaCount X cols := by
  induction cols generalizing ds i tests with
  | nil =>
      obtain rfl : [] = tests := by simpa [metaTests] using h
      exact Nat.le_refl 0
  | cons p cols ih =>
      cases ds with
      | nil =>
          obtain rfl : [] = tests := by simpa [metaTests] using h
          exact Nat.zero_le _
      | cons d ds =>
          rw [Term.metaCount_cons]
          by_cases hp : ∃ Y args, p = .mvar (some Y) args
          · obtain ⟨Y, args, rfl⟩ := hp
            obtain ⟨positions, rest, -, hrest, rfl⟩ := metaTests_named h
            have hle := ih hrest
            have hself : [Y].count X ≤ (Term.mvar (some Y) args).metaNames.count X :=
              List.Sublist.count_le X (.cons_cons Y (List.nil_sublist _))
            rw [List.map_cons, ← List.singleton_append, List.count_append]
            exact Nat.add_le_add hself hle
          · have hskip := metaTests_skip (fun Y args heq => hp ⟨Y, args, heq⟩) h
            exact Nat.le_trans (ih hskip) (Nat.le_add_left ..)

/-- A rule that matches some arguments matches more of them. -/
theorem Rule.Matches.append {V : View} {rule : Rule} {as : List Term} {θ : Bindings}
    (h : rule.Matches V as θ) (bs : List Term) : rule.Matches V (as ++ bs) θ := by
  unfold Rule.Matches
  rw [List.take_append_of_le_length h.arity_le]
  exact h

namespace Signature

variable {σ : Signature}

/-- A switch returns if looking at its column, the branches for what is seen and the default do. -/
theorem switch_returns {j : Nat} {branches : List (Shape × Tree)} {otherwise : Tree}
    {columns : List Column} {c : Column} {u : Term} (hc : columns[j]? = some c)
    (hu : ∃ n, (c.whnf (σ.reducer n)).value = some u)
    (hbranches : ∀ shape parts tree, u.shape? = some (shape, parts) → (shape, tree) ∈ branches →
      ∃ n found, (tree.find (σ.reducer n)
        (columns.set j ⟨u, true⟩ ++ parts.map .unseen)).value = some found)
    (hother : ∃ n found, (otherwise.find (σ.reducer n) (columns.set j ⟨u, true⟩)).value
      = some found) :
    ∃ n found, ((Tree.switch j (.ofList branches) otherwise).find (σ.reducer n) columns).value
      = some found := by
  obtain ⟨n, hu⟩ := hu
  obtain ⟨k, found, hother⟩ := hother
  -- one budget for the branches that may be taken
  obtain ⟨l, hl⟩ : ∃ l, ∀ branch ∈ branches, ∀ parts, u.shape? = some (branch.1, parts) →
      ∃ found, (branch.2.find (σ.reducer l)
        (columns.set j ⟨u, true⟩ ++ parts.map .unseen)).value = some found := by
    refine exists_budget_forall ?_ ?_
    · intro n m branch hle hn parts hparts
      obtain ⟨found, hfound⟩ := hn parts hparts
      exact ⟨found, (reducer_below hle).find _ _ _ hfound⟩
    · rintro ⟨shape, tree⟩ hmem
      by_cases hsome : ∃ parts, u.shape? = some (shape, parts)
      · obtain ⟨parts, hparts⟩ := hsome
        obtain ⟨l, found, hfound⟩ := hbranches shape parts tree hparts hmem
        refine ⟨l, fun parts' hparts' => ?_⟩
        obtain rfl := (Prod.mk.inj (Option.some.inj (hparts.symm.trans hparts'))).2
        exact ⟨found, hfound⟩
      · exact ⟨0, fun parts hparts => absurd ⟨parts, hparts⟩ hsome⟩
  refine ⟨max n (max k l), ?_⟩
  have hn := (reducer_below (Nat.le_max_left n (max k l))).column c u hu
  have hk := (reducer_below (σ := σ) (Nat.le_trans (Nat.le_max_left k l)
    (Nat.le_max_right n (max k l)))).find otherwise _ _ hother
  have hl' := (reducer_below (σ := σ) (Nat.le_trans (Nat.le_max_right k l)
    (Nat.le_max_right n (max k l)))).find
  simp only [Tree.find, hc, Traced.value_bind, hn, Option.bind_some, Traced.value_emit]
  split
  · exact ⟨found, hk⟩
  · next shape parts hshape =>
    split
    · next search hsearch =>
      obtain ⟨tree, htree, rfl⟩ := Branches.find?_ofList_some hsearch
      obtain ⟨found, hfound⟩ := hl (shape, tree) htree parts hshape
      exact ⟨found, hl' tree _ _ hfound⟩
    · exact ⟨found, hk⟩

/-- The search of a compiled tree returns if all columns have normal forms and the rows are linear. -/
theorem find_returns {m : Matrix} {tree : Tree} (h : m.Compiled tree) (hm : m.Aligned)
    (hlinear : ∀ row ∈ m.rows, row.Linear) {columns : List Column}
    (hlen : columns.length = m.depths.length) (hcols : ColumnsReduced σ.view columns)
    (hnf : ∀ c ∈ columns, σ.Normalizes c.term) :
    ∃ n found, (tree.find (σ.reducer n) columns).value = some found := by
  induction h generalizing columns with
  | fail => exact ⟨0, none, by rw [Tree.find]; rfl⟩
  | @test m first rest tests otherwise hrows hrigid htests _ ih =>
      have hfirst : first ∈ m.rows := hrows ▸ List.mem_cons_self ..
      have hnodup : (tests.map (·.name)).Nodup := List.nodup_iff_count.2 fun X =>
        Nat.le_trans (Row.count_metaTests htests) (hlinear first hfirst X)
      obtain ⟨n, θ?, hrun⟩ := runAll_returns hnf hnodup (θ := []) fun _ _ => rfl
      obtain ⟨k, found, hfound⟩ := ih (hm.tail hrows)
        (fun row hrow => hlinear row (hrows ▸ List.mem_cons_of_mem _ hrow)) hlen hcols hnf
      have hn := (reducer_below (Nat.le_max_left n k)).runAll columns tests [] _ hrun
      have hk := (reducer_below (Nat.le_max_right n k)).find otherwise columns _ hfound
      refine ⟨max n k, ?_⟩
      rw [Tree.find, Traced.value_bind, hn]
      cases θ? with
      | some θ => exact ⟨_, rfl⟩
      | none => exact ⟨found, hk⟩
  | @switch m first rest j branches otherwise hrows hj hcheck hshapes _ _ ihshape ihother =>
      have hfirst : first ∈ m.rows := hrows ▸ List.mem_cons_self ..
      have hd := hm.getElem?_depths hfirst (Row.lt_of_firstRigid? hj)
      have hjlt : j < m.depths.length := (List.getElem?_eq_some_iff.1 hd).1
      obtain ⟨c, hc⟩ : ∃ c, columns[j]? = some c := ⟨_, List.getElem?_eq_getElem (hlen ▸ hjlt)⟩
      have hmem := List.mem_of_getElem? hc
      obtain ⟨v, hv⟩ := hnf c hmem
      obtain ⟨n, u, hu⟩ : ∃ n u, (c.whnf (σ.reducer n)).value = some u := by
        unfold Column.whnf
        split
        · exact ⟨0, c.term, rfl⟩
        · obtain ⟨w, ⟨n, hw⟩, -⟩ := hv.whnf
          exact ⟨n, w, hw⟩
      have hcu : σ.Whnf c.term u := hcols.whnf (within_view σ n) hmem hu
      have hnfu : σ.Normalizes u := ⟨v, hcu.nf_iff.1 hv⟩
      have hseen := hcols.set lawful_view hcu j
      have hnfseen : ∀ d ∈ columns.set j ⟨u, true⟩, σ.Normalizes d.term := by
        intro d hd
        rcases List.mem_or_eq_of_mem_set hd with hd | rfl
        · exact hnf d hd
        · exact hnfu
      refine switch_returns hc ⟨n, hu⟩ (fun shape parts tree hparts htree => ?_)
        (ihother (hm.others j) (fun row hrow => hlinear row (List.mem_filter.1 hrow).1)
          (by rw [List.length_set]; exact hlen) hseen hnfseen)
      refine ihshape shape tree htree (hm.specialize j shape) (fun row' hrow' => ?_)
        (by simp [Matrix.specialize, hlen, Term.length_of_shape? hparts])
        (hseen.append (.unseen parts)) (fun d hd => ?_)
      · obtain ⟨row, hrow, hspec⟩ := List.mem_filterMap.1 hrow'
        exact (hlinear row hrow).specialize (hm row hrow ▸ hjlt) hspec
      · rcases List.mem_append.1 hd with hd | hd
        · exact hnfseen d hd
        · obtain ⟨t, ht, rfl⟩ := List.mem_map.1 hd
          exact hnfu.parts hcu.fixed hparts t ht

theorem fireWith_of_constant {s : Symbol} (h : σ.isConstant s = true) (red : Reducer)
    (args : List Term) : (σ.fireWith red s args).value = some none := by
  have hnone : σ.treeFor? s args.length = none := by
    unfold isConstant at h
    unfold treeFor?
    cases hset : σ.ruleSet? s with
    | none => rfl
    | some set =>
        rw [hset] at h
        exact if_pos h
  simp [fireWith, consult, hnone]

/-- A symbol without rules cannot make a step. -/
theorem stuck_of_no_rules {P : Rule → Prop} (hσ : σ.Reachable P) {s : Symbol}
    (h : σ.rulesOf s = []) (args : List Term) : σ.Stuck (.symb s) args := by
  refine stuck_symb_iff.2 ⟨0, ?_⟩
  obtain ⟨tree?, htree⟩ := σ.exists_consult s args.length
  simp only [fireWith, Traced.value_bind, htree, Option.bind_some]
  cases tree? with
  | none => rfl
  | some tree =>
      obtain ⟨-, -, hcompiled⟩ := hσ.consult_some htree
      rw [h] at hcompiled
      generalize hroot : tree.root = root at hcompiled
      cases hcompiled with
      | fail => simp [DecisionTree.find, hroot, Tree.find]
      | test hrows => cases hrows
      | switch hrows => cases hrows

/-- No rule of the symbol can be fired on the arguments. -/
def Inert (σ : Signature) (s : Symbol) (args : List Term) : Prop :=
  σ.isConstant s = true ∨ ∀ rule ∈ σ.rulesOf s, ∀ θ, ¬ rule.Matches σ.view args θ

theorem Inert.of_append {s : Symbol} {as bs : List Term} (h : σ.Inert s (as ++ bs)) :
    σ.Inert s as :=
  h.imp_right fun hnone rule hrule θ hmatch => hnone rule hrule θ (hmatch.append bs)

section

variable (hσ : σ.Reachable fun rule => rule.Admissible ∧ rule.LeftLinear)

include hσ

theorem fireWith_returns {args : List Term} (hnf : ∀ a ∈ args, σ.Normalizes a) (s : Symbol) :
    ∃ n fired, (σ.fireWith (σ.reducer n) s args).value = some fired := by
  obtain ⟨tree?, htree⟩ := σ.exists_consult s args.length
  cases tree? with
  | none => exact ⟨0, none, by rw [fireWith, Traced.value_bind, htree]; rfl⟩
  | some tree =>
      obtain ⟨hle, -, hcompiled⟩ := hσ.consult_some htree
      obtain ⟨n, found, hfound⟩ : ∃ n found,
          (tree.find (σ.reducer n) (args.take tree.arity).reverse).value = some found := by
        refine find_returns hcompiled (DecisionTree.aligned_matrixOf fun rule hrule => ?_)
          (fun row hrow => ?_) (by simp [DecisionTree.matrixOf, hle]) (.unseen _) (fun c hc => ?_)
        · simpa using (List.mem_filter.1 hrule).2
        · obtain ⟨rule, hrule, rfl⟩ := List.mem_map.1 hrow
          exact DecisionTree.linear_rowOf
            ((hσ.coherent s).holds rule (List.mem_filter.1 hrule).1).2 tree.arity
        · obtain ⟨t, ht, rfl⟩ := List.mem_map.1 hc
          exact hnf t (List.mem_of_mem_take (List.mem_reverse.1 ht))
      refine ⟨n, ?_⟩
      simp only [fireWith, Traced.value_bind, htree, Option.bind_some, hfound]
      cases found with
      | none => exact ⟨none, rfl⟩
      | some found => exact ⟨_, rfl⟩

/-- Firing a symbol ends without a step exactly when no rule can be fired. -/
theorem fireWith_none_iff {s : Symbol} {args : List Term} {n : Nat} {fired : Option (Term × Nat)}
    (h : (σ.fireWith (σ.reducer n) s args).value = some fired) : fired = none ↔ σ.Inert s args := by
  constructor
  · rintro rfl
    have hexact : True → σ.view.Exact ∧ (σ.reducer n).Settles σ.view := fun _ =>
      ⟨exact_view hσ fun _ h => h.1.regular, settles_reducer hσ (fun _ h => h.1.regular) n⟩
    refine (Bool.eq_false_or_eq_true (σ.isConstant s)).imp_right fun hconst => ?_
    exact hσ.fireWith_none lawful_view (within_view σ n) hexact (fun _ _ h => h.2) hconst h trivial
  · rintro (hconst | hnone)
    · rw [fireWith_of_constant hconst] at h
      exact (Option.some.inj h).symm
    · cases fired with
      | none => rfl
      | some fired =>
          obtain ⟨t, k⟩ := fired
          obtain ⟨rule, θ, _, hrule, hmatch, -⟩ :=
            hσ.fireWith_matches lawful_view (within_view σ n) h
          exact absurd hmatch (hnone rule hrule θ)

theorem Stuck.inert {s : Symbol} {args : List Term} (h : σ.Stuck (.symb s) args) :
    σ.Inert s args := by
  obtain ⟨n, hn⟩ := stuck_symb_iff.1 h
  exact (fireWith_none_iff hσ hn).1 rfl

/-- The head of a spine that is stuck makes no step on fewer arguments either. -/
theorem Stuck.headStep?_of_append {head : Term} {as bs : List Term} {n : Nat}
    {step : Option (Term × List Term)} (h : σ.Stuck head (as ++ bs))
    (hstep : (σ.headStep? (σ.reducer n) head as).value = some step) : step = none := by
  cases head with
  | symb s =>
      simp only [headStep?, Traced.value_bind, Traced.value_emit, Option.bind_some] at hstep
      obtain ⟨fired, hfired, hstep⟩ := Option.bind_eq_some_iff.1 hstep
      obtain rfl := (fireWith_none_iff hσ hfired).2 (h.inert hσ).of_append
      exact (Option.some.inj hstep).symm
  | appl f a =>
      obtain ⟨n, hn⟩ := h
      cases isAppl_of_spine?_none hn
  | abst x A t =>
      cases as with
      | nil => exact (Option.some.inj hstep).symm
      | cons a as =>
          obtain ⟨n, hn⟩ := stuck_iff_headStep?.1 h
          cases hn
  | _ => exact (Option.some.inj hstep).symm

/-- A spine that is stuck is so too with fewer arguments, if these have normal forms. -/
theorem Stuck.of_append {head : Term} {as bs : List Term} (h : σ.Stuck head (as ++ bs))
    (hnf : ∀ a ∈ as, σ.Normalizes a) : σ.Stuck head as := by
  obtain ⟨n, step, hstep⟩ : ∃ n step, (σ.headStep? (σ.reducer n) head as).value = some step := by
    cases head with
    | symb s =>
        obtain ⟨n, fired, hfired⟩ := fireWith_returns hσ hnf s
        refine ⟨n, ?_⟩
        simp only [headStep?, Traced.value_bind, Traced.value_emit, Option.bind_some, hfired]
        cases fired <;> exact ⟨_, rfl⟩
    | abst x A t => cases as <;> exact ⟨0, _, rfl⟩
    | _ => exact ⟨0, _, rfl⟩
  obtain rfl := h.headStep?_of_append hσ hstep
  exact stuck_iff_headStep?.2 ⟨n, hstep⟩

/-- The normal form of a term in weak head normal form is made of those of its parts. -/
theorem Whnf.parts {w v : Term} (hw : σ.Whnf w w) (h : σ.Nf w v) : w.Parts σ.Nf v := by
  obtain ⟨head, args, hhead, hargs, rfl⟩ := h.of_whnf hw
  cases w with
  | appl f a =>
      have hstuck := hw.stuck
      rw [Term.unapply_appl] at hhead hargs hstuck
      obtain ⟨as, b, rfl, has, hb⟩ := forall₂_concat_left hargs
      have hf : σ.Whnf f f := by
        refine (hstuck.of_append hσ fun c hc => ?_).whnf
        obtain ⟨d, -, hd⟩ := forall₂_exists_right has hc
        exact ⟨d, hd⟩
      rw [Term.apply_append]
      exact .appl (nf_iff_spine.2 ⟨f, head, as, hf, hhead, has, rfl⟩) hb
  | _ =>
      cases hargs
      exact hhead

end

end Signature

end LambdaPi
