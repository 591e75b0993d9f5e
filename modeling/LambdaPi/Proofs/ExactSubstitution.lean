import LambdaPi.Proofs.Bindings
import LambdaPi.Proofs.Places
import LambdaPi.Term.Display

/-!
# Substitution with display names

`Term.replace` keeps a compound term none of whose parts moved, and a variable that keeps its
number did not move, whatever name it is given. Hence what is kept may show another name than it
would if it were rebuilt. Keeping makes no difference exactly if everything that is kept would
have been rebuilt as it stands: `Term.replace_eq_mapVars_iff`.

For shifting this is always so. A shifted term does not have the variables that were made room
for, so that a substitution for one of them takes back a shift with all names (`Term.shift_laws`).
Substitution for a variable that occurs agrees with `Term.plainSubst`, which rebuilds everything,
unless the variable is replaced by itself under another name; in that case it does so exactly if
no term that is kept shows the old name (`Term.substAt_eq_plainSubst_iff`).
-/

namespace LambdaPi

namespace Term

/-! ## What is kept -/

section

variable {σ : Replacement} {k : Nat}

theorem replaceAnn_kept {A : Option Term} :
    (replaceAnn σ k A).kept = true ↔ ∀ B, A = some B → (B.replace σ k).kept = true := by
  cases A <;> simp [replaceAnn]

theorem replaceArgs_kept {args : List Term} :
    (replaceArgs σ k args).kept = true ↔ ∀ a ∈ args, (a.replace σ k).kept = true := by
  induction args with
  | nil => simp [replaceArgs]
  | cons a args ih => simp only [replaceArgs, Bool.and_eq_true, List.forall_mem_cons, ih]

theorem replaceAnn_result (A : Option Term) :
    (replaceAnn σ k A).result = A.map fun B => (B.replace σ k).result := by
  cases A <;> rfl

theorem replaceArgs_result (args : List Term) :
    (replaceArgs σ k args).result = args.map fun a => (a.replace σ k).result := by
  induction args with
  | nil => rfl
  | cons a args ih => simp only [replaceArgs, List.map_cons, ih]

/-- A compound term is kept if all its parts are, and then it is the result. -/
theorem kept_of_ite {c : Bool} {t u : Term} {r : Replaced Term}
    (h : r = if c then ⟨t, true⟩ else ⟨u, false⟩) :
    (r.kept = true ↔ c = true) ∧ r.result = if r.kept then t else u := by
  cases c <;> simp [h]

theorem replace_appl (f a : Term) :
    (((appl f a).replace σ k).kept = true
        ↔ (f.replace σ k).kept = true ∧ (a.replace σ k).kept = true)
      ∧ ((appl f a).replace σ k).result = if ((appl f a).replace σ k).kept then appl f a
        else appl (f.replace σ k).result (a.replace σ k).result := by
  rw [← Bool.and_eq_true]
  exact kept_of_ite (by simp only [replace])

theorem replace_prod (x : Option String) (A B : Term) :
    (((prod x A B).replace σ k).kept = true
        ↔ (A.replace σ k).kept = true ∧ (B.replace σ (k + 1)).kept = true)
      ∧ ((prod x A B).replace σ k).result = if ((prod x A B).replace σ k).kept then prod x A B
        else prod x (A.replace σ k).result (B.replace σ (k + 1)).result := by
  rw [← Bool.and_eq_true]
  exact kept_of_ite (by simp only [replace])

theorem replace_abst (x : String) (A : Option Term) (t : Term) :
    (((abst x A t).replace σ k).kept = true
        ↔ (∀ B, A = some B → (B.replace σ k).kept = true)
          ∧ (t.replace σ (k + 1)).kept = true)
      ∧ ((abst x A t).replace σ k).result = if ((abst x A t).replace σ k).kept then abst x A t
        else abst x (A.map fun B => (B.replace σ k).result) (t.replace σ (k + 1)).result := by
  rw [← replaceAnn_kept, ← replaceAnn_result, ← Bool.and_eq_true]
  exact kept_of_ite (by simp only [replace])

theorem replace_mvar (m : Option MetaName) (args : List Term) :
    (((mvar m args).replace σ k).kept = true ↔ ∀ a ∈ args, (a.replace σ k).kept = true)
      ∧ ((mvar m args).replace σ k).result = if ((mvar m args).replace σ k).kept then mvar m args
        else mvar m (args.map fun a => (a.replace σ k).result) := by
  rw [← replaceArgs_kept, ← replaceArgs_result]
  exact kept_of_ite (by simp only [replace])

/-- Kept is what has no joker and no variable that changes its number. -/
theorem kept_iff {t : Term} : (t.replace σ k).kept = true
    ↔ ∀ p ∈ t.places k, p.2 ≠ joker
      ∧ ∀ n x, p.2 = bvar n x → n < p.1 ∨ (σ n p.1 x).isVar n = true := by
  induction t generalizing k with
  | kind | type | symb | joker => simp [replace, places]
  | bvar n x =>
      simp only [replace, places, List.forall_mem_singleton, bvar.injEq, ne_eq, reduceCtorEq,
        not_false_eq_true, true_and]
      constructor
      · rintro h m y ⟨rfl, rfl⟩
        split at h
        · next hn => exact Or.inl hn
        · exact Or.inr h
      · intro h
        split
        · rfl
        · next hn => exact (h n x ⟨rfl, rfl⟩).resolve_left hn
  | appl f a ihf iha =>
      simp only [(replace_appl f a).1, forall_places_appl, ihf, iha, ne_eq, reduceCtorEq,
        not_false_eq_true, false_implies, implies_true, true_and]
  | prod x A B ihA ihB =>
      simp only [(replace_prod x A B).1, forall_places_prod, ihA, ihB, ne_eq, reduceCtorEq,
        not_false_eq_true, false_implies, implies_true, true_and]
  | abst x A t ihA iht =>
      simp only [(replace_abst x A t).1, forall_places_abst, iht, ne_eq, reduceCtorEq,
        not_false_eq_true, false_implies, implies_true, true_and]
      exact and_congr_left' (forall₂_congr fun B hB => ihA B hB)
  | mvar m args ih =>
      simp only [(replace_mvar m args).1, forall_places_mvar, ne_eq, reduceCtorEq,
        not_false_eq_true, false_implies, implies_true, true_and]
      exact forall₂_congr fun a ha => ih a ha

/-- Rebuilding gives the term itself if every variable is replaced by itself. -/
theorem mapVars_eq_self_iff {t : Term} : t.mapVars σ k = t
    ↔ ∀ p ∈ t.places k, ∀ n x, p.2 = bvar n x → n < p.1 ∨ σ n p.1 x = bvar n x := by
  induction t generalizing k with
  | kind | type | symb | joker => simp [mapVars, places]
  | bvar n x =>
      simp only [mapVars, places, List.forall_mem_singleton, bvar.injEq]
      constructor
      · rintro h m y ⟨rfl, rfl⟩
        split at h
        · next hn => exact Or.inl hn
        · exact Or.inr h
      · intro h
        split
        · rfl
        · next hn => exact (h n x ⟨rfl, rfl⟩).resolve_left hn
  | appl f a ihf iha =>
      simp only [mapVars, appl.injEq, forall_places_appl, ihf, iha, reduceCtorEq, false_implies,
        implies_true, true_and]
  | prod x A B ihA ihB =>
      simp only [mapVars, prod.injEq, forall_places_prod, ihA, ihB, reduceCtorEq, false_implies,
        implies_true, true_and]
  | abst x A t ihA iht =>
      simp only [mapVars, mapVarsAnn_eq_map, abst.injEq, forall_places_abst, iht, reduceCtorEq,
        false_implies, implies_true, true_and]
      refine and_congr_left' ?_
      cases A with
      | none => simp
      | some B => simp only [Option.map_some, Option.some.injEq, forall_eq', ihA B rfl]
  | mvar m args ih =>
      simp only [mapVars, mapVarsArgs_eq_map, mvar.injEq, forall_places_mvar, reduceCtorEq,
        false_implies, implies_true, true_and]
      rw [← forall₂_congr fun a ha => ih a ha, ← List.map_inj_left, List.map_id']

/-- The term, if it is compound and kept at its place, would have been rebuilt as it stands. -/
def Rebuildable (σ : Replacement) (p : Nat × Term) : Prop :=
  (∀ n x, p.2 ≠ bvar n x) → (p.2.replace σ p.1).kept = true → p.2.mapVars σ p.1 = p.2

/-- If a term is kept, all its places matter at once; if it is not, those of its parts do. -/
theorem rebuildable_iff {t rebuilt : Term} {rest : List (Nat × Term)}
    (hvar : ∀ n x, t ≠ bvar n x) (hplaces : t.places k = (k, t) :: rest)
    (hresult : (t.replace σ k).result = if (t.replace σ k).kept then t else rebuilt)
    (hrest : rebuilt = t.mapVars σ k ↔ ∀ p ∈ rest, Rebuildable σ p) :
    (t.replace σ k).result = t.mapVars σ k ↔ ∀ p ∈ t.places k, Rebuildable σ p := by
  cases hkept : (t.replace σ k).kept with
  | true =>
      rw [hresult, if_pos hkept]
      constructor
      · intro h p hp _ _
        refine mapVars_eq_self_iff.mpr fun q hq => ?_
        exact forall_places_trans (mapVars_eq_self_iff.mp h.symm) p hp q hq
      · exact fun h => (h (k, t) (mem_places_self k t) hvar hkept).symm
  | false =>
      rw [hresult, if_neg (Bool.eq_false_iff.mp hkept), hrest, hplaces, List.forall_mem_cons]
      refine (and_iff_right fun _ h => ?_).symm
      cases hkept.symm.trans h

/-- Keeping what did not move makes no difference exactly if everything that is kept would have been
rebuilt as it stands. -/
theorem replace_eq_mapVars_iff {t : Term} :
    (t.replace σ k).result = t.mapVars σ k ↔ ∀ p ∈ t.places k, Rebuildable σ p := by
  induction t generalizing k with
  | kind | type | symb | joker => simp [replace, mapVars, places, Rebuildable]
  | bvar n x =>
      refine iff_of_true ?_ (List.forall_mem_singleton.mpr fun hvar => absurd rfl (hvar n x))
      simp only [replace, mapVars]
      split <;> rfl
  | appl f a ihf iha =>
      refine rebuildable_iff (by simp) rfl (replace_appl f a).2 ?_
      rw [mapVars, appl.injEq, ihf, iha, List.forall_mem_append]
  | prod x A B ihA ihB =>
      refine rebuildable_iff (by simp) rfl (replace_prod x A B).2 ?_
      rw [mapVars, prod.injEq, ihA, ihB, List.forall_mem_append]
      exact and_iff_right rfl
  | abst x A t ihA iht =>
      refine rebuildable_iff (by simp) rfl (replace_abst x A t).2 ?_
      rw [mapVars, abst.injEq, iht, List.forall_mem_append, forall_placesAnn, mapVarsAnn_eq_map]
      refine (and_iff_right rfl).trans (and_congr_left' ?_)
      cases A with
      | none => simp
      | some B => simp only [Option.map_some, Option.some.injEq, forall_eq', ihA B rfl]
  | mvar m args ih =>
      refine rebuildable_iff (by simp) rfl (replace_mvar m args).2 ?_
      rw [mapVars, mvar.injEq, forall_placesArgs, mapVarsArgs_eq_map, List.map_inj_left]
      exact (and_iff_right rfl).trans (forall₂_congr fun a ha => ih a ha)

end

/-! ## Substitution for a variable -/

/-- Substitution by plain recursion: every part of the term is rebuilt, and where the variable stood
there is a copy of `u` lifted over the binders crossed, which is rebuilt as well. -/
def plainSubst (t u : Term) (depth : Nat) : Term :=
  t.mapVars (fun n k x =>
    if n = k then u.mapVars (shifting (k - depth)) 0 else bvar (n - 1) x) depth

/-- The term, which stands under `k` binders, has no joker, since jokers are never kept, and of the
variables from beyond these binders it has at most the next one. -/
def Still (k : Nat) (s : Term) : Prop :=
  ∀ p ∈ s.places k, p.2 ≠ joker ∧ ∀ n x, p.2 = bvar n x → n ≤ p.1

/-- Wherever the term, which stands under `k` binders, has the next variable beyond them, it shows
the name `y`. -/
def Shows (y : Option String) (k : Nat) (s : Term) : Prop :=
  ∀ p ∈ s.places k, ∀ x, p.2 = bvar p.1 x → x = y

section

variable {t u : Term} {depth k n : Nat} {x : Option String}

theorem plainSubst_eq (t u : Term) (depth : Nat) :
    t.plainSubst u depth = t.mapVars (substitution u depth) depth := by
  simp only [plainSubst, ← shift_eq]
  rfl

theorem substAt_eq_plainSubst_iff_rebuildable : t.substAt u depth = t.plainSubst u depth
    ↔ ∀ p ∈ t.places depth, Rebuildable (substitution u depth) p := by
  rw [substAt_eq, plainSubst_eq]
  exact replace_eq_mapVars_iff

/-- The only variable that may keep its number is the one that is replaced, if it is replaced by
itself. -/
theorem isVar_substitution_iff (hk : depth ≤ k) (hn : ¬ n < k) :
    (substitution u depth n k x).isVar n = true ↔ n = k ∧ ∃ y, u = bvar depth y := by
  unfold substitution
  split
  · next hnk =>
    rw [and_iff_right hnk]
    cases u with
    | bvar m y =>
        simp only [lift_bvar, isVar, beq_iff_eq, bvar.injEq]
        constructor
        · exact fun h => ⟨y, by omega, rfl⟩
        · rintro ⟨y, rfl, -⟩
          omega
    | _ => simp [lift_eq_inst, isVar]
  · next hnk =>
    simp only [isVar, beq_iff_eq, hnk, false_and, iff_false]
    omega

theorem substitution_self (hk : depth ≤ k) (y : Option String) :
    substitution (bvar depth y) depth k k x = bvar k y := by
  rw [substitution, if_pos rfl, lift_bvar, Nat.add_sub_of_le hk]

/-- What is kept would have been rebuilt as it stands, unless the variable is replaced by itself
under another name and the old name is shown. -/
theorem rebuildable_substitution_iff {p : Nat × Term} (hp : depth ≤ p.1) :
    Rebuildable (substitution u depth) p ↔ ∀ y, u = bvar depth y → (∀ n x, p.2 ≠ bvar n x) →
      p.2.Still p.1 → p.2.Shows y p.1 := by
  have hle : ∀ q ∈ p.2.places p.1, depth ≤ q.1 :=
    fun q hq => Nat.le_trans hp (le_of_mem_places q hq)
  rw [Rebuildable, kept_iff, mapVars_eq_self_iff]
  constructor
  · rintro h y rfl hvar hstill q hq x hx
    have hself := h hvar (fun r hr => ⟨(hstill r hr).1, fun n z hz => ?_⟩) q hq q.1 x hx
    · rw [substitution_self (hle q hq)] at hself
      exact (bvar.inj (hself.resolve_left (Nat.lt_irrefl _))).2.symm
    · rcases Nat.lt_or_eq_of_le ((hstill r hr).2 n z hz) with hlt | rfl
      · exact Or.inl hlt
      · exact Or.inr ((isVar_substitution_iff (hle r hr) (Nat.lt_irrefl _)).mpr ⟨rfl, y, rfl⟩)
  · intro h hvar hkept
    -- a variable that is kept though it is not left alone is the one that is replaced
    have hcase : ∀ q ∈ p.2.places p.1, ∀ n x, q.2 = bvar n x →
        n < q.1 ∨ n = q.1 ∧ ∃ y, u = bvar depth y := by
      intro q hq n x hx
      by_cases hn : n < q.1
      · exact Or.inl hn
      · have hisvar := ((hkept q hq).2 n x hx).resolve_left hn
        exact Or.inr ((isVar_substitution_iff (hle q hq) hn).mp hisvar)
    intro q hq n x hx
    refine (hcase q hq n x hx).imp_right ?_
    rintro ⟨rfl, y, rfl⟩
    have hstill : p.2.Still p.1 := fun r hr => ⟨(hkept r hr).1, fun n z hz =>
      (hcase r hr n z hz).elim Nat.le_of_lt fun heq => Nat.le_of_eq heq.1⟩
    rw [substitution_self (hle q hq), h y rfl hvar hstill q hq x hx]

end

/-! ## Shifting -/

/-- A shifted term does not have the variables that were made room for. -/
theorem places_shift {n d e : Nat} (hde : d ≤ e) (hen : e ≤ d + n) (t : Term) :
    ∀ p ∈ (t.shift (n + 1) d).places e, ∀ x, p.2 ≠ bvar p.1 x := by
  have hfree : (t.shift (n + 1) d).allFree (0 < ·) e = true := by
    rw [shift_eq]
    refine allFree_mapVars (fun i v x _ => ?_) (allFree_of_forall (fun _ => rfl) t 0)
    simp only [mapVars, shifting]
    split
    · simp only [allFree, Bool.or_eq_true, decide_eq_true_eq]
      omega
    · simp only [allFree, Bool.or_eq_true, decide_eq_true_eq]
      omega
  intro p hp x hx
  have hlt := allFree_iff_places.mp hfree p hp p.1 x hx (Nat.le_refl _)
  simp at hlt

/-- Replacing one of the variables that were made room for takes away the room for one. -/
theorem shift_substAt {n d e : Nat} (hde : d ≤ e) (hen : e ≤ d + n) (t v : Term) :
    (t.shift (n + 1) d).substAt v e = t.shift n d := by
  have hplain : (t.shift (n + 1) d).substAt v e = (t.shift (n + 1) d).plainSubst v e := by
    refine substAt_eq_plainSubst_iff_rebuildable.mpr fun p hp => ?_
    refine (rebuildable_substitution_iff (le_of_mem_places p hp)).mpr fun y _ _ _ q hq x hx => ?_
    exact absurd hx (forall_places_trans (places_shift hde hen t) p hp q hq x)
  rw [hplain, plainSubst_eq, shift_eq, shift_eq]
  let same : Replacement := fun n _ x => bvar n x
  have hsame : ∀ (u : Term) (j : Nat), u.mapVars same j = u := mapVars_self fun _ _ _ => rfl
  have hboth : (t.mapVars (shifting (n + 1)) d).mapVars (substitution v e) e
      = (t.mapVars (shifting n) d).mapVars same 0 := by
    refine mapVars_mapVars_congr (fun i w x => ?_) t
    rw [hsame]
    by_cases hw : w < d + i
    · simp only [mapVars, if_pos hw]
      rw [if_pos (by omega)]
    · simp only [mapVars, if_neg hw, shifting, substitution]
      rw [if_neg (by omega), if_neg (by omega)]
      rfl
  rw [hboth, hsame]

/-- Shifts compose and can be exchanged, and a substitution takes back a shift, with all names: two
shifts are one if the second begins among the variables that the first made room for; shifts at
different places can be exchanged; and replacing one of the variables that were made room for makes
the shift smaller by one. In particular, substituting in a term that was lifted gives the term. -/
theorem shift_laws (t v : Term) :
    (∀ m n d e, d ≤ e → e ≤ d + m → (t.shift m d).shift n e = t.shift (m + n) d)
      ∧ (∀ m n d e, d ≤ e → (t.shift m d).shift n (e + m) = (t.shift n e).shift m d)
      ∧ (∀ n d e, d ≤ e → e ≤ d + n → (t.shift (n + 1) d).substAt v e = t.shift n d)
      ∧ (t.shift 1 0).subst v = t :=
  ⟨fun _ _ _ _ hde hem => shift_shift hde hem t, fun _ _ _ _ hde => shift_comm hde t,
    fun _ _ _ hde hen => shift_substAt hde hen t v,
    shift_substAt (Nat.le_refl 0) (Nat.le_refl 0) t v⟩

/-- The term `(x : y) => X[x, y, z]`, where `y` and `z` are the variables 1 and 2. -/
def annotated : Term :=
  .abst "x" (some (.bvar 1 (some "y"))) (.mvar (some (.named "X"))
    [.bvar 0 (some "x"), .bvar 2 (some "y"), .bvar 3 (some "z")])

/-- Room for three variables between `y` and `z`, where the one in the middle is taken away again.
-/
theorem shift_laws_annotated :
    (2 ≤ 3 ∧ 3 ≤ 2 + 1)
      ∧ (annotated.shift 1 2).shift 2 3 = annotated.shift 3 2
      ∧ (annotated.shift 2 1).shift 3 4 = (annotated.shift 3 2).shift 2 1
      ∧ (annotated.shift 3 2).substAt (.bvar 3 (some "v")) 3
        = .abst "x" (some (.bvar 1 (some "y"))) (.mvar (some (.named "X"))
          [.bvar 0 (some "x"), .bvar 2 (some "y"), .bvar 5 (some "z")])
      ∧ (annotated.shift 1 0).subst (.bvar 0 (some "v")) = annotated := by
  obtain ⟨hcompose, hexchange, hcancel, -⟩ := shift_laws annotated (.bvar 3 (some "v"))
  refine ⟨by decide, hcompose 1 2 2 3 (by decide) (by decide), hexchange 2 3 1 2 (by decide),
    (hcancel 2 2 3 (by decide) (by decide)).trans rfl, ?_⟩
  exact (shift_laws annotated (.bvar 0 (some "v"))).2.2.2

/-! ## A variable that is replaced by itself -/

/-- Up to names, substitution is plain recursion. Names included, it is so exactly if the variable
is not replaced by itself, or every compound subterm that has no joker and no larger free variable
shows the new name where it shows the variable. -/
theorem substAt_eq_plainSubst_iff (t u : Term) (depth : Nat) :
    (t.substAt u depth).nameless = (t.plainSubst u depth).nameless
      ∧ (t.substAt u depth = t.plainSubst u depth
        ↔ ∀ y, u = bvar depth y → ∀ p ∈ t.places depth, (∀ n x, p.2 ≠ bvar n x) →
          p.2.Still p.1 → p.2.Shows y p.1) := by
  constructor
  · rw [substAt_eq, plainSubst_eq]
    exact (nameless_replace _ t depth).1
  · rw [substAt_eq_plainSubst_iff_rebuildable]
    constructor
    · exact fun h y hy p hp =>
        (rebuildable_substitution_iff (le_of_mem_places p hp)).mp (h p hp) y hy
    · exact fun h p hp => (rebuildable_substitution_iff (le_of_mem_places p hp)).mpr
        fun y hy => h y hy p hp

/-- The variable `x` in `f x` is replaced by a variable `y` of the same number, and `x` is still
shown. -/
example : ((appl (symb ⟨"f"⟩) (bvar 0 (some "x"))).substAt (bvar 0 (some "y")) 0).display = "f x"
    ∧ ((appl (symb ⟨"f"⟩) (bvar 0 (some "x"))).plainSubst (bvar 0 (some "y")) 0).display
      = "f y" := by
  decide +kernel

end Term

end LambdaPi
