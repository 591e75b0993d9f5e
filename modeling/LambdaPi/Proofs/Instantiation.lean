import LambdaPi.Term.Substitution

/-!
# Simultaneous substitution

Shifting, substitution for one variable and the use of a bound meta-variable all replace the free
variables of a term at once. What each variable is replaced by is an `Assignment`, and `Term.inst`
puts the assigned terms in place, lifted over the binders they are put under. It is the plain
recursive `Term.mapVars` for a replacement that only depends on the variable as seen from outside.

Every law below is a law about variables: two ways of replacing variables one after the other agree
on all terms if they agree on variables under any number of binders
(`Term.mapVars_mapVars_congr`). From this follow the laws of shifting and the three laws that make
assignments a monoid acting on terms: `Term.inst_self`, `Term.inst_inst` and `Term.lift_inst_under`.
-/

namespace LambdaPi

namespace Term

/-! ## Laws of variables are laws of terms -/

theorem mapVarsAnn_eq_map (σ : Replacement) (k : Nat) (A : Option Term) :
    mapVarsAnn σ k A = A.map (mapVars σ k) := by
  cases A <;> rfl

theorem mapVarsArgs_eq_map (σ : Replacement) (k : Nat) (args : List Term) :
    mapVarsArgs σ k args = args.map (mapVars σ k) := by
  induction args with
  | nil => rfl
  | cons a args ih => simp only [mapVarsArgs, ih, List.map_cons]

/-- Two replacements one after the other agree with two others on all terms, if they do so on
variables under any number of further binders. -/
theorem mapVars_mapVars_congr {σ τ σ' τ' : Replacement} {k j k' j' : Nat}
    (h : ∀ i n x, ((bvar n x).mapVars σ (k + i)).mapVars τ (j + i)
      = ((bvar n x).mapVars σ' (k' + i)).mapVars τ' (j' + i)) (t : Term) :
    (t.mapVars σ k).mapVars τ j = (t.mapVars σ' k').mapVars τ' j' := by
  -- one more binder is the same statement with all four numbers increased
  have under : ∀ {k j k' j' : Nat},
      (∀ i n x, ((bvar n x).mapVars σ (k + i)).mapVars τ (j + i)
        = ((bvar n x).mapVars σ' (k' + i)).mapVars τ' (j' + i)) →
      ∀ i n x, ((bvar n x).mapVars σ (k + 1 + i)).mapVars τ (j + 1 + i)
        = ((bvar n x).mapVars σ' (k' + 1 + i)).mapVars τ' (j' + 1 + i) := by
    intro k j k' j' h i n x
    simpa only [Nat.add_assoc, Nat.add_comm 1 i] using h (i + 1) n x
  induction t generalizing k j k' j' with
  | kind | type | symb | joker => rfl
  | bvar n x => exact h 0 n x
  | appl f a ihf iha => simp only [mapVars, ihf h, iha h]
  | prod x A B ihA ihB => simp only [mapVars, ihA h, ihB (under h)]
  | abst x A t ihA iht =>
      have hA : (A.map (mapVars σ k)).map (mapVars τ j)
          = (A.map (mapVars σ' k')).map (mapVars τ' j') := by
        cases A with
        | none => rfl
        | some B => exact congrArg some (ihA B rfl h)
      simp only [mapVars, mapVarsAnn_eq_map, hA, iht (under h)]
  | mvar m args ih =>
      simp only [mapVars, mapVarsArgs_eq_map, List.map_map]
      exact congrArg (mvar m) (List.map_congr_left fun a ha => ih a ha h)

theorem mapVars_self {σ : Replacement} (h : ∀ n k x, σ n k x = bvar n x) (t : Term) (k : Nat) :
    t.mapVars σ k = t := by
  induction t generalizing k with
  | kind | type | symb | joker => rfl
  | bvar n x => simp [mapVars, h]
  | appl f a ihf iha => simp only [mapVars, ihf, iha]
  | prod x A B ihA ihB => simp only [mapVars, ihA, ihB]
  | abst x A t ihA iht =>
      have hA : A.map (mapVars σ k) = A := by
        cases A with
        | none => rfl
        | some B => exact congrArg some (ihA B rfl k)
      simp only [mapVars, mapVarsAnn_eq_map, hA, iht]
  | mvar m args ih =>
      have hargs : args.map (mapVars σ k) = args :=
        (List.map_congr_left fun a ha => ih a ha k).trans (List.map_id' args)
      simp only [mapVars, mapVarsArgs_eq_map, hargs]

theorem mapVars_congr {σ σ' : Replacement} {k k' : Nat}
    (h : ∀ i n x, (bvar n x).mapVars σ (k + i) = (bvar n x).mapVars σ' (k' + i)) (t : Term) :
    t.mapVars σ k = t.mapVars σ' k' := by
  let same : Replacement := fun n _ x => bvar n x
  have hsame : ∀ (u : Term) (j : Nat), u.mapVars same j = u := mapVars_self fun _ _ _ => rfl
  have hboth : (t.mapVars σ k).mapVars same 0 = (t.mapVars σ' k').mapVars same 0 :=
    mapVars_mapVars_congr (fun i n x => by rw [hsame, hsame, h]) t
  rwa [hsame, hsame] at hboth

/-! ## Shifting -/

/-- Shifting as a replacement. -/
def shifting (inc : Nat) : Replacement :=
  fun n _ x => bvar (n + inc) x

theorem shift_eq (inc depth : Nat) (t : Term) :
    t.shift inc depth = t.mapVars (shifting inc) depth := by
  by_cases h : inc = 0
  · subst h
    exact (mapVars_self (fun _ _ _ => rfl) t depth).symm
  · exact shift_eq_mapVars h depth t

theorem shift_bvar (inc depth n : Nat) (x : Option String) :
    (bvar n x).shift inc depth = if n < depth then bvar n x else bvar (n + inc) x := by
  rw [shift_eq]; rfl

@[simp] theorem lift_bvar (k n : Nat) (x : Option String) :
    (bvar n x).lift k = bvar (n + k) x := by
  simp [lift, shift_bvar]

/-- Two shifts are one, if the second one begins among the variables that the first one made
room for. -/
theorem shift_shift {m n d e : Nat} (hle : d ≤ e) (hlt : e ≤ d + m) (t : Term) :
    (t.shift m d).shift n e = t.shift (m + n) d := by
  simp only [shift_eq]
  let same : Replacement := fun n _ x => bvar n x
  have hsame : ∀ (u : Term) (j : Nat), u.mapVars same j = u := mapVars_self fun _ _ _ => rfl
  have hboth : (t.mapVars (shifting m) d).mapVars (shifting n) e
      = (t.mapVars (shifting (m + n)) d).mapVars same 0 := by
    refine mapVars_mapVars_congr (fun i v x => ?_) t
    rw [hsame]
    by_cases hv : v < d + i
    · simp only [mapVars, if_pos hv]
      rw [if_pos (by omega)]
    · simp only [mapVars, if_neg hv, shifting]
      rw [if_neg (by omega), Nat.add_assoc]
  rw [hboth, hsame]

/-- Two shifts at different places can be exchanged. -/
theorem shift_comm {m n d e : Nat} (hle : d ≤ e) (t : Term) :
    (t.shift m d).shift n (e + m) = (t.shift n e).shift m d := by
  simp only [shift_eq]
  refine mapVars_mapVars_congr (fun i v x => ?_) t
  by_cases hd : v < d + i
  · have he : v < e + i := by omega
    simp only [mapVars, if_pos hd, if_pos he]
    rw [if_pos (by omega)]
  · by_cases he : v < e + i
    · simp only [mapVars, if_neg hd, if_pos he, shifting]
      rw [if_pos (by omega)]
    · simp only [mapVars, if_neg hd, if_neg he, shifting]
      rw [if_neg (by omega), if_neg (by omega), Nat.add_right_comm]

theorem lift_lift (m n : Nat) (t : Term) : (t.lift m).lift n = t.lift (m + n) :=
  shift_shift (Nat.le_refl 0) (Nat.zero_le _) t

end Term

/-! ## Assignments -/

/-- What takes the place of each free variable, which may use the name that the variable
displays. -/
abbrev Assignment := Nat → Option String → Term

namespace Assignment

/-- Put the assigned terms under the binders crossed on the way to a variable. -/
def replacement (ρ : Assignment) : Replacement :=
  fun n k x => (ρ (n - k) x).lift k

/-- The assignment as it is seen from under `k` more binders, whose variables stay. -/
def under (ρ : Assignment) (k : Nat) : Assignment :=
  fun n x => if n < k then .bvar n x else (ρ (n - k) x).lift k

/-- Replace the innermost variable by a term; the others lose it. -/
def single (u : Term) : Assignment
  | 0, _ => u
  | n + 1, x => .bvar n x

/-- Replace the variable `depth` by a term; the larger ones lose it. -/
def replacing (u : Term) (depth : Nat) : Assignment :=
  fun n x => if n < depth then .bvar n x else if n = depth then u else .bvar (n - 1) x

theorem replacing_zero (u : Term) : replacing u 0 = single u := by
  funext n x
  cases n <;> rfl

end Assignment

namespace Term

/-- Replace all free variables as the assignment says. -/
def inst (ρ : Assignment) (t : Term) : Term :=
  t.mapVars ρ.replacement 0

theorem mapVars_replacement (ρ : Assignment) (k : Nat) (t : Term) :
    t.mapVars ρ.replacement k = t.inst (ρ.under k) := by
  refine mapVars_congr (fun i n x => ?_) t
  simp only [mapVars, Assignment.replacement, Assignment.under]
  by_cases hi : n < i
  · rw [if_pos (by omega), if_pos (by omega)]
  · by_cases hk : n < k + i
    · rw [if_pos hk, if_neg (by omega), if_pos (by omega), lift_bvar]
      congr 1
      omega
    · rw [if_neg hk, if_neg (by omega), if_neg (by omega), lift_lift, Nat.zero_add]
      congr 2
      omega

section Equations

variable (ρ : Assignment)

@[simp] theorem inst_kind : kind.inst ρ = kind := rfl

@[simp] theorem inst_type : type.inst ρ = type := rfl

@[simp] theorem inst_symb (s : Symbol) : (symb s).inst ρ = symb s := rfl

@[simp] theorem inst_joker : joker.inst ρ = joker := rfl

@[simp] theorem inst_bvar (n : Nat) (x : Option String) : (bvar n x).inst ρ = ρ n x := rfl

@[simp] theorem inst_appl (f a : Term) : (appl f a).inst ρ = appl (f.inst ρ) (a.inst ρ) := rfl

@[simp] theorem inst_prod (x : Option String) (A B : Term) :
    (prod x A B).inst ρ = prod x (A.inst ρ) (B.inst (ρ.under 1)) := by
  rw [← mapVars_replacement]; rfl

@[simp] theorem inst_abst (x : String) (A : Option Term) (t : Term) :
    (abst x A t).inst ρ = abst x (A.map (inst ρ)) (t.inst (ρ.under 1)) := by
  rw [← mapVars_replacement, inst, mapVars, mapVarsAnn_eq_map]; rfl

@[simp] theorem inst_mvar (m : Option MetaName) (args : List Term) :
    (mvar m args).inst ρ = mvar m (args.map (inst ρ)) := by
  rw [inst, mapVars, mapVarsArgs_eq_map]; rfl

end Equations

/-! ## The laws of assignments -/

theorem inst_self (t : Term) : t.inst bvar = t := by
  have h : t.mapVars (Assignment.replacement bvar) 0
      = t.mapVars (fun n _ x => bvar n x) 0 := by
    refine mapVars_congr (fun i n x => ?_) t
    simp only [mapVars, Assignment.replacement, lift_bvar]
    split
    · rfl
    · congr 1
      omega
  rw [inst, h, mapVars_self (fun _ _ _ => rfl)]

theorem lift_eq_inst (k : Nat) (t : Term) : t.lift k = t.inst fun n x => bvar (n + k) x := by
  rw [lift, shift_eq, inst]
  refine mapVars_congr (fun i n x => ?_) t
  simp only [mapVars, shifting, Assignment.replacement, lift_bvar]
  split
  · rfl
  · congr 1
    omega

/-- An assignment passes under the binders that a term is lifted over. -/
theorem lift_inst_under (ρ : Assignment) (k : Nat) (t : Term) :
    (t.lift k).inst (ρ.under k) = (t.inst ρ).lift k := by
  rw [← mapVars_replacement, lift, lift, shift_eq, shift_eq, inst]
  refine mapVars_mapVars_congr (fun i n x => ?_) t
  by_cases hi : n < 0 + i
  · simp only [mapVars, if_pos hi]
    rw [if_pos (by omega)]
  · have hlift : ((ρ (n - (0 + i)) x).lift (0 + i)).mapVars (shifting k) (0 + i)
        = (ρ (n - (0 + i)) x).lift (0 + i + k) := by
      rw [← shift_eq, lift, shift_shift (by omega) (by omega)]; rfl
    simp only [mapVars, if_neg hi, Assignment.replacement, hlift, shifting]
    rw [if_neg (by omega), show n + k - (k + i) = n - (0 + i) by omega,
      show k + i = 0 + i + k by omega]

/-- Two assignments one after the other are one. -/
theorem inst_inst (ρ τ : Assignment) (t : Term) :
    (t.inst ρ).inst τ = t.inst fun n x => (ρ n x).inst τ := by
  let same : Replacement := fun n _ x => bvar n x
  have hsame : ∀ (u : Term) (j : Nat), u.mapVars same j = u := mapVars_self fun _ _ _ => rfl
  have hboth : (t.mapVars ρ.replacement 0).mapVars τ.replacement 0
      = (t.mapVars (Assignment.replacement fun n x => (ρ n x).inst τ) 0).mapVars same 0 := by
    refine mapVars_mapVars_congr (fun i n x => ?_) t
    rw [hsame]
    by_cases hi : n < 0 + i
    · simp only [mapVars, if_pos hi]
    · simp only [mapVars, if_neg hi, Assignment.replacement]
      rw [mapVars_replacement, lift_inst_under]
  rw [hsame] at hboth
  exact hboth

theorem lift_inst (ρ : Assignment) (k : Nat) (t : Term) :
    (t.lift k).inst ρ = t.inst fun n x => ρ (n + k) x := by
  simp only [lift_eq_inst, inst_inst, inst_bvar]

theorem lift_inst_single (t u : Term) : (t.lift 1).inst (.single u) = t := by
  rw [lift_inst]
  exact inst_self t

end Term

namespace Assignment

theorem under_zero (ρ : Assignment) : ρ.under 0 = ρ := rfl

theorem under_under (ρ : Assignment) (j k : Nat) : (ρ.under j).under k = ρ.under (j + k) := by
  funext n x
  by_cases hk : n < k
  · simp only [under, if_pos hk]
    rw [if_pos (by omega)]
  · by_cases hj : n < j + k
    · simp only [under, if_neg hk, if_pos hj]
      rw [if_pos (by omega), Term.lift_bvar]
      congr 1
      omega
    · simp only [under, if_neg hk, if_neg hj]
      rw [if_neg (by omega), Term.lift_lift]
      congr 2
      omega

end Assignment

namespace Term

/-- Substitution passes through an assignment. -/
theorem inst_single_inst (ρ : Assignment) (t u : Term) :
    (t.inst (.single u)).inst ρ = (t.inst (ρ.under 1)).inst (.single (u.inst ρ)) := by
  rw [inst_inst, inst_inst]
  congr 1
  funext n x
  cases n with
  | zero => simp [Assignment.single, Assignment.under]
  | succ n => simp [Assignment.single, Assignment.under, lift_inst_single]

end Term

end LambdaPi
