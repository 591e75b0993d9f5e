import LambdaPi.Proofs.FreeVariables
import LambdaPi.Proofs.Simulation.Terms

/-!
# Renaming free variables

A renaming gives the free variables of a term other numbers, different variables different ones.
Shifting is a renaming. The binders of a term do not move, so a renaming that passes under some of them
keeps their variables (`Renaming.under`).

A term and what a renaming makes of it, up to display names, are a `Simulation`, whose world is the
renaming as seen from under the binders crossed so far (`Simulation.renaming`).
-/

namespace LambdaPi

theorem Assignment.Uniform.single (t : Term) : (Assignment.single t).Uniform := by
  intro n x y
  cases n <;> rfl

/-! ## Renamings -/

/-- New numbers for the free variables, all different. -/
@[ext] structure Renaming where
  number : Nat → Nat
  injective : ∀ {m n}, number m = number n → m = n

namespace Renaming

/-- The renaming as seen from under `k` more binders, whose variables stay. -/
def under (ρ : Renaming) (k : Nat) : Renaming where
  number n := if n < k then n else ρ.number (n - k) + k
  injective := by
    intro m n h
    split at h
    · split at h
      · exact h
      · omega
    · split at h
      · omega
      · have hmn : m - k = n - k := ρ.injective (Nat.add_right_cancel h)
        omega

variable (ρ : Renaming)

theorem number_under (n k : Nat) :
    (ρ.under k).number n = if n < k then n else ρ.number (n - k) + k := rfl

theorem number_under_of_lt {n k : Nat} (h : n < k) : (ρ.under k).number n = n :=
  if_pos h

@[simp] theorem number_under_add (n k : Nat) : (ρ.under k).number (n + k) = ρ.number n + k := by
  rw [number_under, if_neg (by omega), Nat.add_sub_cancel]

@[simp] theorem under_zero : ρ.under 0 = ρ := rfl

theorem under_under (j k : Nat) : (ρ.under j).under k = ρ.under (j + k) := by
  ext n
  simp only [number_under]
  by_cases hk : n < k
  · rw [if_pos hk, if_pos (by omega)]
  · by_cases hj : n < j + k
    · rw [if_neg hk, if_pos (by omega), if_pos hj]
      omega
    · rw [if_neg hk, if_neg (by omega), if_neg hj, Nat.sub_sub, Nat.add_comm k j, Nat.add_assoc]

/-- Make room for `inc` variables outside of the `depth` innermost ones. -/
def shifting (inc depth : Nat) : Renaming where
  number n := if n < depth then n else n + inc
  injective := by
    intro m n h
    split at h <;> split at h <;> omega

theorem shifting_under (inc depth k : Nat) :
    (shifting inc depth).under k = shifting inc (depth + k) := by
  ext n
  simp only [number_under, shifting]
  grind

/-- Every variable is replaced by the one with the new number. -/
def assignment : Assignment :=
  fun n x => .bvar (ρ.number n) x

theorem assignment_under (k : Nat) : ρ.assignment.under k = (ρ.under k).assignment := by
  funext n x
  simp only [Assignment.under, assignment, under, Term.lift_bvar]
  split <;> rfl

theorem uniform_assignment : ρ.assignment.Uniform :=
  fun _ _ _ => rfl

end Renaming

/-! ## Renamed terms -/

namespace Term

/-- The term with its free variables renamed. -/
def rename (ρ : Renaming) (t : Term) : Term :=
  t.inst ρ.assignment

section

variable (ρ : Renaming)

@[simp] theorem rename_kind : kind.rename ρ = kind := rfl

@[simp] theorem rename_type : type.rename ρ = type := rfl

@[simp] theorem rename_symb (s : Symbol) : (symb s).rename ρ = symb s := rfl

@[simp] theorem rename_joker : joker.rename ρ = joker := rfl

@[simp] theorem rename_bvar (n : Nat) (x : Option String) :
    (bvar n x).rename ρ = bvar (ρ.number n) x :=
  inst_bvar ..

@[simp] theorem rename_appl (f a : Term) :
    (appl f a).rename ρ = appl (f.rename ρ) (a.rename ρ) := rfl

@[simp] theorem rename_prod (x : Option String) (A B : Term) :
    (prod x A B).rename ρ = prod x (A.rename ρ) (B.rename (ρ.under 1)) := by
  simp only [rename, inst_prod, ρ.assignment_under]

@[simp] theorem rename_abst (x : String) (A : Option Term) (t : Term) :
    (abst x A t).rename ρ = abst x (A.map (rename ρ)) (t.rename (ρ.under 1)) := by
  simp only [rename, inst_abst, ρ.assignment_under]
  rfl

@[simp] theorem rename_mvar (m : Option MetaName) (args : List Term) :
    (mvar m args).rename ρ = mvar m (args.map (rename ρ)) :=
  inst_mvar ..

end

theorem shift_eq_rename (inc depth : Nat) (t : Term) :
    t.shift inc depth = t.rename (.shifting inc depth) := by
  rw [shift_eq, rename, inst]
  refine mapVars_congr (fun i n x => ?_) t
  simp only [mapVars, shifting, Assignment.replacement, Renaming.assignment, Renaming.shifting,
    Nat.zero_add, lift_bvar]
  by_cases hi : n < i
  · rw [if_pos (by omega), if_pos hi]
  · rw [if_neg hi]
    by_cases hn : n < depth + i
    · rw [if_pos hn, if_pos (by omega), Nat.sub_add_cancel (Nat.le_of_not_lt hi)]
    · rw [if_neg hn, if_neg (by omega)]
      congr 1
      omega

/-- A renaming passes under the binders that a term is lifted over. -/
theorem rename_lift (ρ : Renaming) (k : Nat) (t : Term) :
    (t.lift k).rename (ρ.under k) = (t.rename ρ).lift k := by
  rw [rename, ← ρ.assignment_under, lift_inst_under, rename]

/-- Renaming does not look at names. -/
theorem nameless_rename (ρ : Renaming) {t u : Term} (h : t.nameless = u.nameless) :
    (t.rename ρ).nameless = (u.rename ρ).nameless :=
  nameless_inst_congr ρ.uniform_assignment ρ.uniform_assignment rfl h

/-- The free variables of a renamed term. -/
theorem allFree_rename (ρ : Renaming) (p : Nat → Bool) (k : Nat) (t : Term) :
    (t.rename (ρ.under k)).allFree p k = t.allFree (fun n => p (ρ.number n)) k := by
  induction t generalizing k with
  | kind | type | symb | joker => rfl
  | bvar n x =>
      rw [rename_bvar, allFree, allFree]
      by_cases hn : n < k
      · rw [ρ.number_under_of_lt hn, decide_eq_true hn, Bool.true_or, Bool.true_or]
      · obtain ⟨m, rfl⟩ := Nat.exists_eq_add_of_le' (Nat.le_of_not_lt hn)
        have hout : ∀ i, decide (i + k < k) = false := fun i => decide_eq_false (by omega)
        rw [ρ.number_under_add, Nat.add_sub_cancel, Nat.add_sub_cancel, hout, hout]
  | appl f a ihf iha => simp only [rename_appl, allFree, ihf, iha]
  | prod x A B ihA ihB => simp only [rename_prod, allFree, ihA, ρ.under_under, ihB]
  | abst x A t ihA iht =>
      cases A with
      | none => simp only [rename_abst, Option.map_none, allFree, allFreeAnn, ρ.under_under, iht]
      | some A =>
          simp only [rename_abst, Option.map_some, allFree, allFreeAnn, ρ.under_under, iht,
            ihA A rfl]
  | mvar m args ih =>
      rw [Bool.eq_iff_iff]
      simp only [rename_mvar, allFree, allFreeArgs_iff, List.forall_mem_map]
      exact forall₂_congr fun a ha => by rw [ih a ha k]

end Term

/-! ## The relation -/

/-- Terms that differ in names only have the same constructor at the outside, and parts that differ in
names only. -/
theorem Term.nameless_eq_iff {t u : Term} :
    t.nameless = u.nameless
      ↔ t.SameLayer Eq Eq (fun _ _ => True) (fun t u => t.nameless = u.nameless)
        (fun t u => t.nameless = u.nameless) u := by
  constructor
  · intro h
    cases t with
    | kind => cases u <;> cases h; exact .kind
    | type => cases u <;> cases h; exact .type
    | symb s => cases u <;> cases h; exact .symb rfl
    | joker => cases u <;> cases h; exact .joker
    | bvar n x => cases u <;> cases h; exact .bvar rfl trivial
    | appl f a =>
        cases u with
        | appl g b => exact .appl (appl.inj h).1 (appl.inj h).2
        | _ => cases h
    | prod x A B =>
        cases u with
        | prod y C D => exact .prod trivial (prod.inj h).2.1 (prod.inj h).2.2
        | _ => cases h
    | abst x A b =>
        cases u with
        | abst y B c =>
            have hann := (abst.inj h).2.1
            refine .abst trivial ?_ (abst.inj h).2.2
            cases A with
            | none => cases B <;> cases hann; exact .none
            | some A =>
                cases B with
                | none => cases hann
                | some B => exact .some (Option.some.inj hann)
        | _ => cases h
    | mvar m args =>
        cases u with
        | mvar m' args' =>
            have hargs := (mvar.inj h).2
            obtain rfl := (mvar.inj h).1
            rw [namelessArgs_eq_map, namelessArgs_eq_map, ← List.forall₂_eq_eq_eq,
              List.forall₂_map_left_iff, List.forall₂_map_right_iff] at hargs
            exact .mvar hargs
        | _ => cases h
  · intro h
    cases h with
    | kind | type | joker => rfl
    | symb hs => rw [hs]
    | bvar hn => rw [nameless, nameless, hn]
    | appl hf ha => rw [nameless, nameless, hf, ha]
    | prod _ hA hB => rw [nameless, nameless, hA, hB]
    | abst _ hA ht =>
        rw [nameless, nameless, ht]
        cases hA with
        | none => rfl
        | some hA => rw [namelessAnn, namelessAnn, hA]
    | mvar hargs =>
        rw [nameless, nameless, namelessArgs_eq_map, namelessArgs_eq_map]
        congr 1
        rwa [← List.forall₂_eq_eq_eq, List.forall₂_map_left_iff, List.forall₂_map_right_iff]

namespace Renaming

/-- Up to names, the second term is the first one renamed. -/
def Rel (ρ : Renaming) (t u : Term) : Prop :=
  (t.rename ρ).nameless = u.nameless

variable {ρ : Renaming} {t u : Term}

theorem rel_iff_sameLayer :
    ρ.Rel t u ↔ t.SameLayer Eq (fun m n => n = ρ.number m) (fun _ _ => True) ρ.Rel
      (ρ.under 1).Rel u := by
  rw [Rel, Term.nameless_eq_iff]
  constructor
  · intro h
    cases t with
    | kind => cases h; exact .kind
    | type => cases h; exact .type
    | symb s => cases h with | symb hs => exact .symb hs
    | joker => cases h; exact .joker
    | bvar n x =>
        rw [Term.rename_bvar] at h
        cases h with
        | bvar hn hx => exact .bvar hn.symm hx
    | appl f a => cases h with | appl hf ha => exact .appl hf ha
    | prod x A B =>
        rw [Term.rename_prod] at h
        cases h with
        | prod hx hA hB => exact .prod hx hA hB
    | abst x A b =>
        rw [Term.rename_abst] at h
        cases h with
        | abst hx hA hb =>
            refine .abst hx ?_ hb
            cases A with
            | none => cases hA; exact .none
            | some A => cases hA with | some hA => exact .some hA
    | mvar m args =>
        rw [Term.rename_mvar] at h
        cases h with
        | mvar hargs =>
            rw [List.forall₂_map_left_iff] at hargs
            exact .mvar hargs
  · intro h
    cases h with
    | kind => exact .kind
    | type => exact .type
    | symb hs => exact .symb hs
    | joker => exact .joker
    | bvar hn hx =>
        rw [Term.rename_bvar]
        exact .bvar hn.symm hx
    | appl hf ha => exact .appl hf ha
    | prod hx hA hB =>
        rw [Term.rename_prod]
        exact .prod hx hA hB
    | abst hx hA hb =>
        rw [Term.rename_abst]
        refine .abst hx ?_ hb
        cases hA with
        | none => exact .none
        | some hA => exact .some hA
    | mvar hargs =>
        rw [Term.rename_mvar]
        exact .mvar (List.forall₂_map_left_iff.2 hargs)

/-- A closed term is not renamed. -/
theorem Rel.of_closed (ρ : Renaming) (h : t.closed = true) : ρ.Rel t t := by
  have hself : (t.inst ρ.assignment).nameless = (t.inst Term.bvar).nameless :=
    Term.nameless_inst_congr_free (fun n x hn => by simp at hn) h
  rw [Rel, Term.rename, hself, Term.inst_self]

theorem Rel.shift (inc depth : Nat) (t : Term) :
    (shifting inc depth).Rel t (t.shift inc depth) := by
  rw [Rel, Term.shift_eq_rename]

theorem Rel.lift (h : ρ.Rel t u) (k : Nat) : (ρ.under k).Rel (t.lift k) (u.lift k) := by
  rw [Rel, Term.rename_lift, Term.nameless_lift, h, Term.nameless_lift]

theorem Rel.subst {a b : Term} (htu : (ρ.under 1).Rel t u) (hab : ρ.Rel a b) :
    ρ.Rel (t.subst a) (u.subst b) := by
  have hsingle : (Assignment.single (a.rename ρ)).nameless = (Assignment.single b).nameless := by
    funext n x
    cases n with
    | zero => exact hab
    | succ n => rfl
  calc ((t.subst a).rename ρ).nameless
    _ = ((t.inst (.single a)).rename ρ).nameless :=
      Term.nameless_rename ρ (Term.nameless_subst t a)
    _ = ((t.rename (ρ.under 1)).inst (.single (a.rename ρ))).nameless := by
      rw [Term.rename, Term.inst_single_inst, ρ.assignment_under]
      rfl
    _ = (u.inst (.single b)).nameless :=
      Term.nameless_inst_congr (.single _) (.single _) hsingle htu
    _ = (u.subst b).nameless := (Term.nameless_subst u b).symm

end Renaming

/-- A term and what a renaming makes of it. -/
def Simulation.renaming : Simulation where
  World := Renaming
  under ρ := ρ.under 1
  rel := Renaming.Rel
  symbol := Eq
  var ρ m n := n = ρ.number m
  name _ _ := True
  layer := Renaming.rel_iff_sameLayer
  symbol_inj := @Eq.congr Symbol
  var_inj := by
    rintro ρ m _ m' _ rfl rfl
    exact ⟨congrArg _, ρ.injective⟩
  var_bound ρ := (ρ.number_under_of_lt Nat.one_pos).symm
  unnamed := trivial
  lift h := h.lift 1
  subst := Renaming.Rel.subst

end LambdaPi
