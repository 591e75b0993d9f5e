import LambdaPi.Proofs.Instantiation

/-!
# Display names are cosmetic

Two terms differ in display names only if they become the same when all names on variables,
products and abstractions are erased (`Term.nameless`). Names of meta-variables are not for display
and stay.

Replacing variables and keeping what did not move gives, up to names, what replacing them throughout
gives, for every replacement whatsoever: `Term.nameless_replace`. Hence substitution for a variable
is an instance of simultaneous substitution up to names (`Term.nameless_substAt`), and simultaneous
substitution respects names if the assignment does not look at them (`Term.nameless_inst`).
-/

namespace LambdaPi

namespace Term

mutual

/-- The term without display names. -/
def nameless : Term → Term
  | bvar n _ => bvar n none
  | appl f a => appl f.nameless a.nameless
  | prod _ A B => prod none A.nameless B.nameless
  | abst _ A t => abst "" (namelessAnn A) t.nameless
  | mvar m args => mvar m (namelessArgs args)
  | t => t

def namelessAnn : Option Term → Option Term
  | none => none
  | some A => some A.nameless

def namelessArgs : List Term → List Term
  | [] => []
  | t :: ts => t.nameless :: namelessArgs ts

end

theorem namelessAnn_eq_map (A : Option Term) : namelessAnn A = A.map nameless := by
  cases A <;> rfl

theorem namelessArgs_eq_map (args : List Term) : namelessArgs args = args.map nameless := by
  induction args with
  | nil => rfl
  | cons a args ih => simp only [namelessArgs, ih, List.map_cons]

/-! ## Replacing variables -/

theorem nameless_replaceAnn {σ : Replacement} {k : Nat} {A : Option Term}
    (h : ∀ B, A = some B → (B.replace σ k).result.nameless = (B.mapVars σ k).nameless
      ∧ ((B.replace σ k).kept = true → (B.mapVars σ k).nameless = B.nameless)) :
    namelessAnn (replaceAnn σ k A).result = namelessAnn (mapVarsAnn σ k A)
      ∧ ((replaceAnn σ k A).kept = true → namelessAnn (mapVarsAnn σ k A) = namelessAnn A) := by
  cases A with
  | none => exact ⟨rfl, fun _ => rfl⟩
  | some B =>
      obtain ⟨hresult, hkept⟩ := h B rfl
      exact ⟨congrArg some hresult, fun hk => congrArg some (hkept hk)⟩

theorem nameless_replaceArgs {σ : Replacement} {k : Nat} {args : List Term}
    (h : ∀ a ∈ args, (a.replace σ k).result.nameless = (a.mapVars σ k).nameless
      ∧ ((a.replace σ k).kept = true → (a.mapVars σ k).nameless = a.nameless)) :
    namelessArgs (replaceArgs σ k args).result = namelessArgs (mapVarsArgs σ k args)
      ∧ ((replaceArgs σ k args).kept = true →
        namelessArgs (mapVarsArgs σ k args) = namelessArgs args) := by
  induction args with
  | nil => exact ⟨rfl, fun _ => rfl⟩
  | cons a args ih =>
      obtain ⟨hresult, hkept⟩ := h a (List.mem_cons_self ..)
      obtain ⟨hresults, hkepts⟩ := ih fun b hb => h b (List.mem_cons_of_mem _ hb)
      simp only [replaceArgs, mapVarsArgs, namelessArgs]
      refine ⟨by rw [hresult, hresults], fun hk => ?_⟩
      rw [Bool.and_eq_true] at hk
      rw [hkept hk.1, hkepts hk.2]

/-- What is kept differs from what it should be in names only: a variable is kept exactly if its
number does not change. -/
theorem nameless_replace (σ : Replacement) (t : Term) (k : Nat) :
    (t.replace σ k).result.nameless = (t.mapVars σ k).nameless
      ∧ ((t.replace σ k).kept = true → (t.mapVars σ k).nameless = t.nameless) := by
  induction t generalizing k with
  | kind | type | symb | joker => exact ⟨rfl, fun _ => rfl⟩
  | bvar n x =>
      simp only [replace, mapVars]
      split
      · exact ⟨rfl, fun _ => rfl⟩
      · refine ⟨rfl, fun hvar => ?_⟩
        unfold isVar at hvar
        split at hvar
        · next heq => rw [heq, beq_iff_eq.mp hvar]; rfl
        · cases hvar
  | appl f a ihf iha =>
      obtain ⟨hf, hfk⟩ := ihf k
      obtain ⟨ha, hak⟩ := iha k
      simp only [replace, mapVars]
      split
      · next h =>
        rw [Bool.and_eq_true] at h
        simp only [nameless, hfk h.1, hak h.2, implies_true, and_self]
      · exact ⟨by simp only [nameless, hf, ha], fun hkept => by cases hkept⟩
  | prod x A B ihA ihB =>
      obtain ⟨hA, hAk⟩ := ihA k
      obtain ⟨hB, hBk⟩ := ihB (k + 1)
      simp only [replace, mapVars]
      split
      · next h =>
        rw [Bool.and_eq_true] at h
        simp only [nameless, hAk h.1, hBk h.2, implies_true, and_self]
      · exact ⟨by simp only [nameless, hA, hB], fun hkept => by cases hkept⟩
  | abst x A t ihA iht =>
      obtain ⟨hA, hAk⟩ := nameless_replaceAnn fun B hB => ihA B hB k
      obtain ⟨ht, htk⟩ := iht (k + 1)
      simp only [replace, mapVars]
      split
      · next h =>
        rw [Bool.and_eq_true] at h
        simp only [nameless, hAk h.1, htk h.2, implies_true, and_self]
      · exact ⟨by simp only [nameless, hA, ht], fun hkept => by cases hkept⟩
  | mvar m args ih =>
      obtain ⟨hargs, hargsk⟩ := nameless_replaceArgs fun a ha => ih a ha k
      simp only [replace, mapVars]
      split
      · next h => simp only [nameless, hargsk h, implies_true, and_self]
      · exact ⟨by simp only [nameless, hargs], fun hkept => by cases hkept⟩

theorem nameless_mapVars {σ σ' : Replacement} (h : ∀ n k x, (σ n k x).nameless = σ' n k none)
    (t : Term) (k : Nat) : (t.mapVars σ k).nameless = t.nameless.mapVars σ' k := by
  induction t generalizing k with
  | kind | type | symb | joker => rfl
  | bvar n x =>
      simp only [mapVars, nameless]
      split
      · rfl
      · exact h n k x
  | appl f a ihf iha => simp only [mapVars, nameless, ihf, iha]
  | prod x A B ihA ihB => simp only [mapVars, nameless, ihA, ihB]
  | abst x A t ihA iht =>
      cases A with
      | none => simp only [mapVars, mapVarsAnn, nameless, namelessAnn, iht]
      | some B => simp only [mapVars, mapVarsAnn, nameless, namelessAnn, iht, ihA B rfl]
  | mvar m args ih =>
      simp only [mapVars, nameless, mapVarsArgs_eq_map, namelessArgs_eq_map, List.map_map]
      exact congrArg (mvar m) (List.map_congr_left fun a ha => ih a ha k)

theorem nameless_lift (k : Nat) (t : Term) : (t.lift k).nameless = t.nameless.lift k := by
  rw [lift, lift, shift_eq, shift_eq]
  exact nameless_mapVars (fun _ _ _ => rfl) t 0

theorem nameless_substAt (t u : Term) (depth : Nat) :
    (t.substAt u depth).nameless = (t.inst (.replacing u depth)).nameless := by
  have hsame : t.mapVars (substitution u depth) depth = t.inst (.replacing u depth) := by
    refine mapVars_congr (fun i n x => ?_) t
    simp only [mapVars, substitution, Assignment.replacement, Assignment.replacing, Nat.zero_add,
      Nat.add_sub_cancel_left]
    by_cases hi : n < i
    · rw [if_pos (by omega), if_pos hi]
    · obtain ⟨m, rfl⟩ := Nat.exists_eq_add_of_le' (Nat.le_of_not_lt hi)
      rw [if_neg hi, Nat.add_sub_cancel]
      by_cases hlt : m < depth
      · rw [if_pos (by omega), if_pos hlt, lift_bvar]
      · rw [if_neg (by omega), if_neg hlt]
        by_cases heq : m = depth
        · rw [if_pos (by omega), if_pos heq]
        · rw [if_neg (by omega), if_neg heq, lift_bvar]
          congr 1
          omega
  rw [substAt_eq, (nameless_replace _ t depth).1, hsame]

theorem nameless_subst (t u : Term) :
    (t.subst u).nameless = (t.inst (.single u)).nameless := by
  rw [subst, nameless_substAt, Assignment.replacing_zero]

end Term

/-! ## Assignments that do not look at names -/

namespace Assignment

/-- The names of variables make no difference but for names. -/
def Uniform (ρ : Assignment) : Prop :=
  ∀ n x y, (ρ n x).nameless = (ρ n y).nameless

/-- The assigned terms without names. -/
def nameless (ρ : Assignment) : Assignment :=
  fun n _ => (ρ n none).nameless

theorem Uniform.under {ρ : Assignment} (h : ρ.Uniform) (k : Nat) : (ρ.under k).Uniform := by
  intro n x y
  by_cases hn : n < k
  · simp only [Assignment.under, if_pos hn, Term.nameless]
  · simp only [Assignment.under, if_neg hn, Term.nameless_lift, h (n - k) x y]

end Assignment

namespace Term

theorem nameless_inst {ρ : Assignment} (h : ρ.Uniform) (t : Term) :
    (t.inst ρ).nameless = t.nameless.inst ρ.nameless := by
  refine nameless_mapVars (fun n k x => ?_) t 0
  simp only [Assignment.replacement, Assignment.nameless, nameless_lift, h (n - k) x none]

theorem nameless_inst_congr {ρ τ : Assignment} (hρ : ρ.Uniform) (hτ : τ.Uniform)
    (h : ρ.nameless = τ.nameless) {t u : Term} (htu : t.nameless = u.nameless) :
    (t.inst ρ).nameless = (u.inst τ).nameless := by
  rw [nameless_inst hρ, nameless_inst hτ, h, htu]

end Term

end LambdaPi
