import LambdaPi.Proofs.Renaming.Terms

/-!
# Laws of substitution

Substitution for one variable commutes with substitution for another and with shifting, wherever the
two variables stand and under whatever binders: `Term.substitution_lemma`. Up to names, all of these
are simultaneous substitutions, one after the other. Two such sequences give the same on every term
if they give the same on variables, and on a variable the laws are arithmetic.
-/

namespace LambdaPi

namespace Assignment

section

variable (u : Term) {n depth : Nat} (x : Option String)

theorem replacing_of_lt (h : n < depth) : replacing u depth n x = .bvar n x :=
  if_pos h

theorem replacing_self (depth : Nat) : replacing u depth depth x = u := by
  simp [replacing]

theorem replacing_of_gt (h : depth < n) : replacing u depth n x = .bvar (n - 1) x := by
  rw [replacing, if_neg (by omega), if_neg (by omega)]

end

theorem Uniform.replacing (u : Term) (depth : Nat) : (Assignment.replacing u depth).Uniform := by
  intro n x y
  unfold Assignment.replacing
  split
  · rfl
  · split <;> rfl

theorem nameless_replacing {u u' : Term} (h : u.nameless = u'.nameless) (depth : Nat) :
    (replacing u depth).nameless = (replacing u' depth).nameless := by
  funext n x
  unfold nameless replacing
  split
  · rfl
  · split
    · exact h
    · rfl

end Assignment

namespace Term

/-! ## Up to names -/

/-- Substitution is simultaneous substitution, also in and of terms that differ in names. -/
theorem nameless_substAt_inst {t t' u u' : Term} (ht : t.nameless = t'.nameless)
    (hu : u.nameless = u'.nameless) (depth : Nat) :
    (t.substAt u depth).nameless = (t'.inst (.replacing u' depth)).nameless := by
  rw [nameless_substAt]
  exact nameless_inst_congr (.replacing u depth) (.replacing u' depth)
    (Assignment.nameless_replacing hu depth) ht

theorem nameless_shift {t t' : Term} (h : t.nameless = t'.nameless) (inc depth : Nat) :
    (t.shift inc depth).nameless = (t'.shift inc depth).nameless := by
  rw [shift_eq_rename, shift_eq_rename]
  exact nameless_rename _ h

/-! ## Simultaneous substitution -/

theorem shift_inst (inc depth : Nat) (ρ : Assignment) (t : Term) :
    (t.shift inc depth).inst ρ = t.inst fun n x => ρ (if n < depth then n else n + inc) x := by
  rw [shift_eq_rename, rename, inst_inst]
  simp only [Renaming.assignment, inst_bvar]
  rfl

theorem inst_shift (inc depth : Nat) (ρ : Assignment) (t : Term) :
    (t.inst ρ).shift inc depth = t.inst fun n x => (ρ n x).shift inc depth := by
  simp only [shift_eq_rename, rename, inst_inst]

/-- What takes the place of a variable that does not occur makes no difference. -/
theorem shift_inst_replacing (t u : Term) (depth : Nat) :
    (t.shift 1 depth).inst (.replacing u depth) = t := by
  have hvars : (fun n x => Assignment.replacing u depth (if n < depth then n else n + 1) x)
      = bvar := by
    funext n x
    split
    · next h => exact Assignment.replacing_of_lt u x h
    · next h => exact Assignment.replacing_of_gt u x (by omega)
  rw [shift_inst, hvars, inst_self]

section

variable {i j : Nat} (h : i ≤ j) (t u v : Term)

include h

/-- The later substitution may come first, if it also takes place in the term that the earlier one
puts in. -/
theorem inst_replacing_replacing :
    (t.inst (.replacing u i)).inst (.replacing v j)
      = (t.inst (.replacing (v.shift 1 i) (j + 1))).inst
        (.replacing (u.inst (.replacing v j)) i) := by
  rw [inst_inst, inst_inst]
  congr 1
  funext n x
  rcases Nat.lt_trichotomy n i with hn | rfl | hn
  · rw [Assignment.replacing_of_lt u x hn, Assignment.replacing_of_lt _ x (by omega), inst_bvar,
      inst_bvar, Assignment.replacing_of_lt v x (by omega), Assignment.replacing_of_lt _ x hn]
  · rw [Assignment.replacing_self, Assignment.replacing_of_lt _ x (by omega), inst_bvar,
      Assignment.replacing_self]
  · rw [Assignment.replacing_of_gt u x hn, inst_bvar]
    rcases Nat.lt_trichotomy n (j + 1) with hj | rfl | hj
    · rw [Assignment.replacing_of_lt v x (by omega), Assignment.replacing_of_lt _ x hj, inst_bvar,
        Assignment.replacing_of_gt _ x hn]
    · rw [Nat.add_sub_cancel, Assignment.replacing_self, Assignment.replacing_self,
        shift_inst_replacing]
    · rw [Assignment.replacing_of_gt v x (by omega), Assignment.replacing_of_gt _ x hj, inst_bvar,
        Assignment.replacing_of_gt _ x (by omega)]

/-- Shifting at or above a variable that is replaced. -/
theorem inst_replacing_shift (inc : Nat) :
    (t.inst (.replacing u i)).shift inc j
      = (t.shift inc (j + 1)).inst (.replacing (u.shift inc j) i) := by
  rw [inst_shift, shift_inst]
  congr 1
  funext n x
  rcases Nat.lt_trichotomy n i with hn | rfl | hn
  · rw [Assignment.replacing_of_lt u x hn, shift_bvar, if_pos (by omega), if_pos (by omega),
      Assignment.replacing_of_lt _ x hn]
  · rw [Assignment.replacing_self, if_pos (by omega), Assignment.replacing_self]
  · rw [Assignment.replacing_of_gt u x hn, shift_bvar]
    by_cases hj : n < j + 1
    · rw [if_pos (by omega), if_pos hj, Assignment.replacing_of_gt _ x hn]
    · rw [if_neg (by omega), if_neg hj, Assignment.replacing_of_gt _ x (by omega)]
      congr 1
      omega

/-- Shifting at or below a variable that is replaced. -/
theorem shift_inst_replacing_shift (inc : Nat) :
    (t.shift inc i).inst (.replacing (u.shift inc i) (j + inc))
      = (t.inst (.replacing u j)).shift inc i := by
  rw [inst_shift, shift_inst]
  congr 1
  funext n x
  rcases Nat.lt_trichotomy n j with hn | rfl | hn
  · rw [Assignment.replacing_of_lt u x hn, shift_bvar]
    split
    · exact Assignment.replacing_of_lt _ x (by omega)
    · exact Assignment.replacing_of_lt _ x (by omega)
  · rw [Assignment.replacing_self, if_neg (by omega), Assignment.replacing_self]
  · rw [Assignment.replacing_of_gt u x hn, shift_bvar, if_neg (by omega), if_neg (by omega),
      Assignment.replacing_of_gt _ x (by omega)]
    congr 1
    omega

/-! ## Substitution for a variable -/

/-- Substitution for the variable `i` and for a later one `j` can be exchanged, and shifting
distributes over substitution, whether it begins at or above the variable that is replaced or at or
below it. All of this holds up to names. -/
theorem substitution_lemma (inc : Nat) :
    ((t.substAt u i).substAt v j).nameless
        = ((t.substAt (v.shift 1 i) (j + 1)).substAt (u.substAt v j) i).nameless
      ∧ ((t.substAt u i).shift inc j).nameless
        = ((t.shift inc (j + 1)).substAt (u.shift inc j) i).nameless
      ∧ ((t.shift inc i).substAt (u.shift inc i) (j + inc)).nameless
        = ((t.substAt u j).shift inc i).nameless := by
  refine ⟨?_, ?_, ?_⟩
  · rw [nameless_substAt_inst (nameless_substAt t u i) rfl,
      nameless_substAt_inst (nameless_substAt t _ _) (nameless_substAt u v j),
      inst_replacing_replacing h]
  · rw [nameless_shift (nameless_substAt t u i), nameless_substAt, inst_replacing_shift h]
  · rw [nameless_shift (nameless_substAt t u j), nameless_substAt, shift_inst_replacing_shift h]

end

/-- The term `(x : y) => X[y, w, v, x]`, where `y`, `w` and `v` are the variables 1, 3 and 4. -/
def nested : Term :=
  .abst "x" (some (.bvar 1 none))
    (.mvar (some (.named "X")) [.bvar 2 none, .bvar 4 none, .bvar 5 none, .bvar 0 none])

/-- The variable 1 is replaced by `f z`, where `z` is the variable that 3 becomes and that is then
replaced in both places. -/
theorem substitution_lemma_nested :
    1 ≤ 2
      ∧ ((nested.substAt (.appl (.symb ⟨"f"⟩) (.bvar 2 none)) 1).substAt (.bvar 0 none) 2).nameless
        = .abst "" (some (.appl (.symb ⟨"f"⟩) (.bvar 0 none))) (.mvar (some (.named "X"))
            [.appl (.symb ⟨"f"⟩) (.bvar 1 none), .bvar 1 none, .bvar 3 none, .bvar 0 none])
      ∧ ((nested.substAt ((Term.bvar 0 none).shift 1 1) 3).substAt
            ((Term.appl (.symb ⟨"f"⟩) (.bvar 2 none)).substAt (.bvar 0 none) 2) 1).nameless
        = .abst "" (some (.appl (.symb ⟨"f"⟩) (.bvar 0 none))) (.mvar (some (.named "X"))
            [.appl (.symb ⟨"f"⟩) (.bvar 1 none), .bvar 1 none, .bvar 3 none, .bvar 0 none])
      ∧ ((nested.substAt (.bvar 2 none) 1).shift 2 2).nameless
        = ((nested.shift 2 3).substAt ((Term.bvar 2 none).shift 2 2) 1).nameless
      ∧ ((nested.shift 2 1).substAt ((Term.bvar 0 none).shift 2 1) 4).nameless
        = ((nested.substAt (.bvar 0 none) 2).shift 2 1).nameless := by
  have hfirst : ((nested.substAt (.appl (.symb ⟨"f"⟩) (.bvar 2 none)) 1).substAt
      (.bvar 0 none) 2).nameless
      = .abst "" (some (.appl (.symb ⟨"f"⟩) (.bvar 0 none))) (.mvar (some (.named "X"))
        [.appl (.symb ⟨"f"⟩) (.bvar 1 none), .bvar 1 none, .bvar 3 none, .bvar 0 none]) := rfl
  have hexchange := (substitution_lemma (show 1 ≤ 2 by decide) nested
    (.appl (.symb ⟨"f"⟩) (.bvar 2 none)) (.bvar 0 none) 2).1
  exact ⟨by decide, hfirst, hexchange.symm.trans hfirst,
    (substitution_lemma (by decide) nested (.bvar 2 none) .type 2).2.1,
    (substitution_lemma (by decide) nested (.bvar 0 none) .type 2).2.2⟩

end Term

end LambdaPi
