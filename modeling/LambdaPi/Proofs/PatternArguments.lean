import Mathlib
import LambdaPi.Proofs.WellFormedPatterns

/-!
# Arguments of meta-variables

The positions of the arguments of a meta-variable are noted in one pass over them, which ends at the
first argument that it cannot note. What may be wrong with the argument at a position does not
depend on what comes after it (`PatternError.At`): it is not a variable that the pattern binds, or
it is one that is an argument before. The pass fails exactly at the first such position, with what
is wrong there, and otherwise it has inverted the list of arguments (`localPositions_inverts`).

Along the pass, the table of positions is the inverse of the arguments that were looked at
(`Inverts`), and none of these was wrong.
-/

namespace LambdaPi

/-- The argument at position `i` is the variable `x`. -/
def VarAt (args : List Term) (i x : Nat) : Prop :=
  ∃ name, args[i]? = some (.bvar x name)

/-- Why the argument at position `i` does not belong to a pattern that binds `depth` variables. -/
inductive PatternError.At (args : List Term) (depth i : Nat) : PatternError → Prop
  | nonLocal {arg} : args[i]? = some arg → (∀ x < depth, arg.isVar x = false) →
      At args depth i (.nonLocal arg)
  | repeated {arg x j} : args[i]? = some arg → x < depth → arg.isVar x = true → j < i →
      VarAt args j x → At args depth i (.repeated arg)

/-- The table of positions is the inverse of the list of arguments. -/
structure Inverts (positions : List (Option Nat)) (args : List Term) (depth : Nat) : Prop where
  length : positions.length = depth
  position : ∀ x i, positions[x]? = some (some i) ↔ VarAt args i x

section

variable {args rest : List Term} {depth i x : Nat}

theorem varAt_append_of_lt (h : i < args.length) : VarAt (args ++ rest) i x ↔ VarAt args i x := by
  rw [VarAt, VarAt, List.getElem?_append_left h]

theorem varAt_append_singleton {arg : Term} :
    VarAt (args ++ [arg]) i x ↔ VarAt args i x ∨ i = args.length ∧ arg.isVar x = true := by
  rcases Nat.lt_trichotomy i args.length with hlt | rfl | hgt
  · rw [varAt_append_of_lt hlt]
    simp [Nat.ne_of_lt hlt]
  · have hnone : ¬ VarAt args args.length x := by simp [VarAt]
    rw [VarAt, List.getElem?_concat_length]
    simp only [hnone, Option.some.injEq, true_and, false_or]
    exact ⟨fun ⟨name, h⟩ => by simp [h, Term.isVar], Term.eq_bvar_of_isVar⟩
  · have hlen : (args ++ [arg]).length ≤ i := by simpa using hgt
    simp [VarAt, List.getElem?_eq_none hlen, List.getElem?_eq_none (Nat.le_of_lt hgt),
      Nat.ne_of_gt hgt]

namespace PatternError.At

variable {e e' : PatternError}

/-- Later arguments make no difference. -/
theorem append_iff (h : i < args.length) : e.At (args ++ rest) depth i ↔ e.At args depth i := by
  have hget : (args ++ rest)[i]? = args[i]? := List.getElem?_append_left h
  constructor
  · intro hat
    cases hat with
    | nonLocal harg hvar => exact .nonLocal (hget ▸ harg) hvar
    | repeated harg hx hvar hj hfirst =>
        exact .repeated (hget ▸ harg) hx hvar hj ((varAt_append_of_lt (by omega)).1 hfirst)
  · intro hat
    cases hat with
    | nonLocal harg hvar => exact .nonLocal (hget ▸ harg) hvar
    | repeated harg hx hvar hj hfirst =>
        exact .repeated (hget ▸ harg) hx hvar hj ((varAt_append_of_lt (by omega)).2 hfirst)

/-- At most one thing is wrong with an argument. -/
theorem unique (h : e.At args depth i) (h' : e'.At args depth i) : e = e' := by
  cases h with
  | nonLocal harg hvar =>
      cases h' with
      | nonLocal harg' _ => rw [Option.some.inj (harg.symm.trans harg')]
      | repeated harg' hx hvar' _ _ =>
          obtain rfl := Option.some.inj (harg.symm.trans harg')
          exact absurd hvar' (by simp [hvar _ hx])
  | repeated harg hx hvar _ _ =>
      cases h' with
      | nonLocal harg' hvar' =>
          obtain rfl := Option.some.inj (harg.symm.trans harg')
          exact absurd hvar (by simp [hvar' _ hx])
      | repeated harg' _ _ _ _ => rw [Option.some.inj (harg.symm.trans harg')]

end PatternError.At

end

/-! ## One argument -/

section

variable {depth : Nat} {positions : List (Option Nat)} {seen : List Term}
  (h : Inverts positions seen depth) {arg : Term}

include h

/-- An argument that is refused is wrong for the reason given. -/
theorem Inverts.at_of_error {e : PatternError}
    (herror : notePosition depth positions arg seen.length = .error e) :
    e.At (seen ++ [arg]) depth seen.length := by
  have harg : (seen ++ [arg])[seen.length]? = some arg := List.getElem?_concat_length
  unfold notePosition at herror
  split at herror
  · next x name =>
    split at herror
    · next hx =>
      split at herror
      · next j hj =>
        obtain rfl := Except.error.inj herror
        obtain ⟨name', hfirst⟩ := (h.position x j).1 hj
        have hlt : j < seen.length := (List.getElem?_eq_some_iff.1 hfirst).1
        exact .repeated harg hx (by simp [Term.isVar]) hlt
          ((varAt_append_of_lt hlt).2 ⟨name', hfirst⟩)
      · cases herror
    · next hx =>
      obtain rfl := Except.error.inj herror
      exact .nonLocal harg fun y hy => by simp only [Term.isVar, beq_eq_false_iff_ne]; omega
  · next hvar =>
    obtain rfl := Except.error.inj herror
    refine .nonLocal harg fun y _ => Bool.eq_false_iff.2 fun hy => ?_
    obtain ⟨name, rfl⟩ := Term.eq_bvar_of_isVar hy
    exact hvar y name rfl

/-- An argument that is noted is not wrong, and the table is the inverse with it. -/
theorem Inverts.of_ok {noted : List (Option Nat)}
    (hok : notePosition depth positions arg seen.length = .ok noted) :
    Inverts noted (seen ++ [arg]) depth
      ∧ ∀ e : PatternError, ¬ e.At (seen ++ [arg]) depth seen.length := by
  obtain ⟨x, name, rfl, hx, hfree, rfl⟩ := notePosition_ok hok h.length
  have hnew : ∀ i, ¬ VarAt seen i x := by
    intro i hi
    have := (h.position x i).2 hi
    rw [hfree] at this
    cases this
  have harg : (seen ++ [Term.bvar x name])[seen.length]? = some (.bvar x name) :=
    List.getElem?_concat_length
  constructor
  · refine ⟨by simpa using h.length, fun y i => ?_⟩
    rw [varAt_append_singleton, List.getElem?_set, ← h.position y i]
    split
    · next hxy =>
      subst hxy
      rw [if_pos (h.length ▸ hx), hfree]
      simp [Term.isVar, eq_comm]
    · next hxy => simp [Term.isVar, hxy]
  · intro e hat
    cases hat with
    | nonLocal harg' hvar =>
        obtain rfl := Option.some.inj (harg.symm.trans harg')
        simpa [Term.isVar] using hvar x hx
    | @repeated _ y j harg' _ hvar hj hfirst =>
        obtain rfl := Option.some.inj (harg.symm.trans harg')
        obtain rfl : x = y := by simpa [Term.isVar] using hvar
        exact hnew j ((varAt_append_of_lt hj).1 hfirst)

end

/-! ## All arguments -/

/-- If nothing is wrong with the arguments that were looked at, the rest of the pass fails exactly
if something is wrong, with what is wrong first. -/
theorem Inverts.notePositions_error_iff {depth : Nat} {positions : List (Option Nat)}
    {seen : List Term} (h : Inverts positions seen depth)
    (hseen : ∀ j < seen.length, ∀ e : PatternError, ¬ e.At seen depth j) (args : List Term)
    {e : PatternError} :
    notePositions depth args seen.length positions = .error e
      ↔ ∃ i, e.At (seen ++ args) depth i
        ∧ ∀ j < i, ∀ e' : PatternError, ¬ e'.At (seen ++ args) depth j := by
  induction args generalizing seen positions with
  | nil =>
      rw [List.append_nil, notePositions]
      refine iff_of_false (by simp) ?_
      rintro ⟨i, hi, -⟩
      refine hseen i ?_ e hi
      cases hi with
      | nonLocal harg _ => exact (List.getElem?_eq_some_iff.1 harg).1
      | repeated harg _ _ _ _ => exact (List.getElem?_eq_some_iff.1 harg).1
  | cons arg args ih =>
      have hlen : seen.length < (seen ++ [arg]).length := by simp
      rw [notePositions, List.append_cons]
      cases hstep : notePosition depth positions arg seen.length with
      | error e₀ =>
          have hat : e₀.At (seen ++ [arg] ++ args) depth seen.length :=
            (PatternError.At.append_iff hlen).2 (h.at_of_error hstep)
          have hbefore : ∀ j < seen.length, ∀ e' : PatternError,
              ¬ e'.At (seen ++ [arg] ++ args) depth j := by
            intro j hj e'
            rw [PatternError.At.append_iff (by omega), PatternError.At.append_iff hj]
            exact hseen j hj e'
          constructor
          · intro herror
            obtain rfl := Except.error.inj herror
            exact ⟨seen.length, hat, hbefore⟩
          · rintro ⟨i, hi, hfirst⟩
            rcases Nat.lt_trichotomy i seen.length with hlt | rfl | hgt
            · exact absurd hi (hbefore i hlt e)
            · rw [hi.unique hat]
              rfl
            · exact absurd hat (hfirst _ hgt e₀)
      | ok noted =>
          obtain ⟨hnoted, hnone⟩ := h.of_ok hstep
          have hstill : ∀ j < (seen ++ [arg]).length, ∀ e' : PatternError,
              ¬ e'.At (seen ++ [arg]) depth j := by
            intro j hj e'
            by_cases hlt : j < seen.length
            · rw [PatternError.At.append_iff hlt]
              exact hseen j hlt e'
            · obtain rfl : j = seen.length := by simp at hj; omega
              exact hnone e'
          have hrest := ih hnoted hstill
          rw [List.length_append, List.length_singleton] at hrest
          exact hrest

/-- The positions of the arguments can be noted exactly if these are distinct variables among the
`depth` innermost ones, and then the table is the inverse of the list of arguments. Otherwise the
error is what is wrong at the first position where something is: the argument there is not such a
variable, or it is one and an argument before. -/
theorem localPositions_inverts (args : List Term) (depth : Nat) :
    ((∃ positions, localPositions args depth = .ok positions) ↔ DistinctVars depth args)
      ∧ (∀ positions, localPositions args depth = .ok positions → Inverts positions args depth)
      ∧ ∀ e, localPositions args depth = .error e
        ↔ ∃ i, e.At args depth i ∧ ∀ j < i, ∀ e' : PatternError, ¬ e'.At args depth j := by
  refine ⟨localPositions_ok_iff, fun positions h => ?_, fun e => ?_⟩
  · exact ⟨localPositions_length h, localPositions_getElem? h⟩
  · have hempty : Inverts (List.replicate depth none) [] depth := by
      refine ⟨List.length_replicate, fun x i => ?_⟩
      simp [VarAt, List.getElem?_replicate]
    exact hempty.notePositions_error_iff (by simp) args

/-- The variables 2 and 0 under three binders; and the variable 0 twice, before an argument that is
no variable. -/
theorem localPositions_inverts_pair :
    localPositions [.bvar 2 none, .bvar 0 none] 3 = .ok [some 1, none, some 0]
      ∧ Inverts [some 1, none, some 0] [.bvar 2 none, .bvar 0 none] 3
      ∧ localPositions [.bvar 0 none, .bvar 0 (some "x"), .joker] 1
        = .error (.repeated (.bvar 0 (some "x"))) := by
  obtain ⟨-, hinverts, -⟩ := localPositions_inverts [.bvar 2 none, .bvar 0 none] 3
  obtain ⟨-, -, herror⟩ := localPositions_inverts [.bvar 0 none, .bvar 0 (some "x"), .joker] 1
  refine ⟨rfl, hinverts _ rfl, (herror _).2 ⟨1, ?_, fun j hj e hat => ?_⟩⟩
  · exact .repeated rfl Nat.one_pos rfl Nat.one_pos ⟨none, rfl⟩
  · obtain rfl : j = 0 := by omega
    cases hat with
    | nonLocal harg hvar =>
        obtain rfl := Option.some.inj harg
        cases hvar 0 Nat.one_pos
    | repeated _ _ _ hlt _ => cases hlt

end LambdaPi
