import LambdaPi.Evaluation.Matching
import LambdaPi.Proofs.Bindings
import LambdaPi.Proofs.Places

/-!
# Matching and instantiating are inverse

A meta-variable applied to distinct variables of its pattern is bound to the term it is matched
with. Applied to other terms, the binding is that term with each of the variables exchanged for
the term opposite to it, all at once (`Assignment.exchange`). In particular, applied to the
variables themselves it is the term (`Binding.instantiate_inverts_matching`).

This needs no more than that the term has no other variable of the pattern, which is what is
checked. A meta-variable that is applied to all variables of the pattern in order passes the check
in any case, so that it need not be made.
-/

namespace LambdaPi

/-- Exchange each variable among `args` for the term opposite to it in `us`, and take the variables
beyond the `depth` innermost ones out from under these and under `c` others. -/
def Assignment.exchange (args us : List Term) (depth c : Nat) : Assignment :=
  fun n x =>
    if n < depth then (((args.zip us).find? (·.1.isVar n)).map (·.2)).getD (.bvar n x)
    else .bvar (n - depth + c) x

section

variable {args : List Term} {depth : Nat} {positions : List (Option Nat)}
  (h : localPositions args depth = .ok positions)

include h

theorem getD_eq_of_isVar {n k : Nat} {a : Term} (ha : args[k]? = some a)
    (hvar : a.isVar n = true) : positions.getD n none = some k := by
  obtain ⟨m, name, rfl, -⟩ := localPositions_vars h a (List.mem_of_getElem? ha)
  obtain rfl : m = n := by simpa [Term.isVar] using hvar
  exact (localPositions_getD h m k).mpr ⟨name, ha⟩

/-- The position of a variable leads to the term opposite to it. -/
theorem bind_position_eq_find? (us : List Term) (n : Nat) :
    ((positions.getD n none).bind fun i => us[i]?)
      = ((args.zip us).find? (·.1.isVar n)).map (·.2) := by
  cases hfind : (args.zip us).find? (·.1.isVar n) with
  | none =>
      rw [Option.map_none, Option.bind_eq_none_iff]
      intro k hk
      obtain ⟨name, hname⟩ := (localPositions_getD h n k).mp hk
      cases hu : us[k]? with
      | none => rfl
      | some u =>
          have hmem : (.bvar n name, u) ∈ args.zip us :=
            List.mem_of_getElem? (List.getElem?_zip_eq_some.mpr ⟨hname, hu⟩)
          exact absurd (by simp [Term.isVar]) (List.find?_eq_none.mp hfind _ hmem)
  | some p =>
      obtain ⟨k, hk⟩ := List.mem_iff_getElem?.mp (List.mem_of_find?_eq_some hfind)
      obtain ⟨ha, hu⟩ := List.getElem?_zip_eq_some.mp hk
      have hvar : p.1.isVar n = true := by simpa using List.find?_some hfind
      rw [getD_eq_of_isVar h ha hvar, Option.bind_some, hu, Option.map_some]

theorem assignment_eq_exchange (t : Term) (us : List Term) (c : Nat) :
    (Binding.mk t depth positions).assignment us c = .exchange args us depth c := by
  funext n x
  simp only [Binding.assignment, Assignment.exchange, bind_position_eq_find? h]

theorem valid_iff_hasFree (t : Term) : (Binding.mk t depth positions).valid = true
    ↔ ∀ x, t.HasFree x → x < depth → ∃ a ∈ args, a.isVar x = true := by
  rw [Binding.valid_eq_usesOnly h, Term.usesOnly, Term.allFree_iff_hasFree]
  refine forall₂_congr fun x _ => ?_
  rw [Bool.or_eq_true, decide_eq_true_eq, List.any_eq_true, ← Nat.not_lt,
    ← Decidable.imp_iff_not_or]

/-- Let a meta-variable applied to `args`, which are distinct variables among the `depth` that the
pattern binds, be bound to `t`. The binding is valid exactly if `t` has no variables of the
pattern but those. Applied to `args` again, it is `t` up to names if it is valid. Applied to any
terms, it is `t` with the variables exchanged for these terms, up to names, and even with all
names unless a variable is exchanged for itself. If `args` are all the variables in order, the
binding is valid whatever `t` is, and leaving out the check makes no difference. -/
theorem Binding.instantiate_inverts_matching (t : Term) :
    ((Binding.mk t depth positions).valid = true
        ↔ ∀ x, t.HasFree x → x < depth → ∃ a ∈ args, a.isVar x = true)
      ∧ ((Binding.mk t depth positions).valid = true →
        ((Binding.mk t depth positions).instantiate args depth).nameless = t.nameless)
      ∧ (∀ us c, ((Binding.mk t depth positions).instantiate us c).nameless
          = (t.inst (.exchange args us depth c)).nameless
        ∧ ((∀ p ∈ args.zip us, ∀ x, p.1.isVar x = true → p.2.isVar x = false) →
          (Binding.mk t depth positions).instantiate us c = t.inst (.exchange args us depth c)))
      ∧ (isIdentity args depth = true → (Binding.mk t depth positions).valid = true
        ∧ ∀ (red : Reducer) (column : Nat) (X : MetaName),
          MetaTest.settle red ⟨column, X, positions, depth, args, true⟩ t
            = MetaTest.settle red ⟨column, X, positions, depth, args, false⟩ t) := by
  refine ⟨valid_iff_hasFree h t, nameless_instantiate_args h, fun us c => ⟨?_, fun hnew => ?_⟩,
    fun hall => ?_⟩
  · rw [nameless_instantiate, assignment_eq_exchange h]
  · rw [instantiate_eq_inst (fun n i a _ hi ha => ?_), assignment_eq_exchange h]
    obtain ⟨name, hname⟩ := (localPositions_getD h n i).mp hi
    refine hnew (.bvar n name, a) ?_ n (by simp [Term.isVar])
    exact List.mem_of_getElem? (List.getElem?_zip_eq_some.mpr ⟨hname, ha⟩)
  · have hvalid : (Binding.mk t depth positions).valid = true := by
      rw [valid_eq_usesOnly h]
      exact usesOnly_of_isIdentity hall t
    refine ⟨hvalid, fun red column X => ?_⟩
    simp only [MetaTest.settle, hvalid, Bool.or_true, if_true]

end

/-- The term `z => g z x w v`, where `x` and `w` are the variables 0 and 2, and `v` is the first of
those beyond the three that a pattern binds. -/
def matched : Term :=
  .abst "z" none ((Term.symb ⟨"g"⟩).apply
    [.bvar 0 (some "z"), .bvar 1 (some "x"), .bvar 3 (some "w"), .bvar 4 (some "v")])

/-- The meta-variable `X[w, x]` is matched with `z => g z x w v`, and `X[f y, a]` under two
binders is `z => g z a (f y) v`. -/
theorem Binding.instantiate_inverts_matching_matched :
    localPositions [.bvar 2 (some "w"), .bvar 0 (some "x")] 3 = .ok [some 1, none, some 0]
      ∧ (Binding.mk matched 3 [some 1, none, some 0]).valid = true
      ∧ ((Binding.mk matched 3 [some 1, none, some 0]).instantiate
          [.bvar 2 (some "w"), .bvar 0 (some "x")] 3).nameless = matched.nameless
      ∧ (Binding.mk matched 3 [some 1, none, some 0]).instantiate
          [.appl (.symb ⟨"f"⟩) (.bvar 1 (some "y")), .symb ⟨"a"⟩] 2
        = .abst "z" none ((Term.symb ⟨"g"⟩).apply [.bvar 0 (some "z"), .symb ⟨"a"⟩,
          .appl (.symb ⟨"f"⟩) (.bvar 2 (some "y")), .bvar 3 (some "v")])
      ∧ (Binding.mk matched 1 [some 0]).valid = true := by
  have hargs : localPositions [.bvar 2 (some "w"), .bvar 0 (some "x")] 3
      = .ok [some 1, none, some 0] := rfl
  have hall : localPositions [.bvar 0 (some "x")] 1 = .ok [some 0] := rfl
  obtain ⟨-, hback, hexchange, -⟩ := Binding.instantiate_inverts_matching hargs matched
  have hvalid : (Binding.mk matched 3 [some 1, none, some 0]).valid = true := rfl
  refine ⟨hargs, hvalid, hback hvalid, ((hexchange _ 2).2 ?_).trans rfl,
    ((Binding.instantiate_inverts_matching hall matched).2.2.2 rfl).1⟩
  simp [Term.isVar]

end LambdaPi
