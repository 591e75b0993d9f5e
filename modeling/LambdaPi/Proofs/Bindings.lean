import LambdaPi.Evaluation.Binding
import LambdaPi.Proofs.FreeVariables

/-!
# Bindings of meta-variables

A meta-variable in a pattern is applied to distinct variables that the pattern binds, and
`localPositions` inverts that list of arguments: `localPositions_getElem?` says that a variable is
noted at a position exactly if it is the argument there. So a binding that depends on nothing but
the arguments can be used in place of the meta-variable: applied to the arguments it was matched
with, it gives back the matched term (`Binding.nameless_instantiate_args`).
-/

namespace LambdaPi

/-! ## Positions of arguments -/

theorem notePosition_ok {depth : Nat} {positions noted : List (Option Nat)} {arg : Term} {i : Nat}
    (h : notePosition depth positions arg i = .ok noted) (hlen : positions.length = depth) :
    ∃ x name, arg = .bvar x name ∧ x < depth ∧ positions[x]? = some none
      ∧ noted = positions.set x (some i) := by
  unfold notePosition at h
  split at h
  · next x name =>
    split at h
    · next hx =>
      split at h
      · cases h
      · next hnone =>
        refine ⟨x, name, rfl, hx, ?_, (Except.ok.inj h).symm⟩
        cases hget : positions[x]? with
        | none => exact absurd hget (by simp; omega)
        | some slot =>
            cases slot with
            | none => rfl
            | some k => exact (hnone k hget).elim
    · cases h
  · cases h

/-- What the loop over the arguments has noted in the end, if the first of them stands at position
`i`: the positions of these arguments, next to what was noted before. -/
theorem notePositions_ok {depth : Nat} {args : List Term} {i : Nat}
    {positions noted : List (Option Nat)} (h : notePositions depth args i positions = .ok noted)
    (hlen : positions.length = depth) :
    noted.length = depth
      ∧ noted.countP (·.isSome) = positions.countP (·.isSome) + args.length
      ∧ (∀ a ∈ args, ∃ x name, a = .bvar x name ∧ x < depth)
      ∧ ∀ x k, noted[x]? = some (some k) ↔
          positions[x]? = some (some k) ∨ ∃ j name, args[j]? = some (.bvar x name) ∧ k = i + j := by
  induction args generalizing i positions with
  | nil =>
      obtain rfl := Except.ok.inj h
      exact ⟨hlen, rfl, nofun, fun x k => by simp⟩
  | cons a args ih =>
      simp only [notePositions] at h
      cases hfirst : notePosition depth positions a i with
      | error e => rw [hfirst] at h; cases h
      | ok positions' =>
          rw [hfirst] at h
          obtain ⟨y, name, rfl, hy, hfree, rfl⟩ := notePosition_ok hfirst hlen
          obtain ⟨hlen', hcount, hvars, hnoted⟩ := ih h (by simpa using hlen)
          have hylen : y < positions.length := by omega
          have hold : positions[y] = none := by
            simpa [List.getElem?_eq_getElem hylen] using hfree
          refine ⟨hlen', ?_, ?_, fun x k => ?_⟩
          · rw [hcount, List.countP_set (by omega)]
            simp only [hold, Option.isSome_none, Option.isSome_some, List.length_cons]
            simp
            omega
          · intro b hb
            rcases List.mem_cons.mp hb with rfl | hb
            · exact ⟨y, name, rfl, hy⟩
            · exact hvars b hb
          · rw [hnoted x k, List.getElem?_set]
            constructor
            · rintro (hset | ⟨j, name', hj, rfl⟩)
              · by_cases hxy : y = x
                · subst hxy
                  rw [if_pos rfl, if_pos hylen] at hset
                  exact Or.inr ⟨0, name, rfl, by simpa using hset.symm⟩
                · rw [if_neg hxy] at hset
                  exact Or.inl hset
              · exact Or.inr ⟨j + 1, name', hj, by omega⟩
            · rintro (hold' | ⟨j, name', hj, rfl⟩)
              · left
                by_cases hxy : y = x
                · subst hxy
                  rw [hfree] at hold'
                  cases hold'
                · rwa [if_neg hxy]
              · cases j with
                | zero =>
                    obtain ⟨rfl, -⟩ : y = x ∧ name = name' := by simpa using hj
                    left
                    rw [if_pos rfl, if_pos hylen]
                    rfl
                | succ j => exact Or.inr ⟨j, name', hj, by omega⟩

section

variable {depth : Nat} {args : List Term} {positions : List (Option Nat)}
  (h : localPositions args depth = .ok positions)

include h

/-- Every variable that the pattern binds has a place among the positions. -/
theorem localPositions_length : positions.length = depth :=
  (notePositions_ok h (by simp)).1

/-- As many positions are noted as there are arguments. -/
theorem localPositions_countP : positions.countP (·.isSome) = args.length := by
  have hcount := (notePositions_ok h (by simp)).2.1
  simpa [List.countP_replicate] using hcount

theorem localPositions_vars : ∀ a ∈ args, ∃ x name, a = Term.bvar x name ∧ x < depth :=
  (notePositions_ok h (by simp)).2.2.1

/-- A variable is noted at a position exactly if it is the argument there. -/
theorem localPositions_getElem? (x k : Nat) :
    positions[x]? = some (some k) ↔ ∃ name, args[k]? = some (Term.bvar x name) := by
  rw [(notePositions_ok h (by simp)).2.2.2 x k]
  simp only [List.getElem?_replicate, Nat.zero_add]
  constructor
  · rintro (hnone | ⟨j, name, hj, rfl⟩)
    · split at hnone <;> cases hnone
    · exact ⟨name, hj⟩
  · rintro ⟨name, hname⟩
    exact Or.inr ⟨k, name, hname, rfl⟩

theorem localPositions_getD (x k : Nat) :
    positions.getD x none = some k ↔ ∃ name, args[k]? = some (Term.bvar x name) := by
  rw [← localPositions_getElem? h x k, List.getD_eq_getElem?_getD]
  cases positions[x]? <;> simp

theorem localPositions_isSome (x : Nat) :
    (positions.getD x none).isSome = args.any (·.isVar x) := by
  rw [Bool.eq_iff_iff, Option.isSome_iff_exists, List.any_eq_true]
  constructor
  · rintro ⟨k, hk⟩
    obtain ⟨name, hname⟩ := (localPositions_getD h x k).mp hk
    exact ⟨_, List.mem_of_getElem? hname, by simp [Term.isVar]⟩
  · rintro ⟨a, ha, hvar⟩
    obtain ⟨y, name, rfl, -⟩ := localPositions_vars h a ha
    obtain ⟨k, hk⟩ := List.mem_iff_getElem?.mp ha
    obtain rfl : y = x := by simpa [Term.isVar] using hvar
    exact ⟨k, (localPositions_getD h y k).mpr ⟨name, hk⟩⟩

end

/-! ## Terms that a meta-variable may stand for -/

namespace Term

/-- Of the `depth` innermost variables, the term uses none but those among the arguments. -/
def usesOnly (args : List Term) (depth : Nat) (t : Term) : Bool :=
  t.allFree (fun x => depth ≤ x || args.any (·.isVar x)) 0

theorem allFree_of_forall {p : Nat → Bool} (h : ∀ n, p n = true) (t : Term) (k : Nat) :
    t.allFree p k = true := by
  induction t generalizing k with
  | kind | type | symb | joker => rfl
  | bvar n x => simp [allFree, h]
  | appl f a ihf iha => simp [allFree, ihf, iha]
  | prod x A B ihA ihB => simp [allFree, ihA, ihB]
  | abst x A t ihA iht =>
      simp only [allFree, Bool.and_eq_true, allFreeAnn_iff]
      exact ⟨fun B hB => ihA B hB k, iht (k + 1)⟩
  | mvar m args ih =>
      simp only [allFree, allFreeArgs_iff]
      exact fun a ha => ih a ha k

end Term

theorem isVar_of_countsFrom {i : Nat} {args : List Term} (h : countsFrom i args = true) {k : Nat}
    {a : Term} (ha : args[k]? = some a) : a.isVar (i + k) = true := by
  induction args generalizing i k with
  | nil => cases ha
  | cons b args ih =>
      rw [countsFrom, Bool.and_eq_true] at h
      cases k with
      | zero =>
          obtain rfl : b = a := by simpa using ha
          exact h.1
      | succ k =>
          rw [show i + (k + 1) = i + 1 + k by omega]
          exact ih h.2 ha

/-- A meta-variable applied to all variables around it, in order, stands for any term. -/
theorem usesOnly_of_isIdentity {args : List Term} {depth : Nat}
    (h : isIdentity args depth = true) (t : Term) : t.usesOnly args depth = true := by
  rw [isIdentity, Bool.and_eq_true, beq_iff_eq] at h
  refine Term.allFree_of_forall (fun x => ?_) t 0
  by_cases hx : depth ≤ x
  · simp [hx]
  · have hlt : x < args.length := by omega
    have hvar := isVar_of_countsFrom h.2 (List.getElem?_eq_getElem hlt)
    rw [Nat.zero_add] at hvar
    rw [Bool.or_eq_true, List.any_eq_true]
    exact Or.inr ⟨_, List.getElem_mem hlt, hvar⟩

namespace Binding

/-- Number of arguments of the meta-variable that was bound. -/
def arity (b : Binding) : Nat :=
  b.positions.countP (·.isSome)

theorem valid_eq_usesOnly {args : List Term} {depth : Nat} {positions : List (Option Nat)}
    (h : localPositions args depth = .ok positions) (t : Term) :
    (Binding.mk t depth positions).valid = t.usesOnly args depth := by
  have hsame : (fun x => decide (depth ≤ x) || (positions.getD x none).isSome)
      = fun x => decide (depth ≤ x) || args.any (·.isVar x) :=
    funext fun x => by rw [localPositions_isSome h x]
  simp only [valid, Term.usesOnly, hsame]

/-! ## Using a binding -/

/-- What the variables of a bound term become when the meta-variable is applied to arguments. -/
def assignment (b : Binding) (args : List Term) (c : Nat) : Assignment :=
  fun n x =>
    if n < b.depth then ((b.positions.getD n none).bind fun i => args[i]?).getD (.bvar n x)
    else .bvar (n - b.depth + c) x

theorem mapVars_replacement (b : Binding) (args : List Term) (c : Nat) :
    b.term.mapVars (b.replacement args c) 0 = b.term.inst (b.assignment args c) := by
  refine Term.mapVars_congr (fun i n x => ?_) b.term
  simp only [Term.mapVars, Nat.zero_add]
  split
  · rfl
  · next hn =>
    simp only [replacement, Assignment.replacement, assignment]
    split
    · cases (b.positions.getD (n - i) none).bind fun k => args[k]? with
      | none =>
          simp only [Option.getD_none, Term.lift_bvar]
          congr 1
          omega
      | some arg => rfl
    · rw [Term.lift_bvar]

theorem assignment_of_depth {b : Binding} (h : b.depth = 0) (args : List Term) (c : Nat) :
    b.assignment args c = fun n x => .bvar (n + c) x := by
  funext n x
  simp [assignment, h]

theorem nameless_instantiate (b : Binding) (args : List Term) (c : Nat) :
    (b.instantiate args c).nameless = (b.term.inst (b.assignment args c)).nameless := by
  unfold instantiate
  split
  · next hdepth => rw [assignment_of_depth hdepth, Term.lift_eq_inst]
  · rw [(Term.nameless_replace _ b.term 0).1, mapVars_replacement]

/-- Nothing is lost by keeping what does not move, if no variable is replaced by itself under
another name. -/
theorem instantiate_eq_inst {b : Binding} {args : List Term}
    (h : ∀ n i a, n < b.depth → b.positions.getD n none = some i → args[i]? = some a →
      a.isVar n = false) (c : Nat) :
    b.instantiate args c = b.term.inst (b.assignment args c) := by
  unfold instantiate
  split
  · next hdepth => rw [assignment_of_depth hdepth, Term.lift_eq_inst]
  · rw [← mapVars_replacement]
    refine (Term.replace_yields_mapVars (fun n k x hvar => ?_) b.term 0).1
    simp only [replacement] at hvar ⊢
    split
    · next hlt =>
      rw [if_pos hlt] at hvar
      cases harg : (b.positions.getD (n - k) none).bind fun i => args[i]? with
      | none => rfl
      | some a =>
          obtain ⟨i, hi, ha⟩ := Option.bind_eq_some_iff.mp harg
          have hnot := h (n - k) i a hlt hi ha
          simp only [harg] at hvar
          cases a with
          | bvar m y =>
              simp only [Term.lift_bvar, Term.isVar, beq_iff_eq] at hvar
              simp only [Term.isVar, beq_eq_false_iff_ne] at hnot
              omega
          | _ => simp [Term.lift_eq_inst, Term.isVar] at hvar
    · next hlt =>
      rw [if_neg hlt, Term.isVar, beq_iff_eq] at hvar
      rw [hvar]

/-- A binding that depends on the arguments only, applied to them, is the matched term. -/
theorem nameless_instantiate_args {b : Binding} {args : List Term}
    (h : localPositions args b.depth = .ok b.positions) (hvalid : b.valid = true) :
    (b.instantiate args b.depth).nameless = b.term.nameless := by
  rw [nameless_instantiate, Term.nameless_inst_congr_free (fun n x hn => ?_) hvalid,
    Term.inst_self]
  rw [Bool.or_eq_true, decide_eq_true_eq] at hn
  by_cases hdepth : b.depth ≤ n
  · simp only [assignment, if_neg (Nat.not_lt.mpr hdepth)]
    rw [Nat.sub_add_cancel hdepth]
  · obtain ⟨k, hk⟩ := Option.isSome_iff_exists.mp (hn.resolve_left hdepth)
    obtain ⟨name, hname⟩ := (localPositions_getD h n k).mp hk
    simp only [assignment, if_pos (Nat.lt_of_not_le hdepth), hk, Option.bind_some, hname,
      Option.getD_some, Term.nameless]

end Binding

theorem mem_of_lookup {θ : Bindings} {X : MetaName} {b : Binding} (h : θ.lookup X = some b) :
    (X, b) ∈ θ := by
  obtain ⟨l, l', rfl, -⟩ := List.lookup_eq_some_iff.mp h
  simp

/-! ## Putting bindings in place -/

namespace Term

theorem fillAnn_eq_map (θ : Bindings) (c : Nat) (A : Option Term) :
    fillAnn θ c A = A.map (fill θ c) := by
  cases A <;> rfl

theorem fillArgs_eq_map (θ : Bindings) (c : Nat) (args : List Term) :
    fillArgs θ c args = args.map (fill θ c) := by
  induction args with
  | nil => rfl
  | cons a args ih => simp only [fillArgs, ih, List.map_cons]

/-- Nothing is bound, so nothing changes. -/
theorem fill_nil (c : Nat) (t : Term) : t.fill [] c = t := by
  induction t generalizing c with
  | kind | type | symb | bvar | joker => rfl
  | appl f a ihf iha => simp only [fill, ihf, iha]
  | prod x A B ihA ihB => simp only [fill, ihA, ihB]
  | abst x A t ihA iht =>
      have hann : A.map (fill [] c) = A := by
        cases A with
        | none => rfl
        | some B => exact congrArg some (ihA B rfl c)
      simp only [fill, fillAnn_eq_map, hann, iht]
  | mvar m args ih =>
      have hargs : args.map (fill [] c) = args :=
        (List.map_congr_left fun a ha => ih a ha c).trans (List.map_id' args)
      have hnone : (m.bind fun name => List.lookup name ([] : Bindings)) = none := by
        cases m <;> rfl
      simp only [fill, fillArgs_eq_map, hargs, hnone]

end Term

theorem Rule.instantiate_eq_fill (rule : Rule) (θ : Bindings) :
    rule.instantiate θ = rule.rhs.fill θ 0 := by
  unfold Rule.instantiate
  split
  · next h => rw [List.isEmpty_iff.mp h, Term.fill_nil]
  · rfl

end LambdaPi
