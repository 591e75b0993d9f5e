import Mathlib
import LambdaPi.Proofs.Firing

/-!
# Rules that compile

A rule set compiles exactly if its rules have one head, no more arguments than the tree looks at, and
well-formed patterns (`Term.WellFormedAt`, which says without reference to the compiler which patterns
those are). The conditions speak of one rule at a time. So a rule that was accepted because the tree
for its own number of arguments could be compiled never spoils another tree: in a signature that was
built by declarations, the tree for any number of arguments can be compiled whenever it is asked for
(`Signature.Reachable.exists_treeUpTo`).
-/

namespace LambdaPi

/-! ## Distinct variables -/

/-- The terms are distinct variables among the `d` innermost ones. -/
def DistinctVars (d : Nat) (args : List Term) : Prop :=
  ∃ xs : List Nat, List.Forall₂ (fun a x => a.isVar x = true) args xs ∧ xs.Nodup ∧ ∀ x ∈ xs, x < d

theorem Term.eq_bvar_of_isVar {a : Term} {x : Nat} (h : a.isVar x = true) :
    ∃ name, a = .bvar x name := by
  cases a with
  | bvar n name =>
      obtain rfl : n = x := by simpa [Term.isVar] using h
      exact ⟨name, rfl⟩
  | _ => cases h

theorem notePosition_bvar {depth : Nat} {positions : List (Option Nat)} {x : Nat}
    (hx : x < depth) (hfree : positions[x]? = some none) (name : Option String) (i : Nat) :
    notePosition depth positions (.bvar x name) i = .ok (positions.set x (some i)) := by
  simp [notePosition, hx, hfree]

/-- The loop accepts exactly distinct variables that were not noted before. -/
theorem notePositions_ok_iff {depth : Nat} {args : List Term} {i : Nat}
    {positions : List (Option Nat)} (hlen : positions.length = depth) :
    (∃ noted, notePositions depth args i positions = .ok noted)
      ↔ ∃ xs : List Nat, List.Forall₂ (fun a x => a.isVar x = true) args xs ∧ xs.Nodup
        ∧ ∀ x ∈ xs, x < depth ∧ positions[x]? = some none := by
  induction args generalizing i positions with
  | nil =>
      constructor
      · exact fun _ => ⟨[], .nil, List.nodup_nil, nofun⟩
      · exact fun _ => ⟨positions, rfl⟩
  | cons a args ih =>
      constructor
      · rintro ⟨noted, h⟩
        obtain ⟨positions', hfirst, hrest⟩ := bind_eq_ok h
        obtain ⟨y, name, rfl, hy, hfree, rfl⟩ := notePosition_ok hfirst hlen
        obtain ⟨xs, hvars, hnodup, hxs⟩ := (ih (by simpa using hlen)).mp ⟨noted, hrest⟩
        have hnew : ∀ x ∈ xs, x ≠ y ∧ positions[x]? = some none := by
          intro x hx
          have hset := (hxs x hx).2
          rw [List.getElem?_set] at hset
          split at hset
          · split at hset <;> cases hset
          · next hne => exact ⟨Ne.symm hne, hset⟩
        refine ⟨y :: xs, .cons (by simp [Term.isVar]) hvars, ?_, ?_⟩
        · exact List.nodup_cons.mpr ⟨fun hy' => (hnew y hy').1 rfl, hnodup⟩
        · exact List.forall_mem_cons.mpr ⟨⟨hy, hfree⟩, fun x hx => ⟨(hxs x hx).1, (hnew x hx).2⟩⟩
      · rintro ⟨xs, hvars, hnodup, hxs⟩
        obtain ⟨y, xs, ha, hrest, rfl⟩ := List.forall₂_cons_left_iff.mp hvars
        obtain ⟨name, rfl⟩ := Term.eq_bvar_of_isVar ha
        obtain ⟨hy, hnodup⟩ := List.nodup_cons.mp hnodup
        obtain ⟨⟨hlt, hfree⟩, hxs⟩ := List.forall_mem_cons.mp hxs
        have hstill : ∀ x ∈ xs, x < depth ∧ (positions.set y (some i))[x]? = some none := by
          intro x hx
          rw [List.getElem?_set, if_neg fun heq : y = x => hy (heq ▸ hx)]
          exact hxs x hx
        obtain ⟨noted, hnoted⟩ := (ih (i := i + 1) (by simpa using hlen)).mpr
          ⟨xs, hrest, hnodup, hstill⟩
        exact ⟨noted, by rw [notePositions, notePosition_bvar hlt hfree]; exact hnoted⟩

theorem localPositions_ok_iff {args : List Term} {d : Nat} :
    (∃ positions, localPositions args d = .ok positions) ↔ DistinctVars d args := by
  rw [DistinctVars]
  refine (notePositions_ok_iff (by simp)).trans (exists_congr fun xs => ?_)
  refine and_congr_right fun _ => and_congr_right fun _ => forall₂_congr fun x _ => ?_
  exact ⟨fun h => h.1, fun h => ⟨h, by simp [h]⟩⟩

/-! ## Well-formed patterns -/

/-- Patterns under `d` variables of a pattern: jokers, meta-variables applied to distinct variables
that the pattern binds, abstractions, and symbols or variables applied to patterns. -/
inductive Term.WellFormedAt : Nat → Term → Prop
  | joker {d} : WellFormedAt d .joker
  | unnamed {d args} : WellFormedAt d (.mvar none args)
  | named {d X args} : DistinctVars d args → WellFormedAt d (.mvar (some X) args)
  | abst {d x A p} : WellFormedAt (d + 1) p → WellFormedAt d (.abst x A p)
  | symb {d s ps} : (∀ p ∈ ps, WellFormedAt d p) → WellFormedAt d ((Term.symb s).apply ps)
  | bvar {d n x ps} : (∀ p ∈ ps, WellFormedAt d p) → WellFormedAt d ((Term.bvar n x).apply ps)

theorem PatternAt.wellFormedAt {d : Nat} {p : Term} (h : PatternAt d p) : p.WellFormedAt d := by
  induction h with
  | joker => exact .joker
  | unnamed => exact .unnamed
  | named hpositions => exact .named (localPositions_ok_iff.mp ⟨_, hpositions⟩)
  | abst _ ih => exact .abst ih
  | symb hargs _ ih =>
      rw [Term.eq_apply_of_unapply hargs]
      exact .symb ih
  | bvar hargs _ ih =>
      rw [Term.eq_apply_of_unapply hargs]
      exact .bvar ih

theorem Term.WellFormedAt.patternAt {d : Nat} {p : Term} (h : p.WellFormedAt d) :
    PatternAt d p := by
  induction h with
  | joker => exact .joker
  | unnamed => exact .unnamed
  | named hargs =>
      obtain ⟨positions, hpositions⟩ := localPositions_ok_iff.mpr hargs
      exact .named hpositions
  | abst _ ih => exact .abst ih
  | symb _ ih => exact .symb (Term.unapply_apply rfl _) ih
  | bvar _ ih => exact .bvar (Term.unapply_apply rfl _) ih

theorem Term.wellFormedAt_iff {d : Nat} {p : Term} : p.WellFormedAt d ↔ PatternAt d p :=
  ⟨WellFormedAt.patternAt, PatternAt.wellFormedAt⟩

/-! ## Trees of a signature -/

namespace Signature

variable {P : Rule → Prop} {σ : Signature}

theorem Reachable.exists_treeUpTo (hσ : σ.Reachable P) (s : Symbol) (arity : Nat) :
    ∃ cell, treeUpTo (σ.rulesOf s) arity = .ok cell :=
  LambdaPi.exists_treeUpTo (hσ.coherent s).head (hσ.coherent s).patterns arity

theorem Reachable.treeFor?_ne_error (hσ : σ.Reachable P) (s : Symbol) (nargs arity : Nat)
    (e : TreeError) : σ.treeFor? s nargs ≠ some (arity, .error e) := by
  intro h
  unfold treeFor? at h
  have hcoh := hσ.coherent s
  cases hr : σ.ruleSet? s with
  | none => rw [hr] at h; cases h
  | some r =>
      rw [hr] at h hcoh
      cases hconst : r.constant with
      | true => simp [hconst] at h
      | false =>
          simp only [hconst, Bool.false_eq_true, if_false] at h
          rcases hcoh.trees with ⟨-, hnil⟩ | htrees
          · simp only [Option.getD_some] at hnil
            simp [RuleSet.treeFor?, hnil] at h
          · rw [Option.getD_some] at htrees
            rw [RuleSet.treeFor?_of_treesOf htrees] at h
            obtain ⟨-, herror⟩ := Prod.mk.inj (Option.some.inj h)
            obtain ⟨cell, hcell⟩ :=
              LambdaPi.exists_treeUpTo hcoh.head hcoh.patterns (min nargs (longestArity r.rules))
            cases herror.symm.trans hcell

/-- Consulting always has an answer. -/
theorem exists_consult (σ : Signature) (s : Symbol) (nargs : Nat) :
    ∃ tree?, (σ.consult s nargs).value = some tree? := by
  unfold consult
  split
  · exact ⟨none, rfl⟩
  · next tree _ => exact ⟨tree, rfl⟩
  · exact ⟨none, rfl⟩

/-- A rule that applies to so many arguments is not passed over. -/
theorem Reachable.consult_knows (hσ : σ.Reachable P) {s : Symbol}
    (hconst : σ.isConstant s = false) {rule : Rule} (hrule : rule ∈ σ.rulesOf s) {nargs : Nat}
    (harity : rule.arity ≤ nargs) :
    ∃ tree, (σ.consult s nargs).value = some (some tree) ∧ rule.arity ≤ tree.arity
      ∧ tree.arity ≤ nargs := by
  obtain ⟨tree?, htree⟩ := σ.exists_consult s nargs
  cases tree? with
  | none => exact absurd harity (Nat.not_le.mpr (hσ.consult_none hconst htree rule hrule))
  | some tree =>
      obtain ⟨hle, hknown, -⟩ := hσ.consult_some htree
      exact ⟨tree, htree, hknown rule hrule harity, hle⟩

end Signature

/-- Rules compile exactly if they have one head, at most as many arguments as the tree looks at, and
well-formed patterns. In a signature built by declarations, the rules of a symbol with at most so
many arguments compile for every number of arguments; no failure to compile them is ever met, and a
rule that applies is always among those that are tried. -/
theorem compiles_iff_wellFormed :
    (∀ (rules : List Rule) (arity : Nat), (∃ tree, DecisionTree.compile rules arity = .ok tree)
      ↔ rules ≠ [] ∧ (∀ rule ∈ rules, ∀ other ∈ rules, rule.head = other.head)
        ∧ (∀ rule ∈ rules, rule.arity ≤ arity)
        ∧ ∀ rule ∈ rules, ∀ p ∈ rule.args, p.WellFormedAt 0)
    ∧ ∀ (P : Rule → Prop) (σ : Signature), σ.Reachable P → ∀ (s : Symbol) (nargs : Nat),
      (∃ cell, treeUpTo (σ.rulesOf s) nargs = .ok cell)
      ∧ (∀ arity e, σ.treeFor? s nargs ≠ some (arity, .error e))
      ∧ (σ.isConstant s = false → ∀ rule ∈ σ.rulesOf s, rule.arity ≤ nargs →
        ∃ tree, (σ.consult s nargs).value = some (some tree) ∧ rule.arity ≤ tree.arity
          ∧ tree.arity ≤ nargs) := by
  refine ⟨fun rules arity => ?_, fun P σ hσ s nargs => ⟨?_, ?_, ?_⟩⟩
  · simp only [DecisionTree.compile_ok_iff, Term.wellFormedAt_iff]
  · exact hσ.exists_treeUpTo s nargs
  · exact hσ.treeFor?_ne_error s nargs
  · exact fun hconst rule hrule harity => hσ.consult_knows hconst hrule harity

/-- The rule `f (x => Y[x]) * --> a`. -/
def longRule : Rule :=
  ⟨"long", ⟨"f"⟩, [.abst "x" none (.mvar (some (.named "Y")) [.bvar 0 none]), .joker], .symb ⟨"a"⟩⟩

/-- The rule `f X --> X`. -/
def shortRule : Rule :=
  ⟨"short", ⟨"f"⟩, [.mvar (some (.named "X")) []], .mvar (some (.named "X")) []⟩

/-- A signature with both rules, the longer one first. -/
def graded : Signature where
  entries := [(⟨"f"⟩, ⟨.type, false, false⟩)]
  ruleSets := [(⟨"f"⟩, .ofRules [longRule, shortRule])]

theorem reachable_graded : graded.Reachable fun _ => True := by
  have hdeclared : Signature.Reachable (fun _ => True) { graded with ruleSets := [] } :=
    .declare .empty (show ({} : Signature).declare ⟨"f"⟩ .type false = .ok _ from rfl)
  have hlong : Signature.Reachable (fun _ => True)
      { graded with ruleSets := [(⟨"f"⟩, .ofRules [longRule])] } :=
    .addRule hdeclared trivial (show Signature.addRule _ longRule = _ by cbv)
  exact .addRule hlong trivial (show Signature.addRule _ shortRule = _ by cbv)

theorem compiles_iff_wellFormed_graded :
    (∃ tree, DecisionTree.compile [longRule, shortRule] 2 = .ok tree)
      ∧ (graded.Reachable fun _ => True) ∧ graded.isConstant ⟨"f"⟩ = false
      ∧ (∀ nargs, ∃ cell, treeUpTo (graded.rulesOf ⟨"f"⟩) nargs = .ok cell)
      ∧ ∃ tree, (graded.consult ⟨"f"⟩ 1).value = some (some tree) ∧ shortRule.arity ≤ tree.arity
        ∧ tree.arity ≤ 1 := by
  have hconst : graded.isConstant ⟨"f"⟩ = false := by cbv
  have hlong : ∀ p ∈ longRule.args, p.WellFormedAt 0 :=
    List.forall_mem_cons.mpr ⟨.abst (.named ⟨[0], .cons rfl .nil, by simp, by simp⟩),
      List.forall_mem_singleton.mpr .joker⟩
  have hshort : ∀ p ∈ shortRule.args, p.WellFormedAt 0 :=
    List.forall_mem_singleton.mpr (.named ⟨[], .nil, by simp, by simp⟩)
  obtain ⟨hcompiles, htrees⟩ := compiles_iff_wellFormed
  refine ⟨?_, reachable_graded, hconst, fun nargs => ?_, ?_⟩
  · exact (hcompiles [longRule, shortRule] 2).mpr
      ⟨List.cons_ne_nil _ _, by simp [longRule, shortRule], by simp [longRule, shortRule, Rule.arity],
        List.forall_mem_cons.mpr ⟨hlong, List.forall_mem_singleton.mpr hshort⟩⟩
  · exact (htrees _ graded reachable_graded ⟨"f"⟩ nargs).1
  · exact (htrees _ graded reachable_graded ⟨"f"⟩ 1).2.2 hconst shortRule
      (List.mem_cons_of_mem _ (List.mem_singleton.mpr rfl)) (Nat.le_refl 1)

end LambdaPi
