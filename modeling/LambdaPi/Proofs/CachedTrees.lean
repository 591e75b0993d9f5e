import Mathlib
import LambdaPi.Proofs.FailedInstructions
import LambdaPi.Proofs.WellFormedPatterns

/-!
# Keeping decision trees

A tree is compiled when it is first asked for and kept in a cell until a rule is added to its symbol.
`Cells` is such a store with its policy spelled out: a cell that is asked for gives what it holds, or
is filled with the tree compiled afresh; a rule that is added drops the cells of its head symbol and
fills the one for its own number of arguments; nothing else touches a cell, least of all an addition
that fails.

`Performed` follows changes of a signature and uses of its trees in any order, next to the store. The
store is what a session shows of its trees, and it never holds anything but what compiling afresh
gives (`Performed.mirrors`). So it cannot be seen from the answers which trees were asked for before.
-/

namespace LambdaPi

/-! ## Trees compiled afresh -/

/-- The tree of the rules with at most `arity` arguments. -/
def freshTree (rules : List Rule) (arity : Nat) : Option DecisionTree :=
  (treeUpTo rules arity).toOption.getD none

theorem longestArity_concat (rules : List Rule) (rule : Rule) :
    longestArity (rules ++ [rule]) = max (longestArity rules) rule.arity := by
  simp [longestArity, List.foldl_append]

theorem exists_arity_eq_longestArity {rules : List Rule} (h : rules ≠ []) :
    ∃ rule ∈ rules, rule.arity = longestArity rules := by
  induction rules using List.reverseRecOn with
  | nil => exact absurd rfl h
  | append_singleton rules rule ih =>
      rw [longestArity_concat]
      by_cases hnil : rules = []
      · subst hnil
        exact ⟨rule, List.mem_singleton_self rule, (Nat.zero_max _).symm⟩
      · rcases Nat.le_total (longestArity rules) rule.arity with hle | hle
        · refine ⟨rule, List.mem_append_right _ (List.mem_singleton_self rule), ?_⟩
          exact (Nat.max_eq_right hle).symm
        · obtain ⟨r, hr, hlong⟩ := ih hnil
          refine ⟨r, List.mem_append_left _ hr, ?_⟩
          rw [hlong, Nat.max_eq_left hle]

namespace Signature

variable {P : Rule → Prop} {σ σ' : Signature}

theorem Reachable.treeUpTo_eq (hσ : σ.Reachable P) (s : Symbol) (arity : Nat) :
    treeUpTo (σ.rulesOf s) arity = .ok (freshTree (σ.rulesOf s) arity) := by
  obtain ⟨cell, hcell⟩ := hσ.exists_treeUpTo s arity
  rw [freshTree, hcell]
  rfl

theorem ruleSet_of_addRule {rule : Rule} (h : σ.addRule rule = .ok σ') (s : Symbol) :
    σ'.rulesOf s = (if s = rule.head then σ.rulesOf s ++ [rule] else σ.rulesOf s) ∧
      σ'.trees s = if s = rule.head then treesOf (σ.rulesOf s ++ [rule]) else σ.trees s := by
  unfold addRule at h
  split at h
  · split at h
    · cases h
    · next set hset =>
      obtain rfl := Except.ok.inj h
      obtain ⟨rfl, -⟩ := RuleSet.addRule_ok hset
      unfold rulesOf trees
      rw [ruleSet?_enter]
      split
      · next hs =>
        subst hs
        exact ⟨rfl, rfl⟩
      · exact ⟨rfl, rfl⟩
  · cases h

theorem trees_declareConstant (σ : Signature) (s t : Symbol) :
    (σ.declareConstant s).trees t = σ.trees t := by
  unfold trees declareConstant
  rw [ruleSet?_enter]
  split
  · next hts =>
    rw [hts]
    rfl
  · rfl

theorem trees_declareInjective (σ : Signature) (s t : Symbol) :
    (σ.declareInjective s).trees t = σ.trees t := by
  unfold trees declareInjective
  rw [ruleSet?_enter]
  split
  · next hts =>
    rw [hts]
    rfl
  · rfl

theorem trees_of_declare {s : Symbol} {A : Term} {obligation : Bool}
    (h : σ.declare s A obligation = .ok σ') (t : Symbol) : σ'.trees t = σ.trees t := by
  unfold declare at h
  split at h
  · cases h
  · obtain rfl := Except.ok.inj h
    rfl

theorem trees_of_setProven {s : Symbol} (h : σ.setProven s = .ok σ') (t : Symbol) :
    σ'.trees t = σ.trees t := by
  unfold setProven at h
  split at h
  · cases h
  · obtain rfl := Except.ok.inj h
    rfl

theorem freshTree_eq_none_iff (hσ : σ.Reachable P) (s : Symbol) (arity : Nat) :
    freshTree (σ.rulesOf s) arity = none ↔ ∀ rule ∈ σ.rulesOf s, arity < rule.arity := by
  have hnil : (σ.rulesOf s).filter (·.arity ≤ arity) = [] ↔
      ∀ rule ∈ σ.rulesOf s, arity < rule.arity := by
    simp [List.filter_eq_nil_iff]
  rw [← hnil]
  constructor
  · intro h
    have htree := hσ.treeUpTo_eq s arity
    rw [h] at htree
    exact filter_eq_nil_of_treeUpTo htree
  · intro h
    rw [freshTree, treeUpTo, h]
    rfl

/-- A symbol has trees exactly if it has rules, and then they are those of its rules. -/
theorem Reachable.trees_eq (hσ : σ.Reachable P) (s : Symbol) :
    σ.trees s = if σ.rulesOf s = [] then [] else treesOf (σ.rulesOf s) := by
  induction hσ with
  | empty => rfl
  | eta _ _ ih => exact ih
  | declare _ hdecl ih => rw [trees_of_declare hdecl, rulesOf_of_declare hdecl, ih]
  | setProven _ hset ih => rw [trees_of_setProven hset, rulesOf_of_setProven hset, ih]
  | declareConstant _ _ ih => rw [trees_declareConstant, rulesOf_declareConstant, ih]
  | declareInjective _ _ ih => rw [trees_declareInjective, rulesOf_declareInjective, ih]
  | addRule _ _ hadd ih =>
      obtain ⟨hrules, htrees⟩ := ruleSet_of_addRule hadd s
      rw [hrules, htrees]
      split
      · rw [if_neg (by simp)]
      · exact ih

end Signature

/-! ## Cells -/

/-- The trees of symbols that are kept, from no arguments on: `none` for one that was not compiled
yet. -/
abbrev Cells := Symbol → List (Option (Option DecisionTree))

namespace Cells

/-- What a cell gives when it is asked for: what it holds, or else the tree compiled afresh. -/
def ask (cells : Cells) (σ : Signature) (s : Symbol) (arity : Nat) : Option DecisionTree :=
  ((cells s)[arity]?.join).getD (freshTree (σ.rulesOf s) arity)

/-- A cell that is asked for is filled. -/
def fill (cells : Cells) (σ : Signature) (s : Symbol) (arity : Nat) : Cells :=
  Function.update cells s ((cells s).set arity (some (cells.ask σ s arity)))

/-- The tree for a symbol applied to `nargs` arguments. -/
def treeFor (cells : Cells) (σ : Signature) (s : Symbol) (nargs : Nat) : Option DecisionTree :=
  if σ.isConstant s = true ∨ cells s = [] then none
  else cells.ask σ s (min nargs ((cells s).length - 1))

/-- The use of a tree fills its cell; other events do not concern the cells. -/
def observe (σ : Signature) (cells : Cells) : Event → Cells
  | .consult s arity _ => cells.fill σ s arity
  | _ => cells

/-- When a rule is added, the cells of its head symbol are dropped, except for the one that had to be
compiled. -/
def ruleAdded (cells : Cells) (rules : List Rule) (rule : Rule) : Cells :=
  Function.update cells rule.head
    ((List.replicate (longestArity rules + 1) none).set rule.arity
      (some (freshTree rules rule.arity)))

end Cells

/-- The cells for some rules, of which those in use hold the tree compiled afresh. -/
def freshCells (rules : List Rule) (used : Nat → Bool) : List (Option (Option DecisionTree)) :=
  if rules = [] then []
  else (List.range (longestArity rules + 1)).map fun arity =>
    if used arity then some (freshTree rules arity) else none

section

variable {rules : List Rule} {used : Nat → Bool}

theorem freshCells_eq_nil_iff : freshCells rules used = [] ↔ rules = [] := by
  unfold freshCells
  split <;> simp [*]

theorem length_freshCells (h : rules ≠ []) :
    (freshCells rules used).length = longestArity rules + 1 := by
  simp [freshCells, h]

theorem freshCells_getElem? (hrules : rules ≠ []) {arity : Nat}
    (harity : arity ≤ longestArity rules) :
    (freshCells rules used)[arity]? =
      some (if used arity then some (freshTree rules arity) else none) := by
  rw [freshCells, if_neg hrules, List.getElem?_map,
    List.getElem?_range (Nat.lt_succ_of_le harity)]
  rfl

/-- A cell that holds something holds the tree compiled afresh. -/
theorem eq_of_freshCells_getElem? {arity : Nat} {tree? : Option DecisionTree}
    (h : (freshCells rules used)[arity]? = some (some tree?)) : tree? = freshTree rules arity := by
  by_cases hrules : rules = []
  · rw [freshCells, if_pos hrules] at h
    cases h
  · have hlt := (List.getElem?_eq_some_iff.1 h).1
    rw [length_freshCells hrules] at hlt
    rw [freshCells_getElem? hrules (Nat.le_of_lt_succ hlt)] at h
    split at h
    · exact (Option.some.inj (Option.some.inj h)).symm
    · cases Option.some.inj h

theorem freshCells_set (arity : Nat) :
    (freshCells rules used).set arity (some (freshTree rules arity)) =
      freshCells rules fun i => decide (i = arity) || used i := by
  by_cases hrules : rules = []
  · simp [freshCells, hrules]
  · refine List.ext_getElem? fun i => ?_
    by_cases hi : i ≤ longestArity rules
    · rw [List.getElem?_set, length_freshCells hrules, freshCells_getElem? hrules hi,
        freshCells_getElem? hrules hi]
      by_cases hia : arity = i
      · subst hia
        simp [Nat.lt_succ_of_le hi]
      · simp [hia, Ne.symm hia]
    · rw [List.getElem?_eq_none, List.getElem?_eq_none]
      · rw [length_freshCells hrules]
        omega
      · rw [List.length_set, length_freshCells hrules]
        omega

theorem replicate_eq_freshCells (h : rules ≠ []) :
    List.replicate (longestArity rules + 1) none = freshCells rules fun _ => false := by
  rw [freshCells, if_neg h]
  refine List.ext_getElem (by simp) fun i _ _ => ?_
  simp

end

/-! ## The store and the session -/

/-- The cells are those that a session shows. -/
def Cells.Mirrors (cells : Cells) (j : Journal) (σ : Signature) : Prop :=
  ∀ s, cells s = j.forest σ s

variable {P : Rule → Prop} {σ σ' : Signature} {j : Journal} {cells : Cells}

/-- A session shows the trees compiled afresh that were used. -/
theorem Signature.Reachable.forest_eq (hσ : σ.Reachable P) (j : Journal) (s : Symbol) :
    j.forest σ s = freshCells (σ.rulesOf s) fun arity => decide ((s, arity) ∈ j.consulted) := by
  unfold Journal.forest freshCells
  rw [hσ.trees_eq]
  split
  · rfl
  · refine List.ext_getElem (by simp [treesOf]) fun i _ _ => ?_
    simp [treesOf, freshTree, Thunk.get]

theorem Journal.consulted_foldl_write (records : List Record) (j : Journal) :
    (records.foldl write j).consulted = j.consulted := by
  induction records generalizing j with
  | nil => rfl
  | cons r records ih =>
      rw [List.foldl_cons, ih, write]
      split <;> rfl

theorem Journal.mem_consulted_observe {s t : Symbol} {arity i : Nat} {failure : Option TreeError} :
    (t, i) ∈ (j.observe (.consult s arity failure)).consulted ↔
      (t, i) = (s, arity) ∨ (t, i) ∈ j.consulted := by
  unfold observe
  dsimp only
  split
  · next hold =>
    constructor
    · exact .inr
    · rintro (heq | hmem)
      · exact heq ▸ hold
      · exact hmem
  · exact List.mem_cons

theorem Journal.consulted_observe_of_ne {e : Event}
    (h : ∀ s arity failure, e ≠ .consult s arity failure) :
    (j.observe e).consulted = j.consulted := by
  unfold observe
  split
  · exact absurd rfl (h _ _ _)
  · exact consulted_foldl_write ..

namespace Cells

theorem Mirrors.ask_eq (h : cells.Mirrors j σ) (hσ : σ.Reachable P) (s : Symbol) (arity : Nat) :
    cells.ask σ s arity = freshTree (σ.rulesOf s) arity := by
  unfold ask
  rw [h s, hσ.forest_eq]
  cases hcell : (freshCells (σ.rulesOf s) fun i => decide ((s, i) ∈ j.consulted))[arity]?.join with
  | none => rfl
  | some tree? => exact eq_of_freshCells_getElem? (Option.join_eq_some_iff.1 hcell)

/-- One event. -/
theorem Mirrors.observe (h : cells.Mirrors j σ) (hσ : σ.Reachable P) (e : Event) :
    (cells.observe σ e).Mirrors (j.observe e) σ := by
  intro t
  rw [hσ.forest_eq]
  by_cases he : ∃ s arity failure, e = .consult s arity failure
  · obtain ⟨s, arity, failure, rfl⟩ := he
    simp only [Cells.observe, fill, h.ask_eq hσ, Journal.mem_consulted_observe]
    by_cases hts : t = s
    · subst hts
      rw [Function.update_self, h t, hσ.forest_eq, freshCells_set]
      simp
    · rw [Function.update_of_ne hts, h t, hσ.forest_eq]
      simp [hts]
  · have hobserve : cells.observe σ e = cells := by
      cases e <;> first | rfl | exact absurd ⟨_, _, _, rfl⟩ he
    rw [hobserve, h t, hσ.forest_eq, Journal.consulted_observe_of_ne]
    exact fun s arity failure hs => he ⟨s, arity, failure, hs⟩

/-- All events of a trace, one after the other. -/
theorem Mirrors.absorb (h : cells.Mirrors j σ) (hσ : σ.Reachable P) (t : Trace) :
    (t.foldl (Cells.observe σ) cells).Mirrors (j.absorb t) σ := by
  induction t generalizing cells j with
  | nothing => exact h
  | event e => exact h.observe hσ e
  | andThen t u iht ihu => exact ihu (iht h)

theorem Mirrors.ruleAdded (h : cells.Mirrors j σ) (hσ : σ.Reachable P) (hσ' : σ'.Reachable P)
    {rule : Rule} (hrule : σ.addRule rule = .ok σ') :
    (cells.ruleAdded (σ.rulesOf rule.head ++ [rule]) rule).Mirrors (j.ruleAdded rule) σ' := by
  intro t
  obtain ⟨hrules, -⟩ := Signature.ruleSet_of_addRule hrule t
  rw [hσ'.forest_eq, hrules, Cells.ruleAdded, Journal.ruleAdded]
  by_cases ht : t = rule.head
  · subst ht
    rw [Function.update_self, if_pos rfl, replicate_eq_freshCells (by simp), freshCells_set]
    simp
  · rw [Function.update_of_ne ht, if_neg ht, h t, hσ.forest_eq]
    simp [ht]

/-- What leaves rules and trees alone leaves the cells alone. -/
theorem Mirrors.of_trees (h : cells.Mirrors j σ) (htrees : ∀ s, σ'.trees s = σ.trees s) :
    cells.Mirrors j σ' := by
  intro s
  rw [h s, Journal.forest, Journal.forest, htrees]

end Cells

/-! ## Operations in any order -/

/-- Changes of a signature. -/
inductive Change where
  | declare (s : Symbol) (A : Term) (obligation : Bool)
  | addRule (rule : Rule)
  | declareConstant (s : Symbol)
  | declareInjective (s : Symbol)
  | setProven (s : Symbol)

/-- Uses of trees: one is asked for, a rule is fired, or a term is reduced. -/
inductive LookUp where
  | tree (s : Symbol) (nargs : Nat)
  | fire (budget : Nat) (s : Symbol) (args : List Term)
  | whnf (budget : Nat) (t : Term)

/-- Something done to a signature or with its trees. -/
inductive Operation where
  | change (c : Change)
  | lookUp (l : LookUp)

/-- What a change makes of a signature. -/
def Change.apply (σ : Signature) : Change → Except SignatureError Signature
  | declare s A obligation => σ.declare s A obligation
  | addRule rule => σ.addRule rule
  | declareConstant s => .ok (σ.declareConstant s)
  | declareInjective s => .ok (σ.declareInjective s)
  | setProven s => σ.setProven s

/-- Carry out a change. -/
def Change.attempt : Change → Attempt Error Unit
  | addRule rule => Attempt.addRule rule
  | c => Attempt.change c.apply

/-- What a change that ends well leaves in the journal. -/
def Change.note (j : Journal) : Change → Journal
  | addRule rule => j.ruleAdded rule
  | _ => j

/-- What a use of trees computes. -/
def LookUp.traced (σ : Signature) : LookUp → Traced Unit
  | tree s nargs => do let _ ← σ.consult s nargs
  | fire budget s args => do let _ ← σ.fire budget s args
  | whnf budget t => do let _ ← σ.whnf budget t

namespace Operation

/-- Carry out an operation. -/
def attempt : Operation → Attempt Error Unit
  | change c => c.attempt
  | lookUp l => do
    let σ ← Run.signature
    Attempt.compute (l.traced σ)

/-- What becomes of the cells, depending on whether the operation ended well. -/
def store (op : Operation) (σ : Signature) (r : Except Error Unit) (cells : Cells) : Cells :=
  match op, r with
  | change (.addRule rule), .ok () => cells.ruleAdded (σ.rulesOf rule.head ++ [rule]) rule
  | change _, _ => cells
  | lookUp l, _ => (l.traced σ).trace.foldl (Cells.observe σ) cells

/-- The change that an operation makes, if it makes one. -/
def change? : Operation → Option Change
  | change c => some c
  | lookUp _ => none

end Operation

open Attempt

/-- Operations were carried out one after the other, ending well or not. -/
inductive Performed (eta : Bool) : List Operation → RunState → Cells → Prop
  | nil : Performed eta [] { session := { signature := { eta } } } fun _ => []
  | snoc {ops op w r w' cells} : Performed eta ops w cells → Ends op.attempt w r w' →
      Performed eta (ops ++ [op]) w' (op.store w.session.signature r cells)

variable {w w' : RunState} {r : Except Error Unit}

theorem Change.reachable {c : Change} (hσ : σ.Reachable fun _ => True) (h : c.apply σ = .ok σ') :
    σ'.Reachable fun _ => True := by
  cases c with
  | declare s A obligation => exact hσ.declare h
  | addRule rule => exact hσ.addRule trivial h
  | declareConstant s =>
      obtain rfl := Except.ok.inj h
      exact hσ.declareConstant s
  | declareInjective s =>
      obtain rfl := Except.ok.inj h
      exact hσ.declareInjective s
  | setProven s => exact hσ.setProven h

/-- A change ends well and gives the signature it should, or it fails and nothing happens. -/
theorem Change.attempt_cases {c : Change} (h : Ends c.attempt w r w') :
    (r = .ok () ∧ c.apply w.session.signature = .ok w'.session.signature ∧
      w'.journal = c.note w.journal) ∨
    ∃ e, r = .error e ∧ w' = w ∧ (c.apply w.session.signature).toOption = none := by
  have hchange : ∀ {f r w'}, Ends (Attempt.change f) w r w' →
      (r = .ok () ∧ f w.session.signature = .ok w'.session.signature ∧ w'.journal = w.journal) ∨
      ∃ e, r = .error e ∧ w' = w ∧ (f w.session.signature).toOption = none := by
    intro f r w' h
    have h := ends_bind_signature.1 h
    split at h
    · next σ hf =>
      obtain ⟨rfl, rfl⟩ := ends_modify.1 h
      exact .inl ⟨rfl, hf, rfl⟩
    · next e hf =>
      obtain ⟨rfl, rfl⟩ := ends_throw.1 h
      exact .inr ⟨_, rfl, rfl, by rw [hf]; rfl⟩
  cases c with
  | addRule rule =>
      rcases ends_bind.1 h with ⟨_, w₁, h₁, h₂⟩ | ⟨e, h₁, rfl⟩
      · obtain ⟨rfl, rfl⟩ := ends_modify.1 h₂
        rcases hchange h₁ with ⟨-, hσ, hj⟩ | ⟨e, he, -⟩
        · exact .inl ⟨rfl, hσ, congrArg (·.ruleAdded rule) hj⟩
        · cases he
      · rcases hchange h₁ with ⟨he, -⟩ | ⟨e', he, hw, hfails⟩
        · cases he
        · exact .inr ⟨e, rfl, hw, hfails⟩
  | declare | declareConstant | declareInjective | setProven =>
      exact hchange (f := fun σ => Change.apply σ _) h

theorem ends_lookUp {l : LookUp} (h : Ends (Operation.lookUp l).attempt w r w') :
    w'.session = w.session ∧
      w'.journal = w.journal.absorb (l.traced w.session.signature).trace := by
  obtain ⟨a, -, hrun⟩ := ends_lift.1 (ends_bind_signature.1 h)
  obtain ⟨_, w₁, h₁, hvalue⟩ := Run.ends_bind hrun
  cases h₁
  split at hvalue
  · cases hvalue
    exact ⟨rfl, rfl⟩
  · cases hvalue

/-- A change that ends well leaves the cells as the store does. -/
theorem Change.mirrors {c : Change} (hσ : σ.Reachable fun _ => True) (h : cells.Mirrors j σ)
    (hc : c.apply σ = .ok σ') :
    ((Operation.change c).store σ (.ok ()) cells).Mirrors (c.note j) σ' := by
  cases c with
  | declare s A obligation => exact h.of_trees (Signature.trees_of_declare hc)
  | addRule rule => exact h.ruleAdded hσ (hσ.addRule trivial hc) hc
  | declareConstant s =>
      obtain rfl := Except.ok.inj hc
      exact h.of_trees (σ.trees_declareConstant s)
  | declareInjective s =>
      obtain rfl := Except.ok.inj hc
      exact h.of_trees (σ.trees_declareInjective s)
  | setProven s => exact h.of_trees (Signature.trees_of_setProven hc)

/-- One operation: the store goes on showing what the session shows, and only changes that end well
make a difference to the signature. -/
theorem Operation.step {op : Operation} (hσ : w.session.signature.Reachable fun _ => True)
    (h : cells.Mirrors w.journal w.session.signature) (hop : Ends op.attempt w r w') :
    (w'.session.signature.Reachable fun _ => True) ∧
      (op.store w.session.signature r cells).Mirrors w'.journal w'.session.signature ∧
      w'.session.signature = op.change?.elim w.session.signature fun c =>
        (c.apply w.session.signature).toOption.getD w.session.signature := by
  cases op with
  | lookUp l =>
      obtain ⟨hsession, hjournal⟩ := ends_lookUp hop
      rw [hsession, hjournal]
      exact ⟨hσ, h.absorb hσ _, rfl⟩
  | change c =>
      rcases c.attempt_cases hop with ⟨rfl, hc, hjournal⟩ | ⟨e, rfl, rfl, hfails⟩
      · rw [hjournal]
        refine ⟨c.reachable hσ hc, c.mirrors hσ h hc, ?_⟩
        simp [change?, hc, Except.toOption]
      · refine ⟨hσ, ?_, ?_⟩
        · cases c <;> exact h
        · simp [change?, hfails]

/-- Whatever was done, in whatever order. -/
theorem Performed.mirrors {eta : Bool} {ops : List Operation} (h : Performed eta ops w cells) :
    (w.session.signature.Reachable fun _ => True) ∧
      cells.Mirrors w.journal w.session.signature ∧
      w.session.signature = (ops.filterMap Operation.change?).foldl
        (fun σ c => (c.apply σ).toOption.getD σ) { eta } := by
  induction h with
  | nil => exact ⟨.eta eta .empty, fun s => rfl, rfl⟩
  | @snoc ops op w r w' cells _ hop ih =>
      obtain ⟨hσ, hcells, hsignature⟩ := ih
      obtain ⟨hσ', hcells', hsignature'⟩ := op.step hσ hcells hop
      refine ⟨hσ', hcells', ?_⟩
      rw [hsignature', List.filterMap_append, List.foldl_append, ← hsignature]
      cases op <;> rfl

/-! ## What is asked for -/

theorem freshTree_nil (arity : Nat) : freshTree [] arity = none :=
  rfl

theorem Signature.Reachable.consult_eq (hσ : σ.Reachable P) (s : Symbol) (nargs : Nat) :
    (σ.consult s nargs).value = some (if σ.isConstant s = true then none
      else freshTree (σ.rulesOf s) (min nargs (longestArity (σ.rulesOf s)))) := by
  have htrees := hσ.trees_eq s
  have hfresh := hσ.treeUpTo_eq s (min nargs (longestArity (σ.rulesOf s)))
  unfold consult treeFor?
  unfold isConstant rulesOf trees at *
  cases hr : σ.ruleSet? s with
  | none => rfl
  | some r =>
      rw [hr] at htrees hfresh
      simp only [Option.getD_some] at htrees hfresh ⊢
      cases hconst : r.constant with
      | true => rfl
      | false =>
          simp only [Bool.false_eq_true, if_false]
          by_cases hrules : r.rules = []
          · rw [if_pos hrules] at htrees
            simp [RuleSet.treeFor?, htrees, hrules, freshTree_nil]
          · rw [if_neg hrules] at htrees
            rw [RuleSet.treeFor?_of_treesOf htrees, hfresh]
            rfl

theorem Cells.Mirrors.treeFor_eq (h : cells.Mirrors j σ) (hσ : σ.Reachable P) (s : Symbol)
    (nargs : Nat) :
    cells.treeFor σ s nargs = if σ.isConstant s = true then none
      else freshTree (σ.rulesOf s) (min nargs (longestArity (σ.rulesOf s))) := by
  have hs : cells s = freshCells _ _ := (h s).trans (hσ.forest_eq j s)
  have hnil : cells s = [] ↔ σ.rulesOf s = [] := by rw [hs, freshCells_eq_nil_iff]
  unfold treeFor
  rw [h.ask_eq hσ]
  by_cases hconst : σ.isConstant s = true
  · rw [if_pos (.inl hconst), if_pos hconst]
  · rw [if_neg hconst]
    by_cases hrules : σ.rulesOf s = []
    · rw [if_pos (.inr (hnil.2 hrules)), hrules, freshTree_nil]
    · rw [if_neg (not_or.2 ⟨hconst, fun h => hrules (hnil.1 h)⟩), hs, length_freshCells hrules,
        Nat.add_sub_cancel]

/-- However changes and uses of trees are interleaved: a symbol has cells exactly if it has rules,
one for each number of arguments up to that of its longest rule; a cell that is filled holds the tree
compiled afresh from the rules with at most so many arguments, in the order of their additions; and
the tree for a number of arguments is the one compiled afresh, cut at the longest rule, or none for a
constant. The cells are those that the session shows. Which trees were used before makes no
difference to the signature or to any tree. -/
theorem caching_unobservable {eta : Bool} {ops : List Operation} (h : Performed eta ops w cells)
    (s : Symbol) :
    (cells s = [] ↔ w.session.signature.rulesOf s = []) ∧
    (w.session.signature.rulesOf s ≠ [] →
      (cells s).length = longestArity (w.session.signature.rulesOf s) + 1 ∧
      IsGreatest { n | ∃ rule ∈ w.session.signature.rulesOf s, rule.arity = n }
        (longestArity (w.session.signature.rulesOf s))) ∧
    (∀ i tree?, (cells s)[i]? = some (some tree?) →
      treeUpTo (w.session.signature.rulesOf s) i = .ok tree?) ∧
    (∀ nargs, ∃ tree?, cells.treeFor w.session.signature s nargs = tree? ∧
      (w.session.signature.consult s nargs).value = some tree? ∧
      (w.session.signature.isConstant s = true → tree? = none) ∧
      (w.session.signature.isConstant s = false →
        treeUpTo (w.session.signature.rulesOf s)
          (min nargs (longestArity (w.session.signature.rulesOf s))) = .ok tree? ∧
        (tree? = none ↔ ∀ rule ∈ w.session.signature.rulesOf s, nargs < rule.arity))) ∧
    cells s = w.journal.forest w.session.signature s ∧
    ∀ ops' w' cells', Performed eta ops' w' cells' →
      ops'.filterMap Operation.change? = ops.filterMap Operation.change? →
      w'.session.signature = w.session.signature ∧
      ∀ nargs, cells'.treeFor w'.session.signature s nargs =
        cells.treeFor w.session.signature s nargs := by
  obtain ⟨hσ, hcells, hsignature⟩ := h.mirrors
  have hs : cells s = freshCells _ _ := (hcells s).trans (hσ.forest_eq _ s)
  refine ⟨?_, ?_, ?_, ?_, hcells s, ?_⟩
  · rw [hs, freshCells_eq_nil_iff]
  · intro hrules
    rw [hs, length_freshCells hrules]
    refine ⟨rfl, exists_arity_eq_longestArity hrules, ?_⟩
    rintro n ⟨rule, hrule, rfl⟩
    exact arity_le_longestArity hrule
  · intro i tree? hi
    rw [hs] at hi
    rw [hσ.treeUpTo_eq, eq_of_freshCells_getElem? hi]
  · intro nargs
    refine ⟨_, hcells.treeFor_eq hσ s nargs, hσ.consult_eq s nargs, ?_, ?_⟩
    · intro hconst
      rw [if_pos hconst]
    · intro hconst
      rw [hconst, if_neg Bool.false_ne_true, Signature.freshTree_eq_none_iff hσ]
      refine ⟨hσ.treeUpTo_eq s _, ?_⟩
      refine forall₂_congr fun rule hrule => ?_
      have hle := arity_le_longestArity hrule
      omega
  · intro ops' w' cells' h' hsame
    obtain ⟨hσ', hcells', hsignature'⟩ := h'.mirrors
    have heq : w'.session.signature = w.session.signature := by
      rw [hsignature', hsignature, hsame]
    refine ⟨heq, fun nargs => ?_⟩
    rw [hcells'.treeFor_eq hσ', hcells.treeFor_eq hσ, heq]

/-! ## Two ways to the same trees -/

/-- Carry out operations one after the other, keeping cells. -/
def perform (eta : Bool) (ops : List Operation) : Option (RunState × Cells) :=
  ops.foldl (fun state op => do
    let (w, cells) ← state
    match op.attempt.run.run w with
    | .ok (r, w') => some (w', op.store w.session.signature r cells)
    | .error _ => none) (some ({ session := { signature := { eta } } }, fun _ => []))

theorem performed_of_perform {eta : Bool} {ops : List Operation}
    (h : perform eta ops = some (w, cells)) : Performed eta ops w cells := by
  induction ops using List.reverseRecOn generalizing w cells with
  | nil =>
      obtain ⟨rfl, rfl⟩ := Prod.mk.inj (Option.some.inj h)
      exact .nil
  | append_singleton ops op ih =>
      rw [perform, List.foldl_append] at h
      obtain ⟨⟨w₁, cells₁⟩, hbefore, h⟩ := Option.bind_eq_some_iff.1 h
      dsimp only at h
      split at h
      · next hop =>
        obtain ⟨rfl, rfl⟩ := Prod.mk.inj (Option.some.inj h)
        exact .snoc (ih hbefore) hop
      · cases h

/-- The rule `f Type --> a`, for which no tree can be compiled. -/
def sortRule : Rule :=
  ⟨"sort", ⟨"f"⟩, [.type], .symb ⟨"a"⟩⟩

/-- A symbol gets two rules, and a third one that fails. -/
def gradedChanges : List Operation :=
  [.change (.declare ⟨"f"⟩ .type false), .change (.addRule longRule), .change (.addRule shortRule),
   .change (.addRule sortRule), .change (.declareInjective ⟨"f"⟩)]

/-- The same changes, with trees being used in between. -/
def gradedUses : List Operation :=
  [.change (.declare ⟨"f"⟩ .type false), .lookUp (.tree ⟨"f"⟩ 1), .change (.addRule longRule),
   .lookUp (.tree ⟨"f"⟩ 0), .lookUp (.fire 9 ⟨"f"⟩ [.type, .type]), .change (.addRule shortRule),
   .lookUp (.whnf 9 (.appl (.symb ⟨"f"⟩) .type)), .change (.addRule sortRule),
   .lookUp (.tree ⟨"f"⟩ 7), .change (.declareInjective ⟨"f"⟩)]

theorem caching_unobservable_graded :
    ∃ w w' cells cells', Performed false gradedChanges w cells ∧
      Performed false gradedUses w' cells' ∧
      (cells ⟨"f"⟩).map Option.isSome = [false, true, false] ∧
      (cells' ⟨"f"⟩).map Option.isSome = [false, true, true] ∧
      w'.session.signature = w.session.signature ∧
      ∀ nargs, cells'.treeFor w'.session.signature ⟨"f"⟩ nargs =
        cells.treeFor w.session.signature ⟨"f"⟩ nargs := by
  have hchanges : (perform false gradedChanges).map (fun state =>
      (state.2 ⟨"f"⟩).map Option.isSome) = some [false, true, false] := by cbv
  have huses : (perform false gradedUses).map (fun state =>
      (state.2 ⟨"f"⟩).map Option.isSome) = some [false, true, true] := by cbv
  obtain ⟨⟨w, cells⟩, hw, hcells⟩ := Option.map_eq_some_iff.1 hchanges
  obtain ⟨⟨w', cells'⟩, hw', hcells'⟩ := Option.map_eq_some_iff.1 huses
  have h := performed_of_perform hw
  have h' := performed_of_perform hw'
  obtain ⟨-, -, -, -, -, hsame⟩ := caching_unobservable h ⟨"f"⟩
  obtain ⟨hsignature, htrees⟩ := hsame _ w' cells' h' rfl
  exact ⟨w, w', cells, cells', h, h', hcells, hcells', hsignature, htrees⟩

end LambdaPi
