import LambdaPi.Term.Basic

/-!
# Equality of terms

Two terms are equal when they differ in display names only, where annotations of abstractions are
compared only if both are there and neither is a joker. The comparison goes one layer at a time:
`Term.sameHead` compares the outermost constructors and says which parts remain to be compared, and
`Comparison.allEqual` works through a list of such comparisons, the latest first. Every term is equal
to itself: `Comparison.allEqual_self`.
-/

namespace LambdaPi

/-- Two terms to be compared under `depth` binders. -/
structure Comparison where
  left : Term
  right : Term
  depth : Nat
deriving Repr

namespace Term

/-- Comparisons of two argument lists of one length. -/
def compareArgs (depth : Nat) : List Term → List Term → List Comparison
  | a :: as, b :: bs => ⟨a, b, depth⟩ :: compareArgs depth as bs
  | _, _ => []

/-- The comparison of two annotations, if both say something. -/
def compareAnns (depth : Nat) (A B : Option Term) : List Comparison :=
  match informative? A, informative? B with
  | some A, some B => [⟨A, B, depth⟩]
  | _, _ => []

/-- Compare the outermost constructors of two terms. If they agree, the result lists what remains to
be compared, in the order of the parts. -/
def sameHead (depth : Nat) : Term → Term → Option (List Comparison)
  | kind, kind => some []
  | type, type => some []
  | joker, joker => some []
  | symb s, symb t => if s = t then some [] else none
  | bvar m _, bvar n _ => if m = n then some [] else none
  | appl f a, appl g b => some [⟨f, g, depth⟩, ⟨a, b, depth⟩]
  | prod _ A B, prod _ C D => some [⟨A, C, depth⟩, ⟨B, D, depth + 1⟩]
  | abst _ A t, abst _ B u => some (compareAnns depth A B ++ [⟨t, u, depth + 1⟩])
  | mvar m as, mvar n bs =>
    if m = n ∧ as.length = bs.length then some (compareArgs depth as bs) else none
  | _, _ => none

end Term

namespace Comparison

/-- Size of what stands on the left of some comparisons. -/
def leftSize : List Comparison → Nat
  | [] => 0
  | c :: cs => c.left.size + leftSize cs

theorem leftSize_append (cs ds : List Comparison) :
    leftSize (cs ++ ds) = leftSize cs + leftSize ds := by
  induction cs with
  | nil => simp [leftSize]
  | cons c cs ih => simp only [List.cons_append, leftSize, ih]; omega

theorem leftSize_reverse (cs : List Comparison) : leftSize cs.reverse = leftSize cs := by
  induction cs with
  | nil => rfl
  | cons c cs ih => rw [List.reverse_cons, leftSize_append, ih]; simp only [leftSize]; omega

theorem leftSize_compareArgs (depth : Nat) (as bs : List Term) :
    leftSize (Term.compareArgs depth as bs) ≤ Term.sizeArgs as := by
  induction as generalizing bs with
  | nil => simp [Term.compareArgs, leftSize]
  | cons a as ih =>
    cases bs with
    | nil => simp [Term.compareArgs, leftSize]
    | cons b bs =>
      have := ih bs
      simp only [Term.compareArgs, leftSize, Term.sizeArgs]
      omega

theorem leftSize_compareAnns (depth : Nat) (A B : Option Term) :
    leftSize (Term.compareAnns depth A B) ≤ Term.sizeAnn A := by
  unfold Term.compareAnns
  split
  · next C D hA _ =>
    have := Term.size_le_of_informative? hA
    simpa [leftSize] using this
  · simp [leftSize]

/-- The parts that remain to be compared are smaller than the term they come from. -/
theorem leftSize_sameHead {depth : Nat} {t u : Term} {cs : List Comparison}
    (h : t.sameHead depth u = some cs) : leftSize cs < t.size := by
  unfold Term.sameHead at h
  split at h
  case h_8 x A t y B u =>
    obtain rfl := Option.some.inj h
    have := leftSize_compareAnns depth A B
    rw [leftSize_append]
    simp only [leftSize, Term.size]
    omega
  case h_9 m as n bs =>
    split at h
    · obtain rfl := Option.some.inj h
      have := leftSize_compareArgs depth as bs
      simp only [Term.size]
      omega
    · cases h
  case h_10 => cases h
  all_goals
    try split at h
    all_goals
      cases h
      try simp only [leftSize, Term.size]
      try omega

/-- Do all the comparisons succeed? The latest one is looked at first, and its parts before the
others. -/
def allEqual : List Comparison → Bool
  | [] => true
  | c :: rest =>
    match _h : c.left.sameHead c.depth c.right with
    | none => false
    | some parts => allEqual (parts.reverse ++ rest)
termination_by cs => leftSize cs
decreasing_by
  have := leftSize_sameHead _h
  rw [leftSize_append, leftSize_reverse]
  simp only [leftSize]
  omega

/-! ## Laws of the comparison

The answer does not depend on the order in which comparisons are made, and is settled part by part. -/

theorem allEqual_nil : allEqual [] = true := by
  rw [allEqual]

theorem allEqual_append (cs ds : List Comparison) :
    allEqual (cs ++ ds) = (allEqual cs && allEqual ds) := by
  fun_induction allEqual cs with
  | case1 => rfl
  | case2 c rest h =>
    rw [List.cons_append, allEqual]
    split <;> simp_all
  | case3 c rest parts h ih =>
    rw [List.cons_append, allEqual]
    split <;> simp_all

theorem allEqual_cons (c : Comparison) (cs : List Comparison) :
    allEqual (c :: cs) = (allEqual [c] && allEqual cs) :=
  allEqual_append [c] cs

theorem allEqual_reverse (cs : List Comparison) : allEqual cs.reverse = allEqual cs := by
  induction cs with
  | nil => rfl
  | cons c cs ih =>
    rw [List.reverse_cons, allEqual_append, ih, allEqual_cons c cs, Bool.and_comm]

/-- A comparison succeeds if the outermost constructors agree and all parts are equal. -/
theorem allEqual_singleton (c : Comparison) :
    allEqual [c] = ((c.left.sameHead c.depth c.right).map allEqual).getD false := by
  rw [allEqual]
  split
  · next h => simp [h]
  · next parts h => simp [h, allEqual_reverse]

variable (depth : Nat)

theorem allEqual_symb (s r : Symbol) : allEqual [⟨.symb s, .symb r, depth⟩] = (s == r) := by
  by_cases h : s = r <;> simp [allEqual_singleton, Term.sameHead, h, allEqual_nil]

theorem allEqual_bvar (m n : Nat) (x y : Option String) :
    allEqual [⟨.bvar m x, .bvar n y, depth⟩] = (m == n) := by
  by_cases h : m = n <;> simp [allEqual_singleton, Term.sameHead, h, allEqual_nil]

theorem allEqual_appl (f a g b : Term) :
    allEqual [⟨.appl f a, .appl g b, depth⟩]
      = (allEqual [⟨f, g, depth⟩] && allEqual [⟨a, b, depth⟩]) := by
  rw [allEqual_singleton]
  exact allEqual_append [⟨f, g, depth⟩] [⟨a, b, depth⟩]

theorem allEqual_prod (x y : Option String) (A B C D : Term) :
    allEqual [⟨.prod x A B, .prod y C D, depth⟩]
      = (allEqual [⟨A, C, depth⟩] && allEqual [⟨B, D, depth + 1⟩]) := by
  rw [allEqual_singleton]
  exact allEqual_append [⟨A, C, depth⟩] [⟨B, D, depth + 1⟩]

theorem allEqual_abst (x y : String) (A B : Option Term) (t u : Term) :
    allEqual [⟨.abst x A t, .abst y B u, depth⟩]
      = (allEqual (Term.compareAnns depth A B) && allEqual [⟨t, u, depth + 1⟩]) := by
  rw [allEqual_singleton]
  exact allEqual_append (Term.compareAnns depth A B) [⟨t, u, depth + 1⟩]

theorem allEqual_mvar (m n : Option MetaName) (as bs : List Term) :
    allEqual [⟨.mvar m as, .mvar n bs, depth⟩]
      = (m == n && (as.length == bs.length && allEqual (Term.compareArgs depth as bs))) := by
  by_cases hm : m = n <;> by_cases hl : as.length = bs.length <;>
    simp [allEqual_singleton, Term.sameHead, hm, hl]

theorem allEqual_compareArgs_self (as : List Term)
    (h : ∀ a ∈ as, allEqual [⟨a, a, depth⟩] = true) :
    allEqual (Term.compareArgs depth as as) = true := by
  induction as with
  | nil => exact allEqual_nil
  | cons a as ih =>
    rw [Term.compareArgs, allEqual_cons, h a (List.mem_cons_self ..),
      ih fun b hb => h b (List.mem_cons_of_mem _ hb)]
    rfl

/-- A term equals itself. -/
theorem allEqual_self (t : Term) : allEqual [⟨t, t, depth⟩] = true := by
  induction t generalizing depth with
  | kind | type | joker => simp [allEqual_singleton, Term.sameHead, allEqual_nil]
  | symb s => simp [allEqual_symb]
  | bvar n x => simp [allEqual_bvar]
  | appl f a ihf iha => rw [allEqual_appl, ihf, iha]; rfl
  | prod x A B ihA ihB => rw [allEqual_prod, ihA, ihB]; rfl
  | abst x A t ihA iht =>
    have hA : allEqual (Term.compareAnns depth A A) = true := by
      unfold Term.compareAnns
      split
      · next B C hB hC =>
        obtain rfl : B = C := Option.some.inj (hB.symm.trans hC)
        exact ihA B (Term.eq_some_of_informative? hB) depth
      · exact allEqual_nil
    rw [allEqual_abst, hA, iht]
    rfl
  | mvar m args ih =>
    rw [allEqual_mvar, allEqual_compareArgs_self depth args fun a ha => ih a ha depth]
    simp

end Comparison

end LambdaPi
