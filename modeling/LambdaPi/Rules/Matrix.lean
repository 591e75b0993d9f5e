import LambdaPi.Rules.DecisionTree

/-!
# Compiling rules to decision trees

Rules are compiled by way of a matrix: each rule is a row, each argument a column, and every column
knows how many variables the patterns bind around it. If the first row has a column that is not a
meta-variable, the tree switches on that column: for each shape that occurs there it goes on with the
rows of that shape, and otherwise with the rows that have a meta-variable there. If all columns of
the first row are meta-variables, its rule can be tested, and the other rows come after it.

Compilation ends because each step makes the matrix lighter: a step either drops the first row or
opens one of its patterns, and the rows that are kept never gain weight.
-/

namespace LambdaPi

/-! ## Weights of patterns -/

namespace Term

/-- Weight of a pattern: what there is to look at before only meta-variables are left. -/
def patternWeight : Term → Nat
  | joker => 0
  | mvar _ _ => 0
  | abst _ _ t => t.patternWeight + 1
  | appl f a => f.patternWeight + a.patternWeight + 1
  | _ => 1

/-- Weight of a list of patterns. -/
def patternWeights : List Term → Nat
  | [] => 0
  | t :: ts => t.patternWeight + patternWeights ts

theorem patternWeights_append (ts us : List Term) :
    patternWeights (ts ++ us) = patternWeights ts + patternWeights us := by
  induction ts with
  | nil => simp [patternWeights]
  | cons t ts ih => simp only [List.cons_append, patternWeights, ih]; omega

theorem patternWeights_reverse (ts : List Term) :
    patternWeights ts.reverse = patternWeights ts := by
  induction ts with
  | nil => rfl
  | cons t ts ih =>
    rw [List.reverse_cons, patternWeights_append, ih]
    simp only [patternWeights]
    omega

theorem patternWeights_replicate_joker (n : Nat) :
    patternWeights (List.replicate n joker) = 0 := by
  induction n with
  | zero => rfl
  | succ n ih => simp [List.replicate_succ, patternWeights, patternWeight, ih]

theorem patternWeights_unapplyOnto (t : Term) (rest : List Term) :
    (t.unapplyOnto rest).1.patternWeight + patternWeights (t.unapplyOnto rest).2
      ≤ t.patternWeight + patternWeights rest := by
  induction t generalizing rest with
  | appl f a ihf _ =>
    have := ihf (a :: rest)
    simp only [unapplyOnto, patternWeight, patternWeights] at *
    omega
  | _ => exact Nat.le_refl _

/-- The parts of a pattern weigh less than the pattern. -/
theorem patternWeights_lt_of_shape? {t : Term} {shape : Shape} {parts : List Term}
    (h : t.shape? = some (shape, parts)) : patternWeights parts < t.patternWeight := by
  have hle := patternWeights_unapplyOnto t []
  unfold shape? at h
  split at h
  · cases h
    simp [patternWeights, patternWeight]
  · split at h
    · next s args heq =>
      cases h
      rw [show t.unapplyOnto [] = (.symb s, args) from heq] at hle
      simp only [patternWeight, patternWeights] at hle
      rw [patternWeights_reverse]
      omega
    · next n x args heq =>
      cases h
      rw [show t.unapplyOnto [] = (.bvar n x, args) from heq] at hle
      simp only [patternWeight, patternWeights] at hle
      rw [patternWeights_reverse]
      omega
    · cases h

theorem patternWeights_set_joker (ts : List Term) (j : Nat) :
    patternWeights (ts.set j joker) + (ts.getD j joker).patternWeight = patternWeights ts := by
  induction ts generalizing j with
  | nil => simp [patternWeights, patternWeight]
  | cons t ts ih =>
    cases j with
    | zero => simp [patternWeights, patternWeight]; omega
    | succ j =>
      have := ih j
      simp only [List.set_cons_succ, List.getD_cons_succ, patternWeights] at *
      omega

end Term

/-! ## Rows and matrices -/

/-- A rule with what is left of its patterns, one for each column. -/
structure Row where
  columns : List Term
  rule : Rule

/-- Rows of one length, in the order the rules are tried in, and for each column the number of
variables that the patterns bind around it. -/
structure Matrix where
  rows : List Row
  depths : List Nat

namespace Row

/-- Pattern in a column. -/
def pattern (row : Row) (j : Nat) : Term :=
  row.columns.getD j .joker

/-- First column that is not a meta-variable. -/
def firstRigid? (row : Row) : Option Nat :=
  row.columns.findIdx? (!·.isMeta)

/-- What is left of a row when column `j` is known to have the given shape. A meta-variable does not
look at the parts; a pattern of that shape is replaced by its parts; any other pattern is out. -/
def specialize (j : Nat) (shape : Shape) (row : Row) : Option Row :=
  match (row.pattern j).shape? with
  | none => some { row with columns := row.columns ++ List.replicate shape.width .joker }
  | some (s, parts) =>
    if s = shape then some { row with columns := row.columns.set j .joker ++ parts } else none

/-- The instructions that bind the named meta-variables among the patterns, the first of which stands
in column `i`. -/
def metaTests : Nat → List Term → List Nat → Except TreeError (List MetaTest)
  | i, col :: cols, depth :: depths =>
    match col with
    | .mvar (some name) args => do
      let positions ← (localPositions args depth).mapError .pattern
      let test : MetaTest :=
        { column := i, name, positions, depth, args, anything := isIdentity args depth }
      return test :: (← metaTests (i + 1) cols depths)
    | _ => metaTests (i + 1) cols depths
  | _, _, _ => .ok []

/-- Weight of a row: one more than its patterns. -/
def weight (row : Row) : Nat :=
  Term.patternWeights row.columns + 1

theorem isMeta_pattern_of_firstRigid? {row : Row} {j : Nat} (h : row.firstRigid? = some j) :
    (row.pattern j).isMeta = false := by
  obtain ⟨hlt, hj, -⟩ := List.findIdx?_eq_some_iff_getElem.mp h
  simpa [Row.pattern, List.getD_eq_getElem?_getD, List.getElem?_eq_getElem hlt] using hj

theorem weight_specialize_le {j : Nat} {shape : Shape} {row row' : Row}
    (h : row.specialize j shape = some row') : row'.weight ≤ row.weight := by
  unfold specialize at h
  split at h
  · cases h
    simp [weight, Term.patternWeights_append, Term.patternWeights_replicate_joker]
  · next s parts heq =>
    split at h
    · cases h
      have h1 := Term.patternWeights_lt_of_shape? heq
      have h2 := Term.patternWeights_set_joker row.columns j
      simp only [weight, Term.patternWeights_append, Row.pattern] at *
      omega
    · cases h

theorem weight_specialize_lt {j : Nat} {shape : Shape} {row row' : Row}
    (hs : (row.pattern j).shape? ≠ none) (h : row.specialize j shape = some row') :
    row'.weight < row.weight := by
  unfold specialize at h
  split at h
  · next heq => exact absurd heq hs
  · next s parts heq =>
    split at h
    · cases h
      have h1 := Term.patternWeights_lt_of_shape? heq
      have h2 := Term.patternWeights_set_joker row.columns j
      simp only [weight, Term.patternWeights_append, Row.pattern] at *
      omega
    · cases h

end Row

namespace Matrix

/-- Does every pattern of column `j` that is not a meta-variable have a shape? -/
def checkColumn (j : Nat) : List Row → Except TreeError Unit
  | [] => .ok ()
  | row :: rows =>
    if (row.pattern j).isMeta || (row.pattern j).shape?.isSome then checkColumn j rows
    else .error (.unmatchable (row.pattern j))

theorem shape?_ne_none_of_checkColumn {j : Nat} {first : Row} {rest : List Row}
    (h : checkColumn j (first :: rest) = .ok ()) (hmeta : (first.pattern j).isMeta = false) :
    (first.pattern j).shape? ≠ none := by
  intro hnone
  simp [checkColumn, hmeta, hnone] at h

/-- The shapes that occur in column `j`, each once, in the order of the rows. -/
def shapes (j : Nat) (rows : List Row) : List Shape :=
  (rows.filterMap fun row => (row.pattern j).shape?.map (·.1)).eraseDups

/-- The matrix to go on with when column `j` has the given shape. -/
def specialize (m : Matrix) (j : Nat) (shape : Shape) : Matrix where
  rows := m.rows.filterMap (Row.specialize j shape)
  depths := m.depths ++ List.replicate shape.width (shape.depthInside (m.depths.getD j 0))

/-- The matrix to go on with when column `j` has none of the shapes that occur there. -/
def others (m : Matrix) (j : Nat) : Matrix :=
  { m with rows := m.rows.filter fun row => (row.pattern j).isMeta }

/-- Weight of some rows. -/
def rowsWeight : List Row → Nat
  | [] => 0
  | row :: rows => row.weight + rowsWeight rows

/-- Weight of a matrix. -/
def weight (m : Matrix) : Nat :=
  rowsWeight m.rows

theorem rowsWeight_specialize_le (j : Nat) (shape : Shape) (rows : List Row) :
    rowsWeight (rows.filterMap (Row.specialize j shape)) ≤ rowsWeight rows := by
  induction rows with
  | nil => exact Nat.le_refl _
  | cons row rows ih =>
    rw [List.filterMap_cons]
    split
    · simp only [rowsWeight]; omega
    · next row' h =>
      have := Row.weight_specialize_le h
      simp only [rowsWeight]
      omega

theorem rowsWeight_filter_le (p : Row → Bool) (rows : List Row) :
    rowsWeight (rows.filter p) ≤ rowsWeight rows := by
  induction rows with
  | nil => exact Nat.le_refl _
  | cons row rows ih =>
    rw [List.filter_cons]
    split <;> simp only [rowsWeight] <;> omega

theorem weight_specialize_lt {m : Matrix} {first : Row} {rest : List Row} {j : Nat}
    (hrows : m.rows = first :: rest) (hj : (first.pattern j).shape? ≠ none) (shape : Shape) :
    (m.specialize j shape).weight < m.weight := by
  have hrest := rowsWeight_specialize_le j shape rest
  simp only [weight, specialize, hrows, List.filterMap_cons]
  split
  · simp only [rowsWeight, Row.weight]; omega
  · next row' h =>
    have := Row.weight_specialize_lt hj h
    simp only [rowsWeight]
    omega

theorem weight_others_lt {m : Matrix} {first : Row} {rest : List Row} {j : Nat}
    (hrows : m.rows = first :: rest) (hj : (first.pattern j).isMeta = false) :
    (m.others j).weight < m.weight := by
  have hrest := rowsWeight_filter_le (fun row => (row.pattern j).isMeta) rest
  simp only [weight, others, hrows, List.filter_cons, hj, rowsWeight, Row.weight]
  simp only [Bool.false_eq_true, if_false]
  omega

/-- Compile a matrix. -/
def compile (m : Matrix) : Except TreeError Tree :=
  match _hrows : m.rows with
  | [] => .ok .fail
  | first :: rest =>
    match _hj : first.firstRigid? with
    | none => do
      let tests ← Row.metaTests 0 first.columns m.depths
      let otherwise ← compile { m with rows := rest }
      return .test first.rule tests otherwise
    | some j =>
      match _hcheck : checkColumn j m.rows with
      | .error e => .error e
      | .ok () => do
        let branches ← (shapes j m.rows).mapM fun shape => do
          let tree ← compile (m.specialize j shape)
          return (shape, tree)
        let otherwise ← compile (m.others j)
        return .switch j (Branches.ofList branches) otherwise
termination_by m.weight
decreasing_by
  · simp only [weight, _hrows, rowsWeight, Row.weight]
    omega
  · rw [_hrows] at _hcheck
    exact weight_specialize_lt _hrows
      (shape?_ne_none_of_checkColumn _hcheck (Row.isMeta_pattern_of_firstRigid? _hj)) shape
  · exact weight_others_lt _hrows (Row.isMeta_pattern_of_firstRigid? _hj)

end Matrix

/-! ## Trees of rules -/

namespace DecisionTree

/-- The first row of a rule in a tree for rules of the given head: the arguments beyond those of the
rule do not matter to it. -/
def row (head : Symbol) (arity : Nat) (rule : Rule) : Except TreeError Row :=
  if rule.head ≠ head then .error (.headMismatch rule.head head)
  else if arity < rule.arity then .error (.arityTooSmall rule.name arity)
  else .ok
    { columns := List.replicate (arity - rule.arity) .joker ++ rule.args.reverse, rule := rule }

/-- Compile rules of one head symbol, tried in the given order, to a tree that looks at `arity`
arguments. -/
def compile (rules : List Rule) (arity : Nat) : Except TreeError DecisionTree :=
  match rules with
  | [] => .error .noRules
  | first :: _ => do
    let rows ← rules.mapM (row first.head arity)
    let root ← Matrix.compile { rows, depths := List.replicate arity 0 }
    return { arity, root }

end DecisionTree

end LambdaPi
