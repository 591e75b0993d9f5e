import LambdaPi.Proofs.Places
import LambdaPi.Proofs.Simulation.Results
import LambdaPi.Proofs.WellFormedPatterns
import LambdaPi.Session.Scope

/-!
# Numbering the jokers of a pattern

When a rule is read, each joker of its left-hand side becomes a meta-variable of its own, applied
to all variables bound around it. `Scope.pattern_induct` says how the pattern and the numbers go
together, part by part. From it follows what the numbering does to a term: it leaves no jokers
(`Scope.places_pattern`), uses up the numbers one by one (`Scope.numbers_pattern`), and changes
neither the free variables nor the meta-variables that were there (`Scope.allFree_pattern`,
`Scope.named_pattern`).

Matching looks at less of a pattern than there is: not at annotations, and at the arguments of a
meta-variable only if all of them are variables. `Term.Numbered` relates patterns that differ by
numbered jokers as far as matching looks.
-/

namespace LambdaPi

/-! ## Numbers of meta-variables -/

/-- The number, if the meta-variable has one instead of a name. -/
def MetaName.number? : MetaName → Option Nat
  | named _ => none
  | fresh k => some k

namespace Term

theorem metaVariables_newVariables (d : Nat) : (newVariables d).flatMap metaVariables = [] := by
  simp [newVariables, metaVariables, subterms]

/-- The numbers of the meta-variables of a term, each as often as it occurs. -/
def numbers (t : Term) : List Nat :=
  t.metaNames.filterMap MetaName.number?

theorem numbers_appl (f a : Term) : (appl f a).numbers = f.numbers ++ a.numbers := by
  rw [numbers, metaNames_appl, List.filterMap_append]
  rfl

theorem numbers_prod (x : Option String) (A B : Term) :
    (prod x A B).numbers = A.numbers ++ B.numbers := by
  rw [numbers, metaNames_prod, List.filterMap_append]
  rfl

theorem numbers_abst (x : String) (A : Option Term) (t : Term) :
    (abst x A t).numbers = A.toList.flatMap numbers ++ t.numbers := by
  rw [numbers, metaNames_abst, List.filterMap_append, List.filterMap_flatMap]
  rfl

theorem numbers_mvar (m : Option MetaName) (args : List Term) :
    (mvar m args).numbers = (m.bind MetaName.number?).toList ++ args.flatMap numbers := by
  rw [numbers, metaNames_mvar, List.filterMap_append, List.filterMap_flatMap]
  cases m with
  | none => rfl
  | some X =>
      rw [Option.toList_some, List.filterMap_cons, List.filterMap_nil, Option.bind_some]
      cases X.number? <;> rfl

theorem numbers_newVariables (d : Nat) : (newVariables d).flatMap numbers = [] := by
  simp [newVariables, numbers, metaNames, metaVariables, subterms]

/-- A term that is neither a joker nor made of other terms. -/
def isAtom : Term → Bool
  | kind => true
  | type => true
  | symb _ => true
  | bvar _ _ => true
  | _ => false

end Term

/-- All numbers from `n` up to `l`, in order. -/
def Consecutive (n l : Nat) (ks : List Nat) : Prop :=
  n ≤ l ∧ ks = List.range' n (l - n)

namespace Consecutive

theorem nil (n : Nat) : Consecutive n n [] :=
  ⟨Nat.le_refl n, by simp⟩

theorem singleton (n : Nat) : Consecutive n (n + 1) [n] :=
  ⟨Nat.le_succ n, by simp⟩

theorem append {n m l : Nat} {ks ls : List Nat} (h : Consecutive n m ks)
    (h' : Consecutive m l ls) : Consecutive n l (ks ++ ls) := by
  obtain ⟨hnm, rfl⟩ := h
  obtain ⟨hml, rfl⟩ := h'
  refine ⟨Nat.le_trans hnm hml, ?_⟩
  have hlen : m - n + (l - m) = l - n := by omega
  have hsplit := List.range'_append_1 (s := n) (m := m - n) (n := l - m)
  rwa [Nat.add_sub_cancel' hnm, hlen] at hsplit

end Consecutive

/-! ## One part after the other -/

namespace Scope

/-- Terms are treated one after the other, each from the number on that the one before it left. -/
inductive Threaded (R : Nat → Term → Nat → Term → Prop) : Nat → List Term → Nat → List Term → Prop
  | nil {n} : Threaded R n [] n []
  | cons {n t m t' ts l ts'} : R n t m t' → Threaded R m ts l ts' →
      Threaded R n (t :: ts) l (t' :: ts')

theorem Threaded.forall₂ {R : Nat → Term → Nat → Term → Prop} {S : Term → Term → Prop}
    (hRS : ∀ {n t m t'}, R n t m t' → S t t') {n l : Nat} {ts ts' : List Term}
    (h : Threaded R n ts l ts') : List.Forall₂ S ts ts' := by
  induction h with
  | nil => exact .nil
  | cons ht _ ih => exact .cons (hRS ht) ih

variable {sc : Scope} (hsc : sc.space = "")

include hsc

/-- What holds of the parts of a pattern and the numbers around them holds of the whole. The motive
is about a number of binders, the next number before, a pattern, the next number after it, and the
pattern with its jokers numbered. -/
theorem pattern_induct {motive : Nat → Nat → Term → Nat → Term → Prop}
    (atom : ∀ d n t, t.isAtom = true → motive d n t n t)
    (joker : ∀ d n, motive d n .joker (n + 1) (.mvar (some (.fresh n)) (newVariables d)))
    (appl : ∀ {d n f m f' a l a'}, motive d n f m f' → motive d m a l a' →
      motive d n (.appl f a) l (.appl f' a'))
    (prod : ∀ {d n x A m A' B l B'}, motive d n A m A' → motive (d + 1) m B l B' →
      motive d n (.prod x A B) l (.prod x A' B'))
    (bare : ∀ {d n x A t l t'}, A = none ∨ A = some .joker → motive (d + 1) n t l t' →
      motive d n (.abst x A t) l (.abst x none t'))
    (annotated : ∀ {d n x A m A' t l t'}, motive d n A m A' → motive (d + 1) m t l t' →
      motive d n (.abst x (some A) t) l (.abst x (some A') t'))
    (mvar : ∀ {d n X args l args'}, Threaded (motive d) n args l args' →
      motive d n (.mvar X args) l (.mvar X args'))
    (d n : Nat) (t : Term) :
    motive d n t ((sc.pattern d t).run n).2 ((sc.pattern d t).run n).1 := by
  induction t generalizing d n with
  | kind | type | bvar =>
      simp only [pattern]
      exact atom d n _ rfl
  | symb s =>
      rw [pattern, resolve, if_pos hsc]
      exact atom d n _ rfl
  | joker =>
      rw [pattern]
      exact joker d n
  | appl f a ihf iha =>
      rw [pattern]
      exact appl (ihf d n) (iha d _)
  | prod x A B ihA ihB =>
      rw [pattern]
      exact prod (ihA d n) (ihB (d + 1) _)
  | abst x A t ihA iht =>
      rw [pattern]
      cases A with
      | none =>
          rw [patternAnn]
          exact bare (Or.inl rfl) (iht (d + 1) n)
      | some A =>
          by_cases hA : A = .joker
          · subst hA
            rw [patternAnn]
            exact bare (Or.inr rfl) (iht (d + 1) n)
          · rw [patternAnn]
            · exact annotated (ihA A rfl d n) (iht (d + 1) _)
            · exact hA
  | mvar X args ih =>
      have hargs : ∀ n, Threaded (motive d) n args ((sc.patterns d args).run n).2
          ((sc.patterns d args).run n).1 := by
        induction args with
        | nil =>
            intro n
            rw [patterns]
            exact .nil
        | cons a args ihargs =>
            intro n
            rw [patterns]
            refine .cons (ih a (List.mem_cons_self ..) d n) ?_
            exact ihargs (fun b hb => ih b (List.mem_cons_of_mem _ hb)) _
      rw [pattern]
      exact mvar (hargs n)

/-! ## What the numbering does -/

/-- The numbers are used up one by one, each for one meta-variable. -/
theorem numbers_pattern (d n : Nat) (t : Term) (ht : t.numbers = []) :
    Consecutive n ((sc.pattern d t).run n).2 ((sc.pattern d t).run n).1.numbers := by
  revert ht
  refine sc.pattern_induct hsc (motive := fun _ n t l t' => t.numbers = [] →
    Consecutive n l t'.numbers) ?atom ?joker ?appl ?prod ?bare ?annotated ?mvar d n t
  case atom =>
    intro d n t _ ht
    rw [ht]
    exact .nil n
  case joker =>
    intro d n _
    rw [Term.numbers_mvar, Term.numbers_newVariables]
    exact .singleton n
  case appl =>
    intro d n f m f' a l a' hf ha ht
    rw [Term.numbers_appl, List.append_eq_nil_iff] at ht
    rw [Term.numbers_appl]
    exact (hf ht.1).append (ha ht.2)
  case prod =>
    intro d n x A m A' B l B' hA hB ht
    rw [Term.numbers_prod, List.append_eq_nil_iff] at ht
    rw [Term.numbers_prod]
    exact (hA ht.1).append (hB ht.2)
  case bare =>
    intro d n x A t l t' _ hbody ht
    rw [Term.numbers_abst, List.append_eq_nil_iff] at ht
    rw [Term.numbers_abst]
    exact hbody ht.2
  case annotated =>
    intro d n x A m A' t l t' hA hbody ht
    rw [Term.numbers_abst, List.append_eq_nil_iff] at ht
    rw [Term.numbers_abst, Option.toList_some, List.flatMap_singleton]
    exact (hA (by simpa using ht.1)).append (hbody ht.2)
  case mvar =>
    intro d n X args l args' hargs ht
    rw [Term.numbers_mvar, List.append_eq_nil_iff] at ht
    rw [Term.numbers_mvar, ht.1, List.nil_append]
    replace ht := ht.2
    induction hargs with
    | nil => exact .nil _
    | cons ha _ ih =>
        rw [List.flatMap_cons, List.append_eq_nil_iff] at ht
        exact (ha ht.1).append (ih ht.2)

/-- Meta-variables that have a name stay as they are. -/
theorem named_pattern (d n : Nat) (t : Term) (X : String) (k : Nat) :
    (some (.named X), k) ∈ ((sc.pattern d t).run n).1.metaVariables
      ↔ (some (.named X), k) ∈ t.metaVariables := by
  refine sc.pattern_induct hsc (motive := fun _ _ t _ t' =>
    (some (.named X), k) ∈ t'.metaVariables ↔ (some (.named X), k) ∈ t.metaVariables)
    ?atom ?joker ?appl ?prod ?bare ?annotated ?mvar d n t
  case atom => exact fun _ _ _ _ => Iff.rfl
  case joker =>
    intro d n
    rw [Term.metaVariables_mvar, Term.metaVariables_newVariables]
    simp [Term.metaVariables, Term.subterms]
  case appl =>
    intro d n f m f' a l a' hf ha
    rw [Term.metaVariables_appl, Term.metaVariables_appl, List.mem_append, List.mem_append, hf, ha]
  case prod =>
    intro d n x A m A' B l B' hA hB
    rw [Term.metaVariables_prod, Term.metaVariables_prod, List.mem_append, List.mem_append, hA, hB]
  case bare =>
    intro d n x A t l t' hA hbody
    rw [Term.metaVariables_abst, Term.metaVariables_abst, List.mem_append, List.mem_append, hbody]
    rcases hA with rfl | rfl <;> simp [Term.metaVariables, Term.subterms]
  case annotated =>
    intro d n x A m A' t l t' hA hbody
    rw [Term.metaVariables_abst, Term.metaVariables_abst, List.mem_append, List.mem_append, hbody]
    simp [hA]
  case mvar =>
    intro d n Y args l args' hargs
    replace hargs := hargs.forall₂ (S := fun a a' =>
      (some (MetaName.named X), k) ∈ a'.metaVariables
        ↔ (some (MetaName.named X), k) ∈ a.metaVariables) id
    rw [Term.metaVariables_mvar, Term.metaVariables_mvar, List.mem_cons, List.mem_cons,
      hargs.length_eq]
    refine or_congr_right ?_
    induction hargs with
    | nil => rfl
    | cons ha _ ih =>
        rw [List.flatMap_cons, List.flatMap_cons, List.mem_append, List.mem_append, ha, ih]

/-- A joker stands for any term under the binders around it, and so does what it becomes. -/
theorem allFree_pattern (ok : Nat → Bool) (d n : Nat) (t : Term) :
    ((sc.pattern d t).run n).1.allFree ok d = t.allFree ok d := by
  refine sc.pattern_induct hsc (motive := fun d _ t _ t' => t'.allFree ok d = t.allFree ok d)
    ?atom ?joker ?appl ?prod ?bare ?annotated ?mvar d n t
  case atom => exact fun _ _ _ _ => rfl
  case joker =>
    intro d n
    simp only [Term.allFree, Term.allFreeArgs_iff, newVariables, List.mem_map, List.mem_range]
    rintro _ ⟨i, hi, rfl⟩
    simp [Term.allFree, hi]
  case appl =>
    intro d n f m f' a l a' hf ha
    rw [Term.allFree, Term.allFree, hf, ha]
  case prod =>
    intro d n x A m A' B l B' hA hB
    rw [Term.allFree, Term.allFree, hA, hB]
  case bare =>
    intro d n x A t l t' hA hbody
    rw [Term.allFree, Term.allFree, hbody]
    rcases hA with rfl | rfl <;> rfl
  case annotated =>
    intro d n x A m A' t l t' hA hbody
    rw [Term.allFree, Term.allFree, hbody, Term.allFreeAnn, Term.allFreeAnn, hA]
  case mvar =>
    intro d n Y args l args' hargs
    rw [Term.allFree, Term.allFree]
    induction hargs with
    | nil => rfl
    | cons ha _ ih => rw [Term.allFreeArgs, Term.allFreeArgs, ha, ih]

/-- No joker is left, and a numbered meta-variable is applied to all variables bound around it. -/
theorem places_pattern (d n : Nat) (t : Term) (ht : t.numbers = []) :
    ∀ p ∈ ((sc.pattern d t).run n).1.places d, p.2 ≠ .joker
      ∧ ∀ k args, p.2 = .mvar (some (.fresh k)) args → args = newVariables p.1 := by
  revert ht
  refine sc.pattern_induct hsc (motive := fun d _ t _ t' => t.numbers = [] →
    ∀ p ∈ t'.places d, p.2 ≠ .joker
      ∧ ∀ k args, p.2 = .mvar (some (.fresh k)) args → args = newVariables p.1)
    ?atom ?joker ?appl ?prod ?bare ?annotated ?mvar d n t
  case atom =>
    intro d n t hatom _
    cases t with
    | kind | type | symb | bvar => simp [Term.places]
    | _ => cases hatom
  case joker =>
    intro d n _
    rw [Term.forall_places_mvar]
    constructor
    · simp
    · intro a ha
      obtain ⟨i, -, rfl⟩ := List.mem_map.mp ha
      simp [Term.places]
  case appl =>
    intro d n f m f' a l a' hf ha ht
    rw [Term.numbers_appl, List.append_eq_nil_iff] at ht
    exact Term.forall_places_appl.mpr ⟨by simp, hf ht.1, ha ht.2⟩
  case prod =>
    intro d n x A m A' B l B' hA hB ht
    rw [Term.numbers_prod, List.append_eq_nil_iff] at ht
    exact Term.forall_places_prod.mpr ⟨by simp, hA ht.1, hB ht.2⟩
  case bare =>
    intro d n x A t l t' _ hbody ht
    rw [Term.numbers_abst, List.append_eq_nil_iff] at ht
    exact Term.forall_places_abst.mpr ⟨by simp, by simp, hbody ht.2⟩
  case annotated =>
    intro d n x A m A' t l t' hA hbody ht
    rw [Term.numbers_abst, List.append_eq_nil_iff] at ht
    refine Term.forall_places_abst.mpr ⟨by simp, ?_, hbody ht.2⟩
    rintro _ ⟨⟩
    exact hA (by simpa using ht.1)
  case mvar =>
    intro d n X args l args' hargs ht
    rw [Term.numbers_mvar, List.append_eq_nil_iff] at ht
    refine Term.forall_places_mvar.mpr ⟨⟨by simp, ?_⟩, ?_⟩
    · rintro k _ ⟨rfl, rfl⟩
      simp [MetaName.number?] at ht
    · replace ht := ht.2
      induction hargs with
      | nil => simp
      | cons ha _ ih =>
          rw [List.flatMap_cons, List.append_eq_nil_iff] at ht
          exact List.forall_mem_cons.mpr ⟨ha ht.1, ih ht.2⟩

end Scope

/-! ## New variables as arguments -/

theorem countsFrom_range' (i n : Nat) :
    countsFrom i ((List.range' i n).map fun j => .bvar j none) = true := by
  induction n generalizing i with
  | zero => rfl
  | succ n ih =>
      rw [List.range'_succ, List.map_cons, countsFrom, ih, Bool.and_true]
      simp [Term.isVar]

theorem isIdentity_newVariables (d : Nat) : isIdentity (newVariables d) d = true := by
  rw [isIdentity, newVariables, List.range_eq_range', countsFrom_range']
  simp

theorem localPositions_newVariables (d : Nat) :
    ∃ positions, localPositions (newVariables d) d = .ok positions := by
  refine localPositions_ok_iff.mpr ⟨List.range d, ?_, List.nodup_range, by simp⟩
  rw [newVariables, List.forall₂_map_left_iff]
  exact List.forall₂_same.mpr fun i _ => by simp [Term.isVar]

/-! ## Patterns as far as matching looks -/

/-- Patterns under `d` binders, the second of which is the first with some jokers numbered, wherever
matching looks. -/
inductive Term.Numbered : Nat → Term → Term → Prop
  | same {d p} : Numbered d p p
  | joker {d k} : Numbered d .joker (.mvar (some (.fresh k)) (newVariables d))
  | appl {d f f' a a'} : Numbered d f f' → Numbered d a a' →
      Numbered d (.appl f a) (.appl f' a')
  | prod {d x A A' B B'} : Numbered d (.prod x A B) (.prod x A' B')
  | abst {d x A A' t t'} : Numbered (d + 1) t t' → Numbered d (.abst x A t) (.abst x A' t')
  /-- arguments that matching can deal with are the same -/
  | mvar {d X args args'} :
      ((∃ positions, localPositions args d = .ok positions)
        ∨ (∃ positions, localPositions args' d = .ok positions) → args' = args) →
      Numbered d (.mvar X args) (.mvar X args')

namespace Term.Numbered

variable {d : Nat} {p p' : Term}

/-- A variable is not changed. -/
theorem eq_of_isVar (h : Numbered d p p') {n : Nat} (hn : p.isVar n = true ∨ p'.isVar n = true) :
    p' = p := by
  cases h with
  | same => rfl
  | _ => rcases hn with hn | hn <;> cases hn

theorem eq_of_vars {ps ps' : List Term} (h : List.Forall₂ (Numbered d) ps ps') {xs : List Nat}
    (hxs : List.Forall₂ (fun p x => p.isVar x = true) ps xs
      ∨ List.Forall₂ (fun p x => p.isVar x = true) ps' xs) : ps' = ps := by
  induction h generalizing xs with
  | nil => rfl
  | cons hp _ ih =>
      rcases hxs with hxs | hxs
      · obtain ⟨x, xs, hx, hrest, rfl⟩ := List.forall₂_cons_left_iff.mp hxs
        rw [hp.eq_of_isVar (Or.inl hx), ih (Or.inl hrest)]
      · obtain ⟨x, xs, hx, hrest, rfl⟩ := List.forall₂_cons_left_iff.mp hxs
        rw [hp.eq_of_isVar (Or.inr hx), ih (Or.inr hrest)]

/-- Arguments that matching can deal with are variables. -/
theorem of_args {X : Option MetaName} {args args' : List Term}
    (h : List.Forall₂ (Numbered d) args args') : Numbered d (.mvar X args) (.mvar X args') := by
  refine .mvar fun hlocal => ?_
  rw [localPositions_ok_iff, localPositions_ok_iff] at hlocal
  rcases hlocal with ⟨xs, hxs, -⟩ | ⟨xs, hxs, -⟩
  · exact eq_of_vars h (Or.inl hxs)
  · exact eq_of_vars h (Or.inr hxs)

theorem isMeta (h : Numbered d p p') : p'.isMeta = p.isMeta := by
  cases h <;> rfl

/-- A meta-variable is left alone or takes the place of a joker, unless matching skips both. -/
theorem meta_cases (h : Numbered d p p') (hp : p.isMeta = true)
    (hlocal : ∀ X args, p = .mvar (some X) args →
      ∃ positions, localPositions args d = .ok positions) :
    ((∀ X args, p ≠ .mvar (some X) args) ∧ ∀ X args, p' ≠ .mvar (some X) args)
      ∨ (∃ X args, p = .mvar (some X) args ∧ p' = .mvar (some X) args)
      ∨ (p = .joker ∧ ∃ k, p' = .mvar (some (.fresh k)) (newVariables d)) := by
  cases h with
  | same =>
      by_cases hX : ∃ X args, p = .mvar (some X) args
      · obtain ⟨X, args, rfl⟩ := hX
        exact Or.inr (Or.inl ⟨X, args, rfl, rfl⟩)
      · have hskip := fun X args heq => hX ⟨X, args, heq⟩
        exact Or.inl ⟨hskip, hskip⟩
  | joker => exact Or.inr (Or.inr ⟨rfl, _, rfl⟩)
  | @mvar _ m args args' hargs =>
      cases m with
      | none => exact Or.inl (by simp)
      | some X =>
          obtain rfl := hargs (Or.inl (hlocal X args rfl))
          exact Or.inr (Or.inl ⟨X, _, rfl, rfl⟩)
  | appl | prod | abst => cases hp

theorem forall₂_same (ps : List Term) : List.Forall₂ (Numbered d) ps ps :=
  List.forall₂_same.mpr fun _ _ => .same

theorem unapplyOnto (h : Numbered d p p') {rest rest' : List Term}
    (hrest : List.Forall₂ (Numbered d) rest rest') :
    Numbered d (p.unapplyOnto rest).1 (p'.unapplyOnto rest').1
      ∧ List.Forall₂ (Numbered d) (p.unapplyOnto rest).2 (p'.unapplyOnto rest').2 := by
  induction h generalizing rest rest' with
  | @same d p =>
      induction p generalizing rest rest' with
      | appl f a ihf => exact ihf (.cons .same hrest)
      | _ => exact ⟨.same, hrest⟩
  | appl _ ha ihf _ => exact ihf (.cons ha hrest)
  | joker => exact ⟨.joker, hrest⟩
  | prod => exact ⟨.prod, hrest⟩
  | abst ht => exact ⟨.abst ht, hrest⟩
  | mvar hargs => exact ⟨.mvar hargs, hrest⟩

theorem unapply (h : Numbered d p p') :
    Numbered d p.unapply.1 p'.unapply.1 ∧ List.Forall₂ (Numbered d) p.unapply.2 p'.unapply.2 :=
  h.unapplyOnto .nil

theorem unapply_symb (h : Numbered d p p') (s : Symbol) :
    p.unapply.1 = .symb s ↔ p'.unapply.1 = .symb s := by
  have hhead := h.unapply.1
  generalize p.unapply.1 = f, p'.unapply.1 = f' at hhead
  cases hhead <;> simp

/-- Both have the same shape, and their parts are related. -/
theorem shape? (h : Numbered d p p') :
    Option.Rel (fun s s' => s'.1 = s.1 ∧ List.Forall₂ (Numbered (s.1.depthInside d)) s.2 s'.2)
      p.shape? p'.shape? := by
  obtain ⟨hhead, hargs⟩ := h.unapply
  cases h with
  | same =>
      cases p.shape? with
      | none => exact .none
      | some s => exact .some ⟨rfl, forall₂_same s.2⟩
  | joker | prod | mvar => exact .none
  | abst ht => exact .some ⟨rfl, .cons ht .nil⟩
  | @appl _ f f' a a' hf ha =>
      unfold Term.shape?
      generalize (Term.appl f a).unapply = s, (Term.appl f' a').unapply = s' at hhead hargs
      obtain ⟨head, args⟩ := s
      obtain ⟨head', args'⟩ := s'
      dsimp only at hhead hargs ⊢
      cases hhead with
      | same =>
          cases head with
          | symb s =>
              dsimp only
              rw [hargs.length_eq]
              exact .some ⟨rfl, List.rel_reverse hargs⟩
          | bvar n x =>
              dsimp only
              rw [hargs.length_eq]
              exact .some ⟨rfl, List.rel_reverse hargs⟩
          | _ => exact .none
      | _ => exact .none

section

variable {shape : Shape} {parts : List Term}

theorem parts_right (h : Numbered d p p') (hp : p.shape? = some (shape, parts)) :
    ∃ parts', p'.shape? = some (shape, parts')
      ∧ List.Forall₂ (Numbered (shape.depthInside d)) parts parts' := by
  have hshape := h.shape?
  rw [hp] at hshape
  generalize p'.shape? = found at hshape
  cases hshape with
  | @some _ s' hs =>
      obtain ⟨_, parts'⟩ := s'
      obtain ⟨rfl, hparts⟩ := hs
      exact ⟨parts', rfl, hparts⟩

theorem parts_left (h : Numbered d p p') (hp' : p'.shape? = some (shape, parts)) :
    ∃ parts', p.shape? = some (shape, parts')
      ∧ List.Forall₂ (Numbered (shape.depthInside d)) parts' parts := by
  have hshape := h.shape?
  rw [hp'] at hshape
  generalize p.shape? = found at hshape
  cases hshape with
  | @some s _ hs =>
      obtain ⟨_, parts'⟩ := s
      obtain ⟨rfl, hparts⟩ := hs
      exact ⟨parts', rfl, hparts⟩

theorem patternAt_right (h : Numbered d p p') (hp : p.shape? = some (shape, parts))
    (hparts : ∀ q ∈ parts, ∀ {q'}, Numbered (shape.depthInside d) q q' →
      PatternAt (shape.depthInside d) q') : PatternAt d p' := by
  obtain ⟨parts', hp', hall⟩ := h.parts_right hp
  refine .of_shape hp' fun q' hq' => ?_
  obtain ⟨q, hq, hqq'⟩ := forall₂_exists_right hall.flip hq'
  exact hparts q hq hqq'

theorem patternAt_left (h : Numbered d p p') (hp' : p'.shape? = some (shape, parts))
    (hparts : ∀ q' ∈ parts, ∀ {q}, Numbered (shape.depthInside d) q q' →
      PatternAt (shape.depthInside d) q) : PatternAt d p := by
  obtain ⟨parts', hp, hall⟩ := h.parts_left hp'
  refine .of_shape hp fun q hq => ?_
  obtain ⟨q', hq', hqq'⟩ := forall₂_exists_right hall hq
  exact hparts q' hq' hqq'

end

/-- Matching can deal with both or with neither. -/
theorem patternAt_iff (h : Numbered d p p') : PatternAt d p ↔ PatternAt d p' := by
  constructor
  · intro hp
    induction hp generalizing p' with
    | joker =>
        cases h with
        | same => exact .joker
        | joker =>
            obtain ⟨positions, hpositions⟩ := localPositions_newVariables _
            exact .named hpositions
    | unnamed => cases h <;> exact .unnamed
    | named hpositions =>
        cases h with
        | same => exact .named hpositions
        | mvar hargs =>
            obtain rfl := hargs (Or.inl ⟨_, hpositions⟩)
            exact .named hpositions
    | abst _ ih => exact h.patternAt_right rfl (List.forall_mem_singleton.mpr ih)
    | symb hargs _ ih =>
        exact h.patternAt_right (Term.shape?_of_symb hargs) fun q hq =>
          ih q (List.mem_reverse.mp hq)
    | bvar hargs _ ih =>
        exact h.patternAt_right (Term.shape?_of_bvar hargs) fun q hq =>
          ih q (List.mem_reverse.mp hq)
  · intro hp'
    induction hp' generalizing p with
    | joker => cases h; exact .joker
    | unnamed => cases h <;> exact .unnamed
    | named hpositions =>
        cases h with
        | same => exact .named hpositions
        | joker => exact .joker
        | mvar hargs =>
            obtain rfl := hargs (Or.inr ⟨_, hpositions⟩)
            exact .named hpositions
    | abst _ ih => exact h.patternAt_left rfl (List.forall_mem_singleton.mpr ih)
    | symb hargs _ ih =>
        exact h.patternAt_left (Term.shape?_of_symb hargs) fun q hq =>
          ih q (List.mem_reverse.mp hq)
    | bvar hargs _ ih =>
        exact h.patternAt_left (Term.shape?_of_bvar hargs) fun q hq =>
          ih q (List.mem_reverse.mp hq)

end Term.Numbered

/-- The numbering changes no more than that. -/
theorem Scope.numbered_pattern {sc : Scope} (hsc : sc.space = "") (d n : Nat) (t : Term) :
    Term.Numbered d t ((sc.pattern d t).run n).1 := by
  refine sc.pattern_induct hsc (motive := fun d _ t _ t' => Term.Numbered d t t')
    ?atom ?joker ?appl ?prod ?bare ?annotated ?mvar d n t
  case atom => exact fun _ _ _ _ => .same
  case joker => exact fun _ _ => .joker
  case appl => exact .appl
  case prod => exact fun _ _ => .prod
  case bare => exact fun _ => .abst
  case annotated => exact fun _ => .abst
  case mvar =>
    intro d n X args l args' hargs
    exact .of_args (hargs.forall₂ (S := Term.Numbered d) id)

end LambdaPi
