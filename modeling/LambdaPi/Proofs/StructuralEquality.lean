import Mathlib
import LambdaPi.Proofs.ConversionSymmetric
import LambdaPi.Proofs.LazyConversion
import LambdaPi.Proofs.SubstitutionLaws

/-!
# What equality of terms decides

Equality of terms is worked out by a loop over a stack of comparisons that are still to be made.
Here it is compared with a relation that is given by recursion on terms, `Term.Equal`: the same
constructors, symbols, variables, meta-variables and numbers of arguments, whatever the names, where
annotations of abstractions are compared only if both are there and neither is a joker.

A round of the loop (`Comparison.Round`) splits the latest comparison into parts, or drops it if
both of its terms are stored in one place. Whether all comparisons on the stack hold is not changed
by a round, and the terms that stand on the left of the stack become smaller. So the loop ends, and
its answer is whether the comparison it began with holds, whichever terms happen to be shared.

The relation is reflexive and symmetric, and it goes along with shifting and substitution. It is not
transitive, as an abstraction without an annotation is equal to abstractions with different ones. It
is so where all abstractions of the term in the middle have an annotation (`Term.Equal.trans`).
-/

namespace LambdaPi

/-! ## The relation -/

namespace Term

/-- The terms are equal up to names, and up to annotations that only one of them has. -/
inductive Equal : Term → Term → Prop
  | kind : Equal kind kind
  | type : Equal type type
  | symb {s} : Equal (symb s) (symb s)
  | bvar {n x y} : Equal (bvar n x) (bvar n y)
  | joker : Equal joker joker
  | appl {f g a b} : Equal f g → Equal a b → Equal (appl f a) (appl g b)
  | prod {x y A B C D} : Equal A C → Equal B D → Equal (prod x A B) (prod y C D)
  | abst {x y A B t u} :
      (∀ C D, A = some C → B = some D → C ≠ joker → D ≠ joker → Equal C D) → Equal t u →
      Equal (abst x A t) (abst y B u)
  | mvar {m as bs} : List.Forall₂ Equal as bs → Equal (mvar m as) (mvar m bs)

/-- The annotations are equal, if both are there and neither is a joker. -/
def AnnsEqual (A B : Option Term) : Prop :=
  ∀ C D, A = some C → B = some D → C ≠ joker → D ≠ joker → C.Equal D

/-! ## One comparison -/

theorem forall_mem_compareAnns (depth : Nat) (A B : Option Term) :
    (∀ c ∈ compareAnns depth A B, c.left.Equal c.right) ↔ AnnsEqual A B := by
  have hanns : AnnsEqual A B
      ↔ ∀ C D, informative? A = some C → informative? B = some D → C.Equal D := by
    simp only [AnnsEqual, informative?_eq_some_iff]
    exact ⟨fun h C D hC hD => h C D hC.1 hD.1 hC.2 hD.2,
      fun h C D hA hB hC hD => h C D ⟨hA, hC⟩ ⟨hB, hD⟩⟩
  rw [hanns, compareAnns]
  cases informative? A <;> cases informative? B <;> simp

theorem forall_mem_compareArgs (depth : Nat) {as bs : List Term} (h : as.length = bs.length) :
    (∀ c ∈ compareArgs depth as bs, c.left.Equal c.right) ↔ List.Forall₂ Equal as bs := by
  induction as generalizing bs with
  | nil =>
      obtain rfl := List.length_eq_zero_iff.1 h.symm
      simp [compareArgs]
  | cons a as ih =>
      cases bs with
      | nil => cases h
      | cons b bs =>
          rw [compareArgs, List.forall_mem_cons, List.forall₂_cons, ih (Nat.succ.inj h)]

/-- Terms are equal exactly if their outermost constructors agree and all that remains to be
compared is equal. -/
theorem equal_iff_sameHead (depth : Nat) {t u : Term} :
    t.Equal u ↔ ∃ parts, t.sameHead depth u = some parts ∧ ∀ c ∈ parts, c.left.Equal c.right := by
  constructor
  · intro h
    cases h with
    | kind | type | joker => exact ⟨[], rfl, by simp⟩
    | symb => exact ⟨[], if_pos rfl, by simp⟩
    | bvar => exact ⟨[], if_pos rfl, by simp⟩
    | appl hf ha => exact ⟨_, rfl, by simp [hf, ha]⟩
    | prod hA hB => exact ⟨_, rfl, by simp [hA, hB]⟩
    | abst hann ht =>
        refine ⟨_, rfl, List.forall_mem_append.2 ⟨?_, List.forall_mem_singleton.2 ht⟩⟩
        exact (forall_mem_compareAnns depth _ _).2 hann
    | mvar hargs =>
        have hlen := hargs.length_eq
        exact ⟨_, if_pos ⟨rfl, hlen⟩, (forall_mem_compareArgs depth hlen).2 hargs⟩
  · rintro ⟨parts, h, hparts⟩
    unfold sameHead at h
    split at h
    case h_1 => exact .kind
    case h_2 => exact .type
    case h_3 => exact .joker
    case h_4 s r =>
      split at h
      · next hs => exact hs ▸ .symb
      · cases h
    case h_5 m _ n _ =>
      split at h
      · next hn => exact hn ▸ .bvar
      · cases h
    case h_6 f a g b =>
      obtain rfl := Option.some.inj h
      exact .appl (hparts ⟨f, g, depth⟩ (by simp)) (hparts ⟨a, b, depth⟩ (by simp))
    case h_7 x A B y C D =>
      obtain rfl := Option.some.inj h
      exact .prod (hparts ⟨A, C, depth⟩ (by simp)) (hparts ⟨B, D, depth + 1⟩ (by simp))
    case h_8 x A t y B u =>
      obtain rfl := Option.some.inj h
      obtain ⟨hann, ht⟩ := List.forall_mem_append.1 hparts
      exact .abst ((forall_mem_compareAnns depth A B).1 hann) (ht _ (List.mem_singleton_self _))
    case h_9 =>
      split at h
      · next hmvar =>
        obtain rfl := Option.some.inj h
        obtain ⟨rfl, hlen⟩ := hmvar
        exact .mvar ((forall_mem_compareArgs depth hlen).1 hparts)
      · cases h
    case h_10 => cases h

theorem Equal.refl (t : Term) : t.Equal t := by
  induction t with
  | kind => exact .kind
  | type => exact .type
  | symb s => exact .symb
  | bvar n x => exact .bvar
  | joker => exact .joker
  | appl f a ihf iha => exact .appl ihf iha
  | prod x A B ihA ihB => exact .prod ihA ihB
  | abst x A t ihA iht =>
      refine .abst (fun C D hC hD _ _ => ?_) iht
      obtain rfl := Option.some.inj (hC.symm.trans hD)
      exact ihA C hC
  | mvar m args ih => exact .mvar (List.forall₂_same.2 ih)

end Term

/-! ## The loop -/

namespace Comparison

/-- One round of the loop over the stack, the latest comparison first: it is split into its parts if
the outermost constructors agree, and it is dropped if both terms are stored in one place. -/
inductive Round : List Comparison → List Comparison → Prop
  | split {c parts rest} : c.left.sameHead c.depth c.right = some parts →
      Round (c :: rest) (parts.reverse ++ rest)
  | shared {c rest} : c.left = c.right → Round (c :: rest) rest

/-- The answers that the loop may give, begun with some comparisons: yes if none is left, and no if
it meets terms whose outermost constructors differ. -/
inductive Returns : List Comparison → Bool → Prop
  | done : Returns [] true
  | differ {c rest} : c.left.sameHead c.depth c.right = none → Returns (c :: rest) false
  | round {cs ds answer} : Round cs ds → Returns ds answer → Returns cs answer

/-- All comparisons on the stack hold. -/
def AllHold (cs : List Comparison) : Prop :=
  ∀ c ∈ cs, c.left.Equal c.right

variable {cs ds : List Comparison}

/-- A round does not change whether the comparisons hold. -/
theorem Round.allHold_iff (h : Round cs ds) : AllHold cs ↔ AllHold ds := by
  cases h with
  | @split c parts rest hparts =>
      have hc : c.left.Equal c.right ↔ AllHold parts := by
        rw [Term.equal_iff_sameHead c.depth, hparts]
        simp [AllHold]
      simp only [AllHold, List.forall_mem_cons, List.forall_mem_append, List.mem_reverse, hc]
  | @shared c rest hc =>
      simp only [AllHold, List.forall_mem_cons, hc, Term.Equal.refl, true_and]

/-- In a round the terms that stand on the left lose at least a constructor. -/
theorem Round.leftSize_lt (h : Round cs ds) : leftSize ds < leftSize cs := by
  cases h with
  | @split c parts rest hparts =>
      have hlt := leftSize_sameHead hparts
      rw [leftSize_append, leftSize_reverse, leftSize]
      omega
  | @shared c rest _ =>
      have hpos := c.left.size_pos
      rw [leftSize]
      omega

/-- The loop cannot go on for ever. -/
theorem wellFounded_round : WellFounded fun ds cs => Round cs ds :=
  Subrelation.wf Round.leftSize_lt (measure leftSize).wf

/-- Whatever is shared, the answer is whether all comparisons hold. -/
theorem Returns.eq_true_iff {answer : Bool} (h : Returns cs answer) :
    answer = true ↔ AllHold cs := by
  induction h with
  | done => simp [AllHold]
  | @differ c rest hnone =>
      have hc : ¬ c.left.Equal c.right := by
        rw [Term.equal_iff_sameHead c.depth, hnone]
        simp
      simp [AllHold, hc]
  | round hround _ ih => rw [ih, hround.allHold_iff]

theorem returns_allEqual (cs : List Comparison) : Returns cs (allEqual cs) := by
  fun_induction allEqual cs with
  | case1 => exact .done
  | case2 c rest hnone => exact .differ hnone
  | case3 c rest parts hparts ih => exact .round (.split hparts) ih

theorem returns_iff {answer : Bool} : Returns cs answer ↔ answer = allEqual cs := by
  constructor
  · intro h
    rw [Bool.eq_iff_iff, h.eq_true_iff, (returns_allEqual cs).eq_true_iff]
  · rintro rfl
    exact returns_allEqual cs

end Comparison

namespace Term

open Comparison

theorem equals_iff {t u : Term} : t.equals u = true ↔ t.Equal u := by
  rw [equals_eq_allEqual, (returns_allEqual _).eq_true_iff]
  exact List.forall_mem_singleton

instance : DecidableRel Equal :=
  fun _ _ => decidable_of_iff _ equals_iff

/-! ## Laws -/

theorem Equal.symm {t u : Term} (h : t.Equal u) : u.Equal t := by
  rw [← equals_iff, equals_comm, equals_iff]
  exact h

/-- Terms may be exchanged for terms that differ from them in names only. -/
theorem equal_congr {t t' u u' : Term} (ht : t.nameless = t'.nameless)
    (hu : u.nameless = u'.nameless) : t.Equal u ↔ t'.Equal u' := by
  have hself : ∀ {v v' : Term}, v.nameless = v'.nameless →
      (Renaming.shifting 0 0).Rel v v' := by
    intro v v' hv
    rw [Renaming.Rel, ← shift_eq_rename]
    exact hv
  rw [← equals_iff, ← equals_iff, Simulation.renaming.equals (hself ht) (hself hu)]

/-- Shifting neither makes terms equal nor makes them differ. -/
theorem equal_shift_iff (inc depth : Nat) {t u : Term} :
    (t.shift inc depth).Equal (u.shift inc depth) ↔ t.Equal u := by
  rw [← equals_iff, ← equals_iff,
    Simulation.renaming.equals (Renaming.Rel.shift inc depth t) (Renaming.Rel.shift inc depth u)]

/-- Equal terms may be put in place of the variables of equal terms. An annotation that is a
variable may become a joker, but then it does so on both sides. -/
theorem Equal.inst {t u : Term} (htu : t.Equal u) {ρ τ : Assignment}
    (h : ∀ n x y, (ρ n x).Equal (τ n y)) : (t.inst ρ).Equal (u.inst τ) := by
  have under : ∀ {ρ τ : Assignment}, (∀ n x y, (ρ n x).Equal (τ n y)) →
      ∀ n x y, (ρ.under 1 n x).Equal (τ.under 1 n y) := by
    intro ρ τ h n x y
    unfold Assignment.under
    split
    · exact .bvar
    · exact (equal_shift_iff 1 0).2 (h (n - 1) x y)
  induction t generalizing u ρ τ with
  | kind | type | symb | joker =>
      cases htu
      exact .refl _
  | bvar n x =>
      cases htu
      rw [inst_bvar, inst_bvar]
      exact h n x _
  | appl f a ihf iha =>
      cases htu with
      | appl hf ha => exact .appl (ihf hf h) (iha ha h)
  | prod x A B ihA ihB =>
      cases htu with
      | prod hA hB =>
          rw [inst_prod, inst_prod]
          exact .prod (ihA hA h) (ihB hB (under h))
  | abst x A t ihA iht =>
      cases htu with
      | abst hann ht =>
          rw [inst_abst, inst_abst]
          refine .abst (fun C' D' hC' hD' hC hD => ?_) (iht ht (under h))
          obtain ⟨C, hA, rfl⟩ := Option.map_eq_some_iff.1 hC'
          obtain ⟨D, hB, rfl⟩ := Option.map_eq_some_iff.1 hD'
          -- what is no joker now was none before
          have hCj : C ≠ .joker := fun hj => hC (by rw [hj, inst_joker])
          have hDj : D ≠ .joker := fun hj => hD (by rw [hj, inst_joker])
          exact ihA C hA (hann C D hA hB hCj hDj) h
  | mvar m args ih =>
      cases htu with
      | @mvar _ _ bs hargs =>
          rw [inst_mvar, inst_mvar]
          refine .mvar (List.forall₂_map_left_iff.2 (List.forall₂_map_right_iff.2 ?_))
          have hboth := (List.forall₂_and_left (p := (· ∈ args)) args bs).2 ⟨fun _ ha => ha, hargs⟩
          exact hboth.imp fun a b hab => ih a hab.1 hab.2 h

theorem Equal.substAt {t t' u u' : Term} (ht : t.Equal t') (hu : u.Equal u') (depth : Nat) :
    (t.substAt u depth).Equal (t'.substAt u' depth) := by
  rw [equal_congr (nameless_substAt t u depth) (nameless_substAt t' u' depth)]
  refine ht.inst fun n x y => ?_
  unfold Assignment.replacing
  split
  · exact .bvar
  · split
    · exact hu
    · exact .bvar

/-- Every abstraction has an annotation that is no joker. -/
def Annotated (t : Term) : Prop :=
  ∀ v ∈ t.subterms, ∀ x A body, v = abst x A body → ∃ B, A = some B ∧ B ≠ joker

theorem Annotated.parts {t : Term} (h : t.Annotated) : ∀ p ∈ t.parts, p.Annotated :=
  (forall_mem_subterms.1 h).2

theorem Equal.trans {a b c : Term} (hb : b.Annotated) (hab : a.Equal b) (hbc : b.Equal c) :
    a.Equal c := by
  induction b generalizing a c with
  | kind | type | symb | bvar | joker =>
      cases hab
      cases hbc
      constructor
  | appl f a ihf iha =>
      cases hab with
      | appl hf ha =>
          cases hbc with
          | appl hf' ha' =>
              exact .appl (ihf (hb.parts f (by simp [parts])) hf hf')
                (iha (hb.parts a (by simp [parts])) ha ha')
  | prod x A B ihA ihB =>
      cases hab with
      | prod hA hB =>
          cases hbc with
          | prod hA' hB' =>
              exact .prod (ihA (hb.parts A (by simp [parts])) hA hA')
                (ihB (hb.parts B (by simp [parts])) hB hB')
  | abst x A t ihA iht =>
      cases hab with
      | abst hann ht =>
          cases hbc with
          | abst hann' ht' =>
              -- the annotation in the middle is there to compare both others with
              obtain ⟨D, rfl, hD⟩ := hb _ (mem_subterms_self _) x A t rfl
              refine .abst (fun C E hC hE hCj hEj => ?_) (iht (hb.parts t (by simp [parts])) ht ht')
              exact ihA D rfl (hb.parts D (by simp [parts])) (hann C D hC rfl hCj hD)
                (hann' D E rfl hE hD hEj)
  | mvar m bs ih =>
      cases hab with
      | @mvar _ as _ has =>
          cases hbc with
          | @mvar _ _ cs hcs =>
              refine .mvar ?_
              have hmiddle : ∀ b ∈ bs, ∀ a c, Equal a b → Equal b c → Equal a c :=
                fun b hmem a c hab hbc => ih b hmem (hb.parts b hmem) hab hbc
              exact forall₂_comp hmiddle has hcs

/-- The identity, which may have an annotation. -/
def identityOn (x : String) (A : Option Term) : Term :=
  abst x A (bvar 0 (some x))

example : (identityOn "x" (some type)).equals (identityOn "y" (some joker)) = true
    ∧ (identityOn "y" (some joker)).equals (identityOn "z" (some kind)) = true
    ∧ (identityOn "x" (some type)).equals (identityOn "z" (some kind)) = false :=
  ⟨by cbv, by cbv, by cbv⟩

/-- The loop always ends, and its answer is that of `Term.equals`, whatever is shared: whether the
terms are equal. Equality is reflexive and symmetric, shifted terms are equal exactly if the terms
are, equal terms stay so when equal terms are substituted, and terms equal to one whose abstractions
are all annotated are equal. -/
theorem equality_decided :
    WellFounded (fun ds cs => Comparison.Round cs ds)
      ∧ (∀ a b : Term, (∀ answer, Comparison.Returns [⟨a, b, 0⟩] answer ↔ answer = a.equals b)
        ∧ (a.equals b = true ↔ a.Equal b))
      ∧ (∀ a : Term, a.Equal a)
      ∧ (∀ a b : Term, a.Equal b → b.Equal a)
      ∧ (∀ (inc depth : Nat) (a b : Term),
        (a.shift inc depth).Equal (b.shift inc depth) ↔ a.Equal b)
      ∧ (∀ (depth : Nat) (a b u v : Term), a.Equal b → u.Equal v →
        (a.substAt u depth).Equal (b.substAt v depth))
      ∧ ∀ a b c : Term, b.Annotated → a.Equal b → b.Equal c → a.Equal c := by
  refine ⟨wellFounded_round, fun a b => ⟨fun answer => ?_, equals_iff⟩, .refl, fun _ _ h => h.symm,
    fun inc depth _ _ => equal_shift_iff inc depth,
    fun depth _ _ _ _ hab huv => hab.substAt huv depth, fun _ _ _ hb hab hbc => hab.trans hb hbc⟩
  rw [returns_iff, equals_eq_allEqual]

/-- The variable in the annotations is replaced by a joker, which hides them from comparison. -/
theorem equality_decided_identities :
    (identityOn "y" (some (bvar 0 none))).Annotated
      ∧ (identityOn "x" none).Equal (identityOn "y" (some (bvar 0 none)))
      ∧ (identityOn "y" (some (bvar 0 none))).Equal (identityOn "z" (some (bvar 0 (some "t"))))
      ∧ (identityOn "x" none).Equal (identityOn "z" (some (bvar 0 (some "t"))))
      ∧ ((identityOn "y" (some (bvar 0 none))).substAt joker 0).Equal
        ((identityOn "z" (some (bvar 0 (some "t")))).substAt joker 0)
      ∧ Comparison.Returns [⟨identityOn "x" (some type), identityOn "z" (some kind), 0⟩] false := by
  obtain ⟨-, hloop, -, hsymm, -, hsubst, htrans⟩ := equality_decided
  have hannotated : (identityOn "y" (some (bvar 0 none))).Annotated := by
    simp [Annotated, identityOn, subterms, subtermsAnn]
  have hxy : (identityOn "y" (some (bvar 0 none))).Equal (identityOn "x" none) :=
    .abst (by simp) .bvar
  have hyz : (identityOn "y" (some (bvar 0 none))).Equal
      (identityOn "z" (some (bvar 0 (some "t")))) := by decide
  refine ⟨hannotated, hsymm _ _ hxy, hyz, htrans _ _ _ hannotated (hsymm _ _ hxy) hyz,
    hsubst 0 _ _ _ _ hyz .joker, ?_⟩
  exact ((hloop _ _).1 false).2 (by cbv)

end Term

end LambdaPi
