import LambdaPi.Symbol

/-!
# Terms

Terms of the λΠ-calculus with De Bruijn variables: variable `n` is bound by the `n`-th binder
around it. Names on binders and variables are for display only. Besides the terms of the calculus
there are the two sorts of incomplete term that patterns are written with: the joker, which stands
for anything, and meta-variables applied to a list of arguments.

An application is stored one argument at a time. Its spine, the head with all arguments in the
order they are applied in, is what reduction, matching and display look at.
-/

namespace LambdaPi

/-- Name of a meta-variable: a text chosen by the user, or the number that an anonymous
meta-variable was given. -/
inductive MetaName where
  | named (text : String)
  | fresh (number : Nat)
deriving DecidableEq, Repr, Inhabited

/-- Terms. A binder's name and the name on a variable are cosmetic; the annotation of an
abstraction is optional. -/
inductive Term where
  | kind
  | type
  | symb (s : Symbol)
  | bvar (n : Nat) (name : Option String)
  | joker
  | appl (f a : Term)
  | prod (name : Option String) (dom cod : Term)
  | abst (name : String) (ann : Option Term) (body : Term)
  | mvar (name : Option MetaName) (args : List Term)
deriving Repr, Inhabited

namespace MetaName

/-- Named meta-variables come first, by name, then the anonymous ones by number. -/
def before : MetaName → MetaName → Bool
  | named a, named b => decide (a < b)
  | named _, fresh _ => true
  | fresh _, named _ => false
  | fresh m, fresh n => decide (m < n)

end MetaName

namespace Term

/-- Induction on terms, with a hypothesis for the annotation of an abstraction, if it has one, and
for every argument of a meta-variable. -/
@[elab_as_elim, induction_eliminator]
theorem induct {motive : Term → Prop}
    (kind : motive kind)
    (type : motive type)
    (symb : ∀ s, motive (symb s))
    (bvar : ∀ n name, motive (bvar n name))
    (joker : motive joker)
    (appl : ∀ f a, motive f → motive a → motive (appl f a))
    (prod : ∀ name dom cod, motive dom → motive cod → motive (prod name dom cod))
    (abst : ∀ name ann body, (∀ A, ann = some A → motive A) → motive body →
      motive (abst name ann body))
    (mvar : ∀ name args, (∀ a ∈ args, motive a) → motive (mvar name args))
    (t : Term) : motive t :=
  @Term.rec motive (fun ann => ∀ A, ann = some A → motive A) (fun args => ∀ a ∈ args, motive a)
    kind type symb bvar joker appl prod abst mvar
    (fun _ h => nomatch h)
    (fun _ hA _ h => Option.some.inj h ▸ hA)
    (fun _ h => nomatch h)
    (fun _ _ hhead htail _ h => by
      rcases List.mem_cons.mp h with rfl | h
      · exact hhead
      · exact htail _ h)
    t

/-! ## Spines -/

/-- Apply a term to some arguments, from left to right. -/
def apply (f : Term) (args : List Term) : Term :=
  args.foldl appl f

/-- Head of a term and its arguments, followed by the arguments already waiting for it. -/
def unapplyOnto : Term → List Term → Term × List Term
  | appl f a, rest => unapplyOnto f (a :: rest)
  | t, rest => (t, rest)

/-- Head of a term, which is not an application, and its arguments in order. -/
def unapply (t : Term) : Term × List Term :=
  t.unapplyOnto []

/-! ## Shape of a term -/

/-- Meta-variables. -/
def isMetaVariable : Term → Bool
  | mvar _ _ => true
  | _ => false

/-- Jokers and meta-variables. -/
def isMeta : Term → Bool
  | joker => true
  | mvar _ _ => true
  | _ => false

/-- Sorts, symbols, variables, jokers and meta-variables are displayed without parentheses. -/
def isAtomic : Term → Bool
  | appl _ _ => false
  | prod _ _ _ => false
  | abst _ _ _ => false
  | _ => true

/-- Is this the variable `n`, whatever name it displays? -/
def isVar (n : Nat) : Term → Bool
  | bvar m _ => m == n
  | _ => false

/-- Is this the joker? -/
def isJoker : Term → Bool
  | joker => true
  | _ => false

/-- An annotation that says something: a joker is as good as no annotation. -/
def informative? : Option Term → Option Term
  | some joker => none
  | A => A

theorem informative?_some {A : Term} (h : A.isJoker = false) : informative? (some A) = some A := by
  unfold informative?
  split
  · next h' => cases Option.some.inj h'; cases h
  · rfl

theorem eq_some_of_informative? {ann : Option Term} {A : Term} (h : informative? ann = some A) :
    ann = some A := by
  unfold informative? at h
  split at h
  · cases h
  · exact h

theorem informative?_eq_some_iff {ann : Option Term} {A : Term} :
    informative? ann = some A ↔ ann = some A ∧ A ≠ joker := by
  unfold informative?
  split
  · simp [eq_comm]
  · next hjoker => exact ⟨fun h => ⟨h, fun hA => hjoker (hA ▸ h)⟩, fun h => h.1⟩

/-! ## Free variables and parts -/

mutual

/-- Does every free variable, counted from outside the term, satisfy `p`? Here `k` is the number of
binders already crossed. -/
def allFree (p : Nat → Bool) (k : Nat) : Term → Bool
  | bvar n _ => n < k || p (n - k)
  | appl f a => f.allFree p k && a.allFree p k
  | prod _ A B => A.allFree p k && B.allFree p (k + 1)
  | abst _ A t => allFreeAnn p k A && t.allFree p (k + 1)
  | mvar _ args => allFreeArgs p k args
  | _ => true

/-- `Term.allFree` for an optional annotation. -/
def allFreeAnn (p : Nat → Bool) (k : Nat) : Option Term → Bool
  | none => true
  | some A => A.allFree p k

/-- `Term.allFree` for a list of arguments. -/
def allFreeArgs (p : Nat → Bool) (k : Nat) : List Term → Bool
  | [] => true
  | t :: ts => t.allFree p k && allFreeArgs p k ts

end

/-- All free variables are among the `depth` innermost ones. -/
def closedUnder (depth : Nat) (t : Term) : Bool :=
  t.allFree (· < depth) 0

/-- No free variables. -/
def closed (t : Term) : Bool :=
  t.closedUnder 0

mutual

/-- All subterms, the term itself first, then those of its parts from left to right. -/
def subterms : Term → List Term
  | appl f a => appl f a :: (f.subterms ++ a.subterms)
  | prod x A B => prod x A B :: (A.subterms ++ B.subterms)
  | abst x A t => abst x A t :: (subtermsAnn A ++ t.subterms)
  | mvar m args => mvar m args :: subtermsArgs args
  | t => [t]

/-- `Term.subterms` for an optional annotation. -/
def subtermsAnn : Option Term → List Term
  | none => []
  | some A => A.subterms

/-- `Term.subterms` for a list of arguments. -/
def subtermsArgs : List Term → List Term
  | [] => []
  | t :: ts => t.subterms ++ subtermsArgs ts

end

mutual

/-- Number of constructors of a term. -/
def size : Term → Nat
  | appl f a => f.size + a.size + 1
  | prod _ A B => A.size + B.size + 1
  | abst _ A t => sizeAnn A + t.size + 1
  | mvar _ args => sizeArgs args + 1
  | _ => 1

/-- `Term.size` for an optional annotation. -/
def sizeAnn : Option Term → Nat
  | none => 0
  | some A => A.size

/-- `Term.size` for a list of arguments. -/
def sizeArgs : List Term → Nat
  | [] => 0
  | t :: ts => t.size + sizeArgs ts

end

theorem size_le_of_informative? {ann : Option Term} {A : Term} (h : informative? ann = some A) :
    A.size ≤ sizeAnn ann := by
  rw [eq_some_of_informative? h]
  exact Nat.le_refl _

/-- Name and number of arguments of every meta-variable, in the order of `Term.subterms`. -/
def metaVariables (t : Term) : List (Option MetaName × Nat) :=
  t.subterms.filterMap fun
    | mvar m args => some (m, args.length)
    | _ => none

end Term

end LambdaPi
