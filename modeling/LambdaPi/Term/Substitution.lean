import LambdaPi.Memo
import LambdaPi.Term.Basic

/-!
# Substitution

Two ways to replace the free variables of a term. `Term.mapVars` is the plain recursive one: every
part is rebuilt. `Term.replace` keeps a compound term as it stands when none of its parts moved, so
that terms share their unchanged parts; a variable that is replaced by itself under another display
name did not move, and inside a compound term it goes on displaying the name it had. Where variables
that stay never change their name, the two agree: `Term.replace_yields_mapVars`.

Shifting and substitution for a variable are made with `Term.replace`. Shifting never renames a
variable, so it is also given by `Term.mapVars`.
-/

namespace LambdaPi

/-- What takes the place of a free variable: given its number at the place where it occurs, the
number of variables that are left alone there, and its name. -/
abbrev Replacement := Nat → Nat → Option String → Term

/-- Outcome of a replacement: the result, and whether the thing was kept as it stood. -/
structure Replaced (α : Type) where
  result : α
  kept : Bool

/-- A variable that keeps its number keeps its name. -/
def Replacement.KeepsNames (σ : Replacement) : Prop :=
  ∀ n k x, (σ n k x).isVar n = true → σ n k x = .bvar n x

/-- The result is the expected one, and if the thing was kept, it is what was expected. -/
def Replaced.Yields {α : Type} (r : Replaced α) (thing expected : α) : Prop :=
  r.result = expected ∧ (r.kept = true → expected = thing)

namespace Term

/-! ## Replacing variables throughout -/

mutual

/-- Replace every variable numbered `k` or more, where `k` grows by one under each binder. -/
def mapVars (σ : Replacement) (k : Nat) : Term → Term
  | bvar n x => if n < k then bvar n x else σ n k x
  | appl f a => appl (f.mapVars σ k) (a.mapVars σ k)
  | prod x A B => prod x (A.mapVars σ k) (B.mapVars σ (k + 1))
  | abst x A t => abst x (mapVarsAnn σ k A) (t.mapVars σ (k + 1))
  | mvar m args => mvar m (mapVarsArgs σ k args)
  | t => t

/-- `Term.mapVars` for an optional annotation. -/
def mapVarsAnn (σ : Replacement) (k : Nat) : Option Term → Option Term
  | none => none
  | some A => some (A.mapVars σ k)

/-- `Term.mapVars` for a list of arguments. -/
def mapVarsArgs (σ : Replacement) (k : Nat) : List Term → List Term
  | [] => []
  | t :: ts => t.mapVars σ k :: mapVarsArgs σ k ts

end

/-! ## Replacing variables and keeping what did not move -/

mutual

/-- Replace every variable numbered `k` or more, keeping each compound term none of whose parts
moved. A variable is kept when its number does not change; a joker always counts as moved. -/
def replace (σ : Replacement) (k : Nat) (t : Term) : Replaced Term :=
  match t with
  | bvar n x =>
    if n < k then ⟨t, true⟩
    else
      let u := σ n k x
      ⟨u, u.isVar n⟩
  | joker => ⟨t, false⟩
  | appl f a =>
    let f' := f.replace σ k
    let a' := a.replace σ k
    if f'.kept && a'.kept then ⟨t, true⟩ else ⟨appl f'.result a'.result, false⟩
  | prod x A B =>
    let A' := A.replace σ k
    let B' := B.replace σ (k + 1)
    if A'.kept && B'.kept then ⟨t, true⟩ else ⟨prod x A'.result B'.result, false⟩
  | abst x A body =>
    let A' := replaceAnn σ k A
    let body' := body.replace σ (k + 1)
    if A'.kept && body'.kept then ⟨t, true⟩ else ⟨abst x A'.result body'.result, false⟩
  | mvar m args =>
    let args' := replaceArgs σ k args
    if args'.kept then ⟨t, true⟩ else ⟨mvar m args'.result, false⟩
  | _ => ⟨t, true⟩

/-- `Term.replace` for an optional annotation. -/
def replaceAnn (σ : Replacement) (k : Nat) : Option Term → Replaced (Option Term)
  | none => ⟨none, true⟩
  | some A =>
    let A' := A.replace σ k
    ⟨some A'.result, A'.kept⟩

/-- `Term.replace` for a list of arguments, kept when every one of them is. -/
def replaceArgs (σ : Replacement) (k : Nat) : List Term → Replaced (List Term)
  | [] => ⟨[], true⟩
  | t :: ts =>
    let t' := t.replace σ k
    let ts' := replaceArgs σ k ts
    ⟨t'.result :: ts'.result, t'.kept && ts'.kept⟩

end

theorem replaceAnn_yields_mapVarsAnn {σ : Replacement} {k : Nat} {A : Option Term}
    (h : ∀ B, A = some B → (B.replace σ k).Yields B (B.mapVars σ k)) :
    (replaceAnn σ k A).Yields A (mapVarsAnn σ k A) := by
  cases A with
  | none => exact ⟨rfl, fun _ => rfl⟩
  | some B =>
    obtain ⟨hresult, hkept⟩ := h B rfl
    exact ⟨congrArg some hresult, fun hk => congrArg some (hkept hk)⟩

theorem replaceArgs_yields_mapVarsArgs {σ : Replacement} {k : Nat} {args : List Term}
    (h : ∀ a ∈ args, (a.replace σ k).Yields a (a.mapVars σ k)) :
    (replaceArgs σ k args).Yields args (mapVarsArgs σ k args) := by
  induction args with
  | nil => exact ⟨rfl, fun _ => rfl⟩
  | cons a args ih =>
    obtain ⟨hresult, hkept⟩ := h a (List.mem_cons_self ..)
    obtain ⟨hresults, hkepts⟩ := ih fun b hb => h b (List.mem_cons_of_mem _ hb)
    simp only [replaceArgs, mapVarsArgs]
    refine ⟨by rw [hresult, hresults], fun hk => ?_⟩
    rw [Bool.and_eq_true] at hk
    rw [hkept hk.1, hkepts hk.2]

/-- Keeping what did not move makes no difference if names are kept. -/
theorem replace_yields_mapVars {σ : Replacement} (hσ : σ.KeepsNames) (t : Term) (k : Nat) :
    (t.replace σ k).Yields t (t.mapVars σ k) := by
  induction t generalizing k with
  | kind | type | symb | joker => exact ⟨rfl, fun _ => rfl⟩
  | bvar n x =>
    simp only [replace, mapVars]
    split
    · exact ⟨rfl, fun _ => rfl⟩
    · exact ⟨rfl, hσ n k x⟩
  | appl f a ihf iha =>
    obtain ⟨hf, hfk⟩ := ihf k
    obtain ⟨ha, hak⟩ := iha k
    simp only [replace, mapVars]
    split
    · next h =>
      rw [Bool.and_eq_true] at h
      rw [hfk h.1, hak h.2]
      exact ⟨rfl, fun _ => rfl⟩
    · exact ⟨by rw [hf, ha], nofun⟩
  | prod x A B ihA ihB =>
    obtain ⟨hA, hAk⟩ := ihA k
    obtain ⟨hB, hBk⟩ := ihB (k + 1)
    simp only [replace, mapVars]
    split
    · next h =>
      rw [Bool.and_eq_true] at h
      rw [hAk h.1, hBk h.2]
      exact ⟨rfl, fun _ => rfl⟩
    · exact ⟨by rw [hA, hB], nofun⟩
  | abst x A t ihA iht =>
    obtain ⟨hA, hAk⟩ := replaceAnn_yields_mapVarsAnn fun B hB => ihA B hB k
    obtain ⟨ht, htk⟩ := iht (k + 1)
    simp only [replace, mapVars]
    split
    · next h =>
      rw [Bool.and_eq_true] at h
      rw [hAk h.1, htk h.2]
      exact ⟨rfl, fun _ => rfl⟩
    · exact ⟨by rw [hA, ht], nofun⟩
  | mvar m args ih =>
    obtain ⟨ha, hak⟩ := replaceArgs_yields_mapVarsArgs fun a h => ih a h k
    simp only [replace, mapVars]
    split
    · next h =>
      rw [hak h]
      exact ⟨rfl, fun _ => rfl⟩
    · exact ⟨by rw [ha], nofun⟩

/-! ## Shifting -/

/-- Add `inc` to every variable numbered `depth` or more. -/
def shift (inc depth : Nat) (t : Term) : Term :=
  if inc = 0 then t else (t.replace (fun n _ x => bvar (n + inc) x) depth).result

/-- Add `n` to every free variable: the term seen from under `n` more binders. -/
def lift (n : Nat) (t : Term) : Term :=
  t.shift n 0

theorem shift_eq_mapVars {inc : Nat} (h : inc ≠ 0) (depth : Nat) (t : Term) :
    t.shift inc depth = t.mapVars (fun n _ x => bvar (n + inc) x) depth := by
  rw [shift, if_neg h]
  refine (replace_yields_mapVars (fun n k x hvar => ?_) t depth).1
  simp [isVar] at hvar
  omega

/-- The product whose codomain does not see the bound variable. -/
def arrow (A B : Term) : Term :=
  prod none A (B.lift 1)

/-! ## Substitution for a variable -/

/-- Substitution of `u` for the variable `depth`: under further binders the variable is counted from
there and `u` is lifted over them, and the larger variables lose the one that disappears. -/
def substitution (u : Term) (depth : Nat) : Replacement :=
  fun n k x => if n = k then u.lift (k - depth) else bvar (n - 1) x

/-- Number of binders over which a lifted copy of a term is kept for its next use. -/
def copiesKept : Nat :=
  65536

/-- Replace the variable `depth` by `u`, decrementing all larger variables. All occurrences of the
variable under equally many binders share one copy of `u`. -/
def substAt (t u : Term) (depth : Nat) : Term :=
  let copies := Memo.ofFn u.lift 0 copiesKept
  let σ : Replacement := fun n k x =>
    if n = k then (copies.get? (k - depth)).getD (u.lift (k - depth)) else bvar (n - 1) x
  (t.replace σ depth).result

theorem substAt_eq (t u : Term) (depth : Nat) :
    t.substAt u depth = (t.replace (substitution u depth) depth).result := by
  have h : ∀ i, ((Memo.ofFn u.lift 0 copiesKept).get? i).getD (u.lift i) = u.lift i := fun i => by
    simpa using Memo.get?_ofFn_getD u.lift 0 copiesKept i
  simp only [substAt, h]
  rfl

/-- Replace the innermost variable by `u`. -/
def subst (t u : Term) : Term :=
  t.substAt u 0

end Term

end LambdaPi
