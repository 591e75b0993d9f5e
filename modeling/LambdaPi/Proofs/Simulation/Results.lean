import LambdaPi.Proofs.ReductionWithin
import LambdaPi.Typing.Check
import Mathlib.Data.List.Forall2

/-!
# Related results

When two computations are compared, both have a result or neither has one, and results are related.
This module says what that means for lists, for answers and errors, and for the computations of the
kernel, whose traces are left out of account, and how it is put together from the parts of a
computation.
-/

namespace LambdaPi

/-! ## Lists -/

theorem forall₂_getElem? {α β : Type} {R : α → β → Prop} {as : List α} {bs : List β}
    (h : List.Forall₂ R as bs) (i : Nat) : Option.Rel R as[i]? bs[i]? := by
  induction h generalizing i with
  | nil => exact .none
  | cons hab _ ih =>
      cases i with
      | zero => exact .some hab
      | succ i => exact ih i

theorem forall₂_exists_right {α β : Type} {R : α → β → Prop} {as : List α} {bs : List β}
    (h : List.Forall₂ R as bs) {a : α} (ha : a ∈ as) : ∃ b ∈ bs, R a b := by
  obtain ⟨i, hi⟩ := List.mem_iff_getElem?.1 ha
  have hrel := forall₂_getElem? h i
  rw [hi] at hrel
  cases hb : bs[i]? <;> rw [hb] at hrel <;> cases hrel
  next hab => exact ⟨_, List.mem_of_getElem? hb, hab⟩

theorem forall₂_comp {α : Type} {R : α → α → Prop} {as bs cs : List α}
    (h : ∀ b ∈ bs, ∀ a c, R a b → R b c → R a c) (hab : List.Forall₂ R as bs)
    (hbc : List.Forall₂ R bs cs) : List.Forall₂ R as cs := by
  induction hab generalizing cs with
  | nil => exact hbc
  | cons hab _ ih =>
      cases hbc with
      | cons hbc hrest =>
          obtain ⟨hfirst, h⟩ := List.forall_mem_cons.1 h
          exact .cons (hfirst _ _ hab hbc) (ih h hrest)

theorem forall₂_set {α β : Type} {R : α → β → Prop} {as : List α} {bs : List β}
    (h : List.Forall₂ R as bs) {a : α} {b : β} (hab : R a b) (i : Nat) :
    List.Forall₂ R (as.set i a) (bs.set i b) := by
  induction h generalizing i with
  | nil => exact .nil
  | cons h hs ih =>
      cases i with
      | zero => exact .cons hab hs
      | succ i => exact .cons h (ih i)

theorem forall₂_replicate {α β : Type} {R : α → β → Prop} {a : α} {b : β} (h : R a b) (n : Nat) :
    List.Forall₂ R (List.replicate n a) (List.replicate n b) := by
  induction n with
  | zero => exact .nil
  | succ n ih => exact .cons h ih

theorem forall₂_replicate_left {α β : Type} {R : α → β → Prop} {a : α} {bs : List β}
    (h : ∀ b ∈ bs, R a b) : List.Forall₂ R (List.replicate bs.length a) bs := by
  induction bs with
  | nil => exact .nil
  | cons b bs ih =>
      obtain ⟨hb, hbs⟩ := List.forall_mem_cons.mp h
      exact .cons hb (ih hbs)

theorem forall₂_lookup {κ α β : Type} [BEq κ] [LawfulBEq κ] {R : κ → α → β → Prop}
    {as : List (κ × α)} {bs : List (κ × β)}
    (h : List.Forall₂ (fun p q => p.1 = q.1 ∧ R p.1 p.2 q.2) as bs) (k : κ) :
    Option.Rel (R k) (as.lookup k) (bs.lookup k) := by
  induction h with
  | nil => exact .none
  | @cons p q _ _ hpq _ ih =>
      obtain ⟨j, a⟩ := p
      obtain ⟨_, b⟩ := q
      obtain ⟨rfl, hab⟩ := hpq
      rw [List.lookup_cons, List.lookup_cons]
      cases hkj : k == j with
      | true =>
          rw [eq_of_beq hkj]
          exact .some hab
      | false => exact ih

theorem map_eq_map_iff {α β γ : Type} {f : α → γ} {g : β → γ} {as : List α} {bs : List β} :
    as.map f = bs.map g ↔ List.Forall₂ (fun a b => f a = g b) as bs := by
  rw [← List.forall₂_eq_eq_eq, List.forall₂_map_left_iff, List.forall₂_map_right_iff]

/-! ## Options -/

section

variable {α β γ : Type}

theorem eq_of_rel {R : α → α → Prop} (hR : ∀ a b, R a b → a = b) {a b : Option α}
    (h : Option.Rel R a b) : a = b := by
  cases h with
  | none => rfl
  | some hab => rw [hR _ _ hab]

theorem rel_mono {R S : α → β → Prop} (h : ∀ a b, R a b → S a b) {a : Option α}
    {b : Option β} (hab : Option.Rel R a b) : Option.Rel S a b := by
  cases hab with
  | none => exact .none
  | some hab => exact .some (h _ _ hab)

theorem option_map_eq_map_iff {f : α → γ} {g : β → γ} {a : Option α} {b : Option β} :
    a.map f = b.map g ↔ Option.Rel (fun a b => f a = g b) a b := by
  constructor
  · intro h
    cases a <;> cases b <;> simp at h
    · exact .none
    · exact .some h
  · intro h
    cases h with
    | none => rfl
    | some h => exact congrArg some h

end

/-! ## Answers and errors -/

/-- Both fail, for related reasons, or both have an answer, and the answers are related. -/
inductive ExceptRel {ε δ α β : Type} (E : ε → δ → Prop) (R : α → β → Prop) :
    Except ε α → Except δ β → Prop
  | error {e d} : E e d → ExceptRel E R (.error e) (.error d)
  | ok {a b} : R a b → ExceptRel E R (.ok a) (.ok b)

namespace ExceptRel

variable {ε δ α β γ κ : Type} {E : ε → δ → Prop} {R : α → β → Prop} {T : γ → κ → Prop}

theorem bind {x : Except ε α} {y : Except δ β} {f : α → Except ε γ} {g : β → Except δ κ}
    (hx : ExceptRel E R x y) (hf : ∀ a b, R a b → ExceptRel E T (f a) (g b)) :
    ExceptRel E T (x >>= f) (y >>= g) := by
  cases hx with
  | error he => exact .error he
  | ok hab => exact hf _ _ hab

theorem map {x : Except ε α} {y : Except δ β} (hx : ExceptRel E R x y) {f : α → γ} {g : β → κ}
    (hf : ∀ a b, R a b → T (f a) (g b)) : ExceptRel E T (x.map f) (y.map g) := by
  cases hx with
  | error he => exact .error he
  | ok hab => exact .ok (hf _ _ hab)

theorem imp {x : Except ε α} {y : Except δ β} {R' : α → β → Prop} (hx : ExceptRel E R x y)
    (h : ∀ a b, R a b → R' a b) : ExceptRel E R' x y := by
  cases hx with
  | error he => exact .error he
  | ok hab => exact .ok (h _ _ hab)

theorem mapM {f : α → Except ε γ} {g : β → Except δ κ}
    {as : List α} {bs : List β} (h : List.Forall₂ (fun a b => ExceptRel E T (f a) (g b)) as bs) :
    ExceptRel E (List.Forall₂ T) (as.mapM f) (bs.mapM g) := by
  induction h with
  | nil => exact .ok .nil
  | cons hab _ ih =>
      rw [List.mapM_cons, List.mapM_cons]
      refine hab.bind fun c d hcd => ih.bind fun cs ds hcds => ?_
      exact .ok (.cons hcd hcds)

theorem forM {f : α → Except ε Unit} {g : β → Except δ Unit} {as : List α} {bs : List β}
    (h : List.Forall₂ (fun a b => ExceptRel E Eq (f a) (g b)) as bs) :
    ExceptRel E Eq (as.forM f) (bs.forM g) := by
  induction h with
  | nil => exact .ok rfl
  | cons hab _ ih => exact hab.bind fun _ _ _ => ih

end ExceptRel

/-! ## Evaluation -/

namespace Traced

variable {α β γ δ : Type} {R : α → β → Prop} {T : γ → δ → Prop}

/-- Neither computation has a value, or both have one and the values are related. -/
def Related (R : α → β → Prop) (x : Traced α) (y : Traced β) : Prop :=
  Option.Rel R x.value y.value

theorem Related.pure {a : α} {b : β} (h : R a b) :
    Related R (Pure.pure a : Traced α) (Pure.pure b : Traced β) :=
  .some h

/-- A computation and itself. -/
theorem Related.same (x : Traced α) : Related (fun a b => a = b ∧ x.value = some a) x x := by
  unfold Related
  cases x.value with
  | none => exact .none
  | some a => exact .some ⟨rfl, rfl⟩

theorem Related.exhausted : Related R Traced.exhausted Traced.exhausted :=
  .none

theorem Related.bind {x : Traced α} {y : Traced β} {f : α → Traced γ} {g : β → Traced δ}
    (hx : Related R x y) (hf : ∀ a b, R a b → Related T (f a) (g b)) :
    Related T (x >>= f) (y >>= g) := by
  unfold Related at *
  rw [value_bind, value_bind]
  generalize x.value = x, y.value = y at hx
  cases hx with
  | none => exact .none
  | some h => exact hf _ _ h

theorem Related.emit {x : Traced α} {y : Traced β} (h : Related R x y) (e e' : Event) :
    Related R (Traced.emit e >>= fun _ => x) (Traced.emit e' >>= fun _ => y) :=
  Related.bind (R := fun _ _ => True) (.some trivial) fun _ _ _ => h

theorem Related.mapM {f : α → Traced γ} {g : β → Traced δ}
    (hf : ∀ a b, R a b → Related T (f a) (g b)) {as : List α} {bs : List β}
    (h : List.Forall₂ R as bs) : Related (List.Forall₂ T) (as.mapM f) (bs.mapM g) := by
  unfold Related at *
  rw [value_mapM, value_mapM]
  induction h with
  | nil => exact .some .nil
  | @cons a b as bs hab _ ih =>
      have hhead := hf a b hab
      rw [List.mapM_cons, List.mapM_cons]
      generalize (f a).value = c, (g b).value = d at hhead
      generalize as.mapM (fun a => (f a).value) = cs, bs.mapM (fun b => (g b).value) = ds at ih
      cases hhead with
      | none => exact .none
      | some hcd =>
          cases ih with
          | none => exact .none
          | some hcds => exact .some (.cons hcd hcds)

end Traced

/-! ## Typing -/

namespace Typed

variable {α β γ δ : Type} {E : TypingError → TypingError → Prop} {R : α → β → Prop}
  {T : γ → δ → Prop}

/-- Neither computation ends, or both end, with related answers or with related errors. -/
def Related (E : TypingError → TypingError → Prop) (R : α → β → Prop) (x : Typed α) (y : Typed β) :
    Prop :=
  x.run.Related (ExceptRel E R) y.run

theorem Related.pure {a : α} {b : β} (h : R a b) :
    Related E R (Pure.pure a : Typed α) (Pure.pure b : Typed β) :=
  .some (.ok h)

theorem Related.throw {e d : TypingError} (h : E e d) :
    Related E R (MonadExcept.throw e : Typed α) (MonadExcept.throw d : Typed β) :=
  .some (.error h)

theorem Related.bind {x : Typed α} {y : Typed β} {f : α → Typed γ} {g : β → Typed δ}
    (hx : Related E R x y) (hf : ∀ a b, R a b → Related E T (f a) (g b)) :
    Related E T (x >>= f) (y >>= g) := by
  refine Traced.Related.bind hx fun p q hpq => ?_
  cases hpq with
  | error he => exact .some (.error he)
  | ok hab => exact hf _ _ hab

theorem Related.lift {x : Traced α} {y : Traced β} {f : α → Typed γ} {g : β → Typed δ}
    (hx : x.Related R y) (hf : ∀ a b, R a b → Related E T (f a) (g b)) :
    Related E T ((liftM x : Typed α) >>= f) ((liftM y : Typed β) >>= g) := by
  refine Related.bind (R := R) ?_ hf
  exact Traced.Related.bind hx fun _ _ hab => .pure (.ok hab)

theorem Related.emit {f : Unit → Typed γ} {g : Unit → Typed δ} (h : Related E T (f ()) (g ()))
    (e e' : Event) :
    Related E T ((liftM (Traced.emit e) : Typed Unit) >>= f)
      ((liftM (Traced.emit e') : Typed Unit) >>= g) :=
  .lift (R := fun _ _ => True) (.some trivial) fun _ _ _ => h

theorem Related.ensure {x y : Traced Bool} {e d : TypingError} (hxy : x.Related Eq y)
    (hed : E e d) : Related E Eq (ensure x e) (ensure y d) := by
  refine .lift hxy ?_
  rintro b _ rfl
  split
  · exact .pure rfl
  · exact .throw hed

theorem Related.imp {E' : TypingError → TypingError → Prop} {R' : α → β → Prop} {x : Typed α}
    {y : Typed β} (h : Related E R x y) (hE : ∀ e d, E e d → E' e d)
    (hR : ∀ a b, R a b → R' a b) : Related E' R' x y := by
  unfold Related Traced.Related at *
  generalize x.run.value = p, y.run.value = q at h
  cases h with
  | none => exact .none
  | some h =>
      cases h with
      | error he => exact .some (.error (hE _ _ he))
      | ok hab => exact .some (.ok (hR _ _ hab))

end Typed

end LambdaPi
