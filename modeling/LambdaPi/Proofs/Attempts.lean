import LambdaPi.Proofs.RegularRules
import LambdaPi.Session.Run

/-!
# How attempts end

An attempt that does not run out of anything ends with an answer or an error, in some state
(`Attempt.Ends`). This module takes such an end apart: a sequence of attempts ends well when each of
them does (`Attempt.Ends.bind`), and each basic step says what it did to the state.

Often it is enough to know that a property of the state survives, however the attempt ends
(`Attempt.Keeps`). Questions about terms keep every property that does not depend on the journal
(`Attempt.keeps_typing`), so they leave the session as it is.
-/

namespace LambdaPi

/-- A sequence of steps that does not run out of anything, taken apart. -/
theorem Run.ends_bind {α β : Type} {x : Run α} {f : α → Run β} {b : β} {w w' : RunState}
    (h : (x >>= f).run w = .ok (b, w')) :
    ∃ a w₁, x.run w = .ok (a, w₁) ∧ (f a).run w₁ = .ok (b, w') := by
  rw [StateT.run_bind] at h
  obtain ⟨⟨a, w₁⟩, hx, hf⟩ := bind_eq_ok h
  exact ⟨a, w₁, hx, hf⟩

namespace Attempt

variable {ε δ α β : Type} {w w' : RunState}

/-- The attempt started in the state `w` ends with `r` in the state `w'`. -/
def Ends (x : Attempt ε α) (w : RunState) (r : Except ε α) (w' : RunState) : Prop :=
  x.run.run w = .ok (r, w')

theorem Ends.iff {x : Attempt ε α} {q r : Except ε α} {w₁ : RunState} (hx : x.Ends w q w₁) :
    x.Ends w r w' ↔ r = q ∧ w' = w₁ := by
  constructor
  · intro h
    obtain ⟨rfl, rfl⟩ := Prod.mk.inj (Except.ok.inj (h.symm.trans hx))
    exact ⟨rfl, rfl⟩
  · rintro ⟨rfl, rfl⟩
    exact hx

/-! ## Sequences -/

theorem ends_pure {a : α} {r : Except ε α} :
    Ends (pure a) w r w' ↔ r = .ok a ∧ w' = w :=
  Ends.iff rfl

theorem ends_throw {e : ε} {r : Except ε α} :
    Ends (throw e) w r w' ↔ r = .error e ∧ w' = w :=
  Ends.iff rfl

theorem run_bind (x : Attempt ε α) (f : α → Attempt ε β) (w : RunState) :
    (x >>= f).run.run w = x.run.run w >>= fun (q, w₁) =>
      match q with
      | .ok a => (f a).run.run w₁
      | .error e => .ok (.error e, w₁) := by
  simp only [ExceptT.run_bind, StateT.run_bind]
  congr 1
  funext ⟨q, w₁⟩
  cases q <;> rfl

theorem run_bind_congr {x x' : Attempt ε α} {f f' : α → Attempt ε β}
    (hx : x.run.run w = x'.run.run w)
    (hf : ∀ a w₁, x.Ends w (.ok a) w₁ → (f a).run.run w₁ = (f' a).run.run w₁) :
    (x >>= f).run.run w = (x' >>= f').run.run w := by
  rw [run_bind, run_bind, ← hx]
  rcases hrun : x.run.run w with e | ⟨⟨e⟩ | ⟨a⟩, w₁⟩
  · rfl
  · rfl
  · exact hf a w₁ hrun

theorem ends_bind {x : Attempt ε α} {f : α → Attempt ε β} {r : Except ε β} :
    Ends (x >>= f) w r w' ↔
      (∃ a w₁, x.Ends w (.ok a) w₁ ∧ (f a).Ends w₁ r w') ∨
      ∃ e, x.Ends w (.error e) w' ∧ r = .error e := by
  unfold Ends
  rw [run_bind]
  rcases hx : x.run.run w with e | ⟨⟨e⟩ | ⟨a⟩, w₁⟩
  · constructor
    · intro h
      cases h
    · rintro (⟨a, w₂, h, -⟩ | ⟨e, h, -⟩) <;> cases h
  · constructor
    · intro h
      obtain ⟨rfl, rfl⟩ := Prod.mk.inj (Except.ok.inj h)
      exact .inr ⟨e, rfl, rfl⟩
    · rintro (⟨a, w₂, h, -⟩ | ⟨e, h, rfl⟩)
      · cases h
      · cases h
        rfl
  · constructor
    · intro h
      exact .inl ⟨a, w₁, rfl, h⟩
    · rintro (⟨a, w₂, h, h'⟩ | ⟨e, h, -⟩)
      · cases h
        exact h'
      · cases h

/-- What ends well after a first attempt does so where that one ended well. -/
theorem Ends.bind {x : Attempt ε α} {f : α → Attempt ε β} {b : β}
    (h : Ends (x >>= f) w (.ok b) w') :
    ∃ a w₁, x.Ends w (.ok a) w₁ ∧ (f a).Ends w₁ (.ok b) w' := by
  rcases ends_bind.1 h with h | ⟨e, -, h⟩
  · exact h
  · cases h

theorem Ends.andThen {x : Attempt ε α} {f : α → Attempt ε β} {a : α} {r : Except ε β}
    {w₁ : RunState} (hx : x.Ends w (.ok a) w₁) (hf : (f a).Ends w₁ r w') : Ends (x >>= f) w r w' :=
  ends_bind.2 (.inl ⟨a, w₁, hx, hf⟩)

theorem Ends.bind_pure {x : Attempt ε α} {f : α → β} {b : β}
    (h : Ends (x >>= fun a => pure (f a)) w (.ok b) w') : ∃ a, x.Ends w (.ok a) w' := by
  obtain ⟨a, w₁, hx, hf⟩ := h.bind
  obtain ⟨-, rfl⟩ := ends_pure.1 hf
  exact ⟨a, hx⟩

theorem Ends.forM_concat {f : α → Attempt ε Unit} {as : List α} {a : α} {u : Unit}
    {r : Except ε Unit} {w₁ : RunState} (has : Ends (as.forM f) w (.ok u) w₁)
    (ha : (f a).Ends w₁ r w') : Ends ((as ++ [a]).forM f) w r w' := by
  induction as generalizing w with
  | nil =>
      obtain ⟨-, rfl⟩ := ends_pure.1 has
      have hnil : (([] : List α) ++ [a]).forM f = f a := by simp
      rw [hnil]
      exact ha
  | cons b bs ih =>
      obtain ⟨_, w₂, hb, hbs⟩ := has.bind
      exact hb.andThen (ih hbs)

/-! ## Basic steps -/

theorem ends_lift {x : Run α} {r : Except ε α} :
    Ends (liftM x : Attempt ε α) w r w' ↔ ∃ a, r = .ok a ∧ x.run w = .ok (a, w') := by
  have hrun : (liftM x : Attempt ε α).run.run w = x.run w >>= fun (a, w₁) => .ok (.ok a, w₁) := rfl
  unfold Ends
  rw [hrun]
  rcases hx : x.run w with e | ⟨a, w₁⟩
  · constructor
    · intro h
      cases h
    · rintro ⟨a, -, h⟩
      cases h
  · constructor
    · intro h
      obtain ⟨rfl, rfl⟩ := Prod.mk.inj (Except.ok.inj h)
      exact ⟨a, rfl, rfl⟩
    · rintro ⟨b, rfl, h⟩
      cases h
      rfl

theorem ends_outcome {x : Attempt ε α} {r : Except δ (Except ε α)} :
    Ends (outcome x) w r w' ↔ ∃ q, r = .ok q ∧ x.Ends w q w' :=
  ends_lift

theorem ends_get {r : Except ε RunState} :
    Ends (get : Attempt ε RunState) w r w' ↔ r = .ok w ∧ w' = w :=
  ends_pure

theorem ends_modify {f : RunState → RunState} {r : Except ε PUnit} :
    Ends (modify f : Attempt ε PUnit) w r w' ↔ r = .ok () ∧ w' = f w :=
  Ends.iff rfl

theorem ends_fail {e : LocatedError} {r : Except LocatedError α} :
    Ends (fail e) w r w' ↔ r = .error e ∧ w' = w.say (.error e) :=
  Ends.iff rfl

theorem ends_signature {r : Except ε Signature} :
    Ends (liftM Run.signature : Attempt ε Signature) w r w' ↔
      r = .ok w.session.signature ∧ w' = w :=
  Ends.iff rfl

/-! A first step that cannot fail leaves the rest with what it gives. -/

theorem run_bind_get (f : RunState → Attempt ε α) (w : RunState) :
    (get >>= f).run.run w = (f w).run.run w :=
  rfl

theorem run_bind_signature (f : Signature → Attempt ε α) (w : RunState) :
    (liftM Run.signature >>= f).run.run w = (f w.session.signature).run.run w :=
  rfl

theorem run_bind_modify (g : RunState → RunState) (f : PUnit → Attempt ε α) (w : RunState) :
    (modify g >>= f).run.run w = (f ⟨⟩).run.run (g w) :=
  rfl

theorem run_bind_outcome (x : Attempt ε α) (f : Except ε α → Attempt δ β) (w : RunState) :
    (outcome x >>= f).run.run w =
      x.run.run w >>= fun result => (f result.1).run.run result.2 := by
  have houtcome : (outcome x : Attempt δ (Except ε α)).run.run w =
      x.run.run w >>= fun result => .ok (.ok result.1, result.2) := rfl
  rw [run_bind, houtcome]
  cases x.run.run w <;> rfl

theorem ends_bind_get {f : RunState → Attempt ε α} {r : Except ε α} :
    Ends (get >>= f) w r w' ↔ (f w).Ends w r w' :=
  Iff.rfl

theorem ends_bind_signature {f : Signature → Attempt ε α} {r : Except ε α} :
    Ends (liftM Run.signature >>= f) w r w' ↔ (f w.session.signature).Ends w r w' :=
  Iff.rfl

theorem ends_bind_modify {g : RunState → RunState} {f : PUnit → Attempt ε α} {r : Except ε α} :
    Ends (modify g >>= f) w r w' ↔ (f ⟨⟩).Ends (g w) r w' :=
  Iff.rfl

/-- A change of the signature that ends well changes nothing else. -/
theorem Ends.change {f : Signature → Except SignatureError Signature} {a : Unit}
    (h : Ends (Attempt.change f) w (.ok a) w') :
    ∃ σ, f w.session.signature = .ok σ ∧
      w' = { w with session := { w.session with signature := σ } } := by
  have h := ends_bind_signature.1 h
  split at h
  · next σ' hf =>
    obtain ⟨-, rfl⟩ := ends_modify.1 h
    exact ⟨σ', hf, rfl⟩
  · cases (ends_throw.1 h).1

theorem ends_change {f : Signature → Except SignatureError Signature} {σ : Signature}
    (h : f w.session.signature = .ok σ) :
    Ends (Attempt.change f) w (.ok ()) { w with session := { w.session with signature := σ } } := by
  refine ends_bind_signature.2 ?_
  rw [h]
  rfl

theorem ends_typing {x : Typed α} {a : α} (h : x.run.value = some (.ok a)) :
    Ends (Attempt.typing x) w (.ok a) { w with journal := w.journal.absorb x.run.trace } := by
  have hcompute : Ends (Attempt.compute x.run : Attempt Error (Except TypingError α)) w
      (.ok (.ok a)) { w with journal := w.journal.absorb x.run.trace } := by
    refine ends_lift.2 ⟨_, rfl, ?_⟩
    simp only [h]
    rfl
  exact hcompute.andThen (ends_pure.2 ⟨rfl, rfl⟩)

theorem Ends.typing {x : Typed α} {a : α} (h : Ends (Attempt.typing x) w (.ok a) w') :
    x.run.value = some (.ok a) := by
  obtain ⟨r, w₁, hcompute, h⟩ := h.bind
  obtain ⟨r', hr, hrun⟩ := ends_lift.1 hcompute
  obtain rfl := Except.ok.inj hr
  obtain ⟨_, w₂, -, hvalue⟩ := Run.ends_bind hrun
  cases r with
  | error e => cases (ends_throw.1 h).1
  | ok b =>
      obtain rfl := Except.ok.inj (ends_pure.1 h).1
      split at hvalue
      · next heq =>
        cases hvalue
        exact heq
      · cases hvalue

/-! ## What is kept -/

/-- However the attempt ends, the property still holds if it did before. -/
def Keeps (K : RunState → Prop) (x : Attempt ε α) : Prop :=
  ∀ ⦃w r w'⦄, x.Ends w r w' → K w → K w'

variable {K : RunState → Prop}

theorem keeps_pure (a : α) : Keeps K (pure a : Attempt ε α) := by
  intro w r w' h hw
  rwa [(ends_pure.1 h).2]

theorem keeps_throw (e : ε) : Keeps K (throw e : Attempt ε α) := by
  intro w r w' h hw
  rwa [(ends_throw.1 h).2]

theorem Keeps.bind {x : Attempt ε α} {f : α → Attempt ε β} (hx : Keeps K x)
    (hf : ∀ a, Keeps K (f a)) : Keeps K (x >>= f) := by
  intro w r w' h hw
  rcases ends_bind.1 h with ⟨a, w₁, h₁, h₂⟩ | ⟨e, h₁, -⟩
  · exact hf a h₂ (hx h₁ hw)
  · exact hx h₁ hw

theorem Keeps.forM {f : α → Attempt ε Unit} (hf : ∀ a, Keeps K (f a)) (as : List α) :
    Keeps K (as.forM f) := by
  induction as with
  | nil => exact keeps_pure ()
  | cons a as ih => exact (hf a).bind fun _ => ih

theorem keeps_get : Keeps K (get : Attempt ε RunState) := by
  intro w r w' h hw
  rwa [(ends_get.1 h).2]

theorem keeps_signature : Keeps K (liftM Run.signature : Attempt ε Signature) := by
  intro w r w' h hw
  rwa [(ends_signature.1 h).2]

theorem keeps_modify {f : RunState → RunState} (hf : ∀ w, K w → K (f w)) :
    Keeps K (modify f : Attempt ε PUnit) := by
  intro w r w' h hw
  rw [(ends_modify.1 h).2]
  exact hf w hw

theorem keeps_fail (hK : ∀ w e, K w → K (w.say (.error e))) (e : LocatedError) :
    Keeps K (fail e : Attempt LocatedError α) :=
  (keeps_modify fun w hw => hK w e hw).bind fun _ => keeps_throw e

theorem keeps_outcome {x : Attempt ε α} (hx : Keeps K x) :
    Keeps K (outcome x : Attempt δ (Except ε α)) := by
  intro w r w' h hw
  obtain ⟨q, -, hq⟩ := ends_outcome.1 h
  exact hx hq hw

/-- The property does not depend on the journal. -/
def IgnoresJournal (K : RunState → Prop) : Prop :=
  ∀ w j, K w → K { w with journal := j }

theorem keeps_compute (hK : IgnoresJournal K) (x : Traced α) :
    Keeps K (liftM (Run.compute x) : Attempt ε α) := by
  intro w r w' h hw
  obtain ⟨a, -, h⟩ := ends_lift.1 h
  obtain ⟨_, w₁, h₁, h₂⟩ := Run.ends_bind h
  cases h₁
  split at h₂
  · cases h₂
    exact hK w _ hw
  · cases h₂

theorem keeps_typing (hK : IgnoresJournal K) (x : Typed α) : Keeps K (Attempt.typing x) := by
  refine (keeps_compute hK x.run).bind fun r => ?_
  cases r with
  | ok a => exact keeps_pure a
  | error e => exact keeps_throw _

theorem keeps_change (hK : ∀ w σ, K w → K { w with session := { w.session with signature := σ } })
    (f : Signature → Except SignatureError Signature) : Keeps K (Attempt.change f) := by
  refine keeps_signature.bind fun σ => ?_
  split
  · exact keeps_modify fun w hw => hK w _ hw
  · exact keeps_throw _

end Attempt

/-- The other state has the same session. -/
abbrev RunState.SameSession (w v : RunState) : Prop :=
  v.session = w.session

theorem RunState.sameSession_ignoresJournal (w : RunState) :
    Attempt.IgnoresJournal w.SameSession :=
  fun _ _ h => h

theorem Attempt.typing_session {α : Type} {x : Typed α} {w w' : RunState} {r : Except Error α}
    (h : Ends (Attempt.typing x) w r w') : w'.session = w.session :=
  keeps_typing w.sameSession_ignoresJournal x h rfl

end LambdaPi
