import Mathlib
import LambdaPi.Proofs.Dependence
import LambdaPi.Proofs.FailedInstructions

/-!
# Scoping

No variable gets out of its scope. The types and rules of a signature that a session has built are
closed (`Signature.Scoped`), although a definition is turned into a rule without being looked at: it
was typed in the empty context, and what is typed has no variables but those of its context. Over
such a signature reduction stays among the variables it finds, as does everything that the type
checker comes across, provided that each type in a context refers only to variables that were bound
before it (`Context.Scoped`).
-/

namespace LambdaPi

/-! ## Numbers of variables -/

namespace Term

theorem closedUnder_mono {d e : Nat} (hle : d ≤ e) {t : Term} (h : t.closedUnder d = true) :
    t.closedUnder e = true := by
  refine allFree_imp ?_ h
  intro n hn
  simp only [decide_eq_true_eq] at hn ⊢
  omega

theorem closedUnder_iff_allFree_one {d : Nat} {t : Term} :
    t.closedUnder (d + 1) = true ↔ t.allFree (· < d) 1 = true := by
  constructor
  · refine allFree_imp ?_
    intro n hn
    simp only [decide_eq_true_eq] at hn ⊢
    omega
  · refine allFree_imp ?_
    intro n hn
    simp only [decide_eq_true_eq] at hn ⊢
    omega

theorem closedUnder_prod {d : Nat} {x : Option String} {A B : Term} :
    (prod x A B).closedUnder d = true ↔
      A.closedUnder d = true ∧ B.closedUnder (d + 1) = true := by
  rw [closedUnder_iff_allFree_one, closedUnder, allFree, Bool.and_eq_true]
  rfl

theorem closedUnder_lift {d : Nat} (k : Nat) {t : Term} (h : t.closedUnder d = true) :
    (t.lift k).closedUnder (d + k) = true := by
  refine allFree_imp ?_ (allFree_lift k h)
  intro n hn
  simp only [decide_eq_true_eq] at hn ⊢
  omega

theorem closedUnder_subst {d : Nat} {t u : Term} (ht : t.closedUnder (d + 1) = true)
    (hu : u.closedUnder d = true) : (t.subst u).closedUnder d = true := by
  refine covers_beta "" none t u _ ?_
  simp only [allFree, allFreeAnn, Bool.and_eq_true, Bool.true_and]
  exact ⟨closedUnder_iff_allFree_one.1 ht, hu⟩

end Term

/-! ## Contexts -/

namespace Context

/-- Each type is closed under the variables that were bound before. -/
def Scoped : Context → Prop
  | [] => True
  | h :: Γ => (∀ A, h.type = some A → A.closedUnder Γ.length = true) ∧ Scoped Γ

theorem Scoped.bind {Γ : Context} (hΓ : Γ.Scoped) {A : Term} (hA : A.closedUnder Γ.length = true)
    (x : Option String) : (Γ.bind x (some A)).Scoped := by
  refine ⟨?_, hΓ⟩
  intro B hB
  obtain rfl := Option.some.inj hB
  exact hA

/-- What was bound after a variable is counted when its type is looked up. -/
theorem Scoped.closedUnder_typeOf? {Γ : Context} (hΓ : Γ.Scoped) {n : Nat} {A : Term}
    (h : Γ.typeOf? n = some A) : A.closedUnder Γ.length = true := by
  obtain ⟨hyp, hn, h⟩ := Option.bind_eq_some_iff.mp h
  obtain ⟨B, hB, h⟩ := Option.bind_eq_some_iff.mp h
  obtain rfl := Option.some.inj h
  clear * - hΓ hn hB
  have hstored : n < Γ.length ∧ B.closedUnder (Γ.length - (n + 1)) = true := by
    induction Γ generalizing n with
    | nil => cases hn
    | cons hyp' Γ ih =>
        cases n with
        | zero =>
            obtain rfl := Option.some.inj hn
            exact ⟨Nat.succ_pos _, hΓ.1 B hB⟩
        | succ n =>
            obtain ⟨hlt, hclosed⟩ := ih hΓ.2 hn
            refine ⟨Nat.succ_lt_succ hlt, ?_⟩
            rwa [List.length_cons, Nat.add_sub_add_right]
  have hlift := Term.closedUnder_lift (n + 1) hstored.2
  rwa [Nat.sub_add_cancel hstored.1] at hlift

end Context

/-! ## Signatures -/

namespace Signature

/-- Types are closed, and so are both sides of rules. -/
structure Scoped (σ : Signature) : Prop where
  types : ∀ {s A}, σ.typeOf? s = some A → A.closed = true
  rules : ∀ {s rule}, rule ∈ σ.rulesOf s → rule.lhs.closed = true ∧ rule.rhs.closed = true

variable {σ σ' : Signature} {budget : Nat}

section

variable (hσ : σ.Reachable Rule.Admissible)

include hσ

theorem closed_rules {s : Symbol} {rule : Rule} (h : rule ∈ σ.rulesOf s) :
    rule.lhs.closed = true ∧ rule.rhs.closed = true := by
  have hregular := ((hσ.coherent s).holds rule h).regular
  exact ⟨hregular.lhs_closed, hregular.rhs_closed⟩

theorem closedUnder_whnf {d : Nat} {t u : Term} (ht : t.closedUnder d = true)
    (h : (σ.whnf budget t).value = some u) : u.closedUnder d = true :=
  (contains_covers hσ fun _ => Rule.Admissible.regular).whnf hσ h _ ht

theorem closedUnder_nf {d : Nat} {t u : Term} (ht : t.closedUnder d = true)
    (h : (σ.nf budget t).value = some u) : u.closedUnder d = true :=
  (contains_covers hσ fun _ => Rule.Admissible.regular).nf hσ h _ ht

/-! ## Typing -/

theorem closedUnder_of_infer {Γ : Context} {t T : Term}
    (h : (σ.infer budget Γ t).run.value = some (.ok T)) : t.closedUnder Γ.length = true :=
  ((justified hσ t Γ T).1 h).closedUnder

theorem closedUnder_of_check {Γ : Context} {t T : Term}
    (h : (σ.check budget Γ t T).run.value = some (.ok ())) : t.closedUnder Γ.length = true :=
  ((justified hσ t Γ T).2 h).closedUnder

theorem closed_of_sort {A S : Term} (h : (σ.sort budget A).run.value = some (.ok S)) :
    A.closed = true := by
  obtain ⟨T, hT, -⟩ := Typed.bind_ok h
  exact closedUnder_of_infer hσ hT

/-- The type that is inferred stays in scope. The induction follows the term, through the types of
functions that are applied and of bodies of abstractions. -/
theorem closedUnder_inferred (htypes : ∀ {s A}, σ.typeOf? s = some A → A.closed = true) {t T : Term}
    {Γ : Context} (hΓ : Γ.Scoped) (h : (σ.infer budget Γ t).run.value = some (.ok T)) :
    T.closedUnder Γ.length = true := by
  induction t generalizing Γ T with
  | kind | joker | mvar => cases Inferred.of_infer h
  | type =>
      cases Inferred.of_infer h with
      | type => rfl
  | symb s =>
      cases Inferred.of_infer h with
      | symb hA => exact Term.closedUnder_mono (Nat.zero_le _) (htypes hA)
  | bvar n x =>
      cases Inferred.of_infer h with
      | bvar hA => exact hΓ.closedUnder_typeOf? hA
  | appl f a ihf iha =>
      cases Inferred.of_infer h with
      | appl hF hwhnf hcheck =>
          have hprod := closedUnder_whnf hσ (ihf hΓ hF) hwhnf
          exact Term.closedUnder_subst (Term.closedUnder_prod.1 hprod).2
            (closedUnder_of_check hσ hcheck)
  | prod x A B ihA ihB =>
      cases Inferred.of_infer h with
      | prod _ _ _ _ hsort => rcases hsort with rfl | rfl <;> rfl
  | abst x ann body ihann ihbody =>
      cases Inferred.of_infer h with
      | abst _ hS _ hB _ =>
          have hdom := closedUnder_of_infer hσ hS
          exact Term.closedUnder_prod.2 ⟨hdom, ihbody (hΓ.bind hdom _) hB⟩

end

/-! ## What is declared -/

theorem typeOf?_of_declare {s t : Symbol} {A B : Term} {obligation : Bool}
    (h : σ.declare s A obligation = .ok σ') (ht : σ'.typeOf? t = some B) :
    σ.typeOf? t = some B ∨ B = A := by
  unfold declare at h
  split at h
  · cases h
  · obtain rfl := Except.ok.inj h
    by_cases hts : t = s
    · subst hts
      rw [typeOf?, entry?, Table.find?_enter_self] at ht
      exact .inr (Option.some.inj ht).symm
    · rw [typeOf?, entry?, Table.find?_enter_of_ne hts] at ht
      exact .inl ht

theorem typeOf?_of_setProven {s t : Symbol} {B : Term} (h : σ.setProven s = .ok σ')
    (ht : σ'.typeOf? t = some B) : σ.typeOf? t = some B := by
  unfold setProven at h
  split at h
  · cases h
  · next e he =>
    obtain rfl := Except.ok.inj h
    by_cases hts : t = s
    · subst hts
      rw [typeOf?, entry?, Table.find?_enter_self] at ht
      rw [typeOf?, he]
      exact ht
    · rw [typeOf?, entry?, Table.find?_enter_of_ne hts] at ht
      exact ht

theorem typeOf?_of_addRule {rule : Rule} (h : σ.addRule rule = .ok σ') (t : Symbol) :
    σ'.typeOf? t = σ.typeOf? t := by
  rw [typeOf?, entry?, (of_addRule h).1, typeOf?, entry?]

/-- Only declarations give types. -/
theorem Effect.typeOf?_of_ne_declare {c : Command} (h : Effect σ c σ') (hc : ∀ d, c ≠ .declare d)
    {s : Symbol} {B : Term} (hs : σ'.typeOf? s = some B) : σ.typeOf? s = some B := by
  cases h with
  | declared | asConstant | defined => exact absurd rfl (hc _)
  | constant | injective | asks => exact hs
  | rewrites _ _ hrule => rwa [← typeOf?_of_addRule hrule]
  | proves _ _ hrule hproven =>
      rw [← typeOf?_of_addRule hrule]
      exact typeOf?_of_setProven hproven hs

end Signature

namespace Session

open Attempt Signature

variable {host : Host} {w w' : RunState}

/-- The type of a declaration has passed as a type or a kind in the empty context. -/
theorem closed_of_declaredType (hσ : w.session.signature.Reachable Rule.Admissible)
    {d : Declaration} {A : Term} (h : Ends (declaredType host d) w (.ok A) w') :
    A.closed = true := by
  have h := ends_bind_signature.1 h
  split at h
  · obtain ⟨S, w₁, hsort, h⟩ := h.bind
    obtain rfl := Except.ok.inj (ends_pure.1 h).1
    exact closed_of_sort hσ hsort.typing
  · obtain ⟨S, w₁, hsort, h⟩ := h.bind
    obtain ⟨_, w₂, -, h⟩ := h.bind
    obtain rfl := Except.ok.inj (ends_pure.1 h).1
    exact closed_of_sort hσ hsort.typing
  · obtain ⟨B, w₁, -, h⟩ := h.bind
    obtain ⟨S, w₂, hsort, h⟩ := h.bind
    obtain rfl := Except.ok.inj (ends_pure.1 h).1
    exact closed_of_sort hσ hsort.typing
  · cases (ends_throw.1 h).1

/-- A declaration gives its own symbol a type and leaves the other types alone. -/
theorem typeOf?_of_declare_ends {d : Declaration} {m : Message}
    (h : Ends (declare host d) w (.ok m) w') :
    ∃ A w₁, Ends (declaredType host d) w (.ok A) w₁ ∧ ∀ {s B},
      w'.session.signature.typeOf? s = some B → w.session.signature.typeOf? s = some B ∨ B = A := by
  obtain ⟨A, w₁, h₁, h⟩ := h.bind
  obtain ⟨_, w₂, h₂, h⟩ := h.bind
  obtain ⟨σ, hdecl, rfl⟩ := h₂.change
  rw [declaredType_session h₁] at hdecl
  refine ⟨A, w₁, h₁, fun {s B} hs => typeOf?_of_declare hdecl ?_⟩
  split at h
  · obtain ⟨_, h₃⟩ := h.bind_pure
    obtain ⟨_, hσ, rfl⟩ := h₃.change
    obtain rfl := Except.ok.inj hσ
    exact hs
  · split at h
    · obtain ⟨_, w₃, h₃, h⟩ := h.bind
      rw [← typeOf?_of_addRule (addRule_ends h₃)]
      split at h <;>
      · obtain ⟨-, rfl⟩ := ends_pure.1 h
        exact hs
    · split at h <;>
      · obtain ⟨-, rfl⟩ := ends_pure.1 h
        exact hs

/-- A command that ends well only declares closed types. -/
theorem command_types (hσ : w.session.signature.Reachable Rule.Admissible) {c : Command}
    {m : Option Message} (h : Ends (command host c) w (.ok m) w') {s : Symbol} {B : Term}
    (hs : w'.session.signature.typeOf? s = some B) :
    w.session.signature.typeOf? s = some B ∨ B.closed = true := by
  by_cases hd : ∃ d, c = .declare d
  · obtain ⟨d, rfl⟩ := hd
    obtain ⟨m, hm⟩ := (ends_bind_signature.1 h).bind_pure
    obtain ⟨A, w₁, htype, hcases⟩ := typeOf?_of_declare_ends hm
    rcases hcases hs with hold | rfl
    · exact .inl hold
    · exact .inr (closed_of_declaredType hσ htype)
  · exact .inl ((command_effect h).typeOf?_of_ne_declare (fun d hc => hd ⟨d, hc⟩) hs)

/-- Whatever instructions a session was given, its types and rules are closed. -/
theorem Reached.scoped (hw : Reached w) : w.session.signature.Scoped := by
  have hinv : w.session.signature.Reachable Rule.Admissible ∧
      ∀ s A, w.session.signature.typeOf? s = some A → A.closed = true := by
    refine hw.invariant (J := fun σ => σ.Reachable Rule.Admissible ∧
      ∀ s A, σ.typeOf? s = some A → A.closed = true) ?_ ?_
    · intro host c w r w' h hJ
      obtain ⟨hσ, htypes⟩ := hJ
      cases r with
      | error e =>
          rw [command_error hσ h]
          exact ⟨hσ, htypes⟩
      | ok m =>
          refine ⟨(command_effect h).reachable hσ, ?_⟩
          intro s A hs
          rcases command_types hσ h hs with hold | hclosed
          · exact htypes s A hold
          · exact hclosed
    · intro eta
      exact ⟨.eta eta .empty, fun s A h => by cases h⟩
  exact ⟨fun {s A} => hinv.2 s A, closed_rules hinv.1⟩

/-- In every state that a session gets into, types and rules are closed; reduction stays among the
variables of a term; and in a context whose types are in scope, a term whose type is inferred is in
scope, as is its type, and so is a term that passes a check. -/
theorem kernel_scoping (hw : Reached w) :
    w.session.signature.Scoped ∧
    (∀ budget d t, t.closedUnder d = true →
      (∀ u, (w.session.signature.whnf budget t).value = some u → u.closedUnder d = true) ∧
      ∀ u, (w.session.signature.nf budget t).value = some u → u.closedUnder d = true) ∧
    ∀ budget (Γ : Context), Γ.Scoped →
      (∀ t T, (w.session.signature.infer budget Γ t).run.value = some (.ok T) →
        t.closedUnder Γ.length = true ∧ T.closedUnder Γ.length = true) ∧
      ∀ t T, (w.session.signature.check budget Γ t T).run.value = some (.ok ()) →
        t.closedUnder Γ.length = true := by
  have hσ := hw.reachable
  refine ⟨hw.scoped, ?_, ?_⟩
  · intro budget d t ht
    exact ⟨fun u => closedUnder_whnf hσ ht, fun u => closedUnder_nf hσ ht⟩
  · intro budget Γ hΓ
    refine ⟨?_, ?_⟩
    · intro t T h
      exact ⟨closedUnder_of_infer hσ h, closedUnder_inferred hσ hw.scoped.types hΓ h⟩
    · intro t T h
      exact closedUnder_of_check hσ h

/-- Functions on `A` can be applied by `app`, whose rule takes the body of an abstraction apart. -/
def application : List Instruction :=
  [⟨1, .declare ⟨"A", some .type, none, false, false⟩⟩,
   ⟨2, .declare ⟨"app", some (Term.arrow (Term.arrow (.symb ⟨"A"⟩) (.symb ⟨"A"⟩))
      (Term.arrow (.symb ⟨"A"⟩) (.symb ⟨"A"⟩))), none, false, false⟩⟩,
   ⟨3, .rule "beta" (.appl (.appl (.symb ⟨"app"⟩)
      (.abst "x" none (.mvar (some (.named "F")) [.bvar 0 none]))) (.mvar (some (.named "a")) []))
      (.mvar (some (.named "F")) [.mvar (some (.named "a")) []])⟩]

/-- The state after these instructions. -/
def applicationState : RunState :=
  final (instructAll school (RunState.nesting school {} + 1) {} application) {}

/-- The identity, applied to a variable. -/
def applied : Term :=
  .appl (.appl (.symb ⟨"app"⟩) (.abst "x" none (.bvar 0 none))) (.bvar 0 none)

theorem kernel_scoping_applied :
    Reached applicationState ∧
      (applicationState.session.signature.whnf 9 applied).value = some (.bvar 0 none) ∧
      (Term.bvar 0 none).closedUnder 1 = true ∧
      (applicationState.session.signature.infer 9 [⟨none, some (.symb ⟨"A"⟩)⟩] applied).run.value =
        some (.ok (.symb ⟨"A"⟩)) ∧
      applied.closedUnder 1 = true := by
  have hends : Ends _ {} (.ok ()) applicationState := ends_final (by cbv)
  have hreached : Reached applicationState := Reached.fresh.checkInstructions hends
  have hwhnf : (applicationState.session.signature.whnf 9 applied).value = some (.bvar 0 none) := by
    cbv
  have hinfer : (applicationState.session.signature.infer 9 [⟨none, some (.symb ⟨"A"⟩)⟩]
      applied).run.value = some (.ok (.symb ⟨"A"⟩)) := by cbv
  obtain ⟨-, hreduce, htyping⟩ := kernel_scoping hreached
  have hΓ : Context.Scoped [⟨none, some (.symb ⟨"A"⟩)⟩] := by
    refine Context.Scoped.bind (Γ := []) trivial ?_ none
    rfl
  have happlied := ((htyping 9 _ hΓ).1 _ _ hinfer).1
  exact ⟨hreached, hwhnf, (hreduce 9 1 applied happlied).1 _ hwhnf, hinfer, happlied⟩

end Session

end LambdaPi
