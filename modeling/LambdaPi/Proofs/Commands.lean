import LambdaPi.Proofs.Attempts

/-!
# What commands do

`Signature.Effect` lists what a command that ends well can do to the signature: a declaration enters
its symbol and may make it a constant or give it a rule, a rule is added and may discharge a
theorem, and everything else leaves the signature alone. `Session.command_effect` says that this is
all. Besides the signature, a command touches only the journal and the level of detail to return to,
however it ends (`Session.keeps_command`).

A command that asks for a module is left to `Session.require`, which refuses the module or has its
instructions checked and then leaves it again (`Session.require_cases`).
-/

namespace LambdaPi

/-- A theorem that is declared without a proof. -/
def Declaration.isOpen (d : Declaration) : Bool :=
  d.isTheorem && d.body.isNone

/-- Commands that leave the signature alone. -/
def Command.isQuestion : Command → Bool
  | .declare _ | .constant _ | .injective _ | .rule _ _ _ | .require _ _ => false
  | _ => true

/-- Commands that only ask about the session. -/
def Command.isQuery : Command → Bool
  | .eval _ _ | .infer _ _ | .check _ _ _ | .compare _ _ _ _ | .print _ | .trees _ | .clock => true
  | _ => false

/-- The term was found to have the type, where there are no variables. -/
def Signature.Accepts (σ : Signature) (t A : Term) : Prop :=
  ∃ budget, (σ.infer budget [] t).run.value = some (.ok A)
    ∨ (σ.check budget [] t A).run.value = some (.ok ())

/-- What a command that ends well makes of a signature. -/
inductive Signature.Effect (σ : Signature) : Command → Signature → Prop
  | declared {d A σ'} (hdecl : σ.declare ⟨d.name⟩ A d.isOpen = .ok σ') (hbody : d.body = none) :
      Effect σ (.declare d) σ'
  | asConstant {d A σ'} (hdecl : σ.declare ⟨d.name⟩ A d.isOpen = .ok σ') :
      Effect σ (.declare d) (σ'.declareConstant ⟨d.name⟩)
  | defined {d A t σ₁ σ'} (hdecl : σ.declare ⟨d.name⟩ A d.isOpen = .ok σ₁) (hbody : d.body = some t)
      (hrule : σ₁.addRule (.ofDefinition (d.name ++ "_def") ⟨d.name⟩ t) = .ok σ')
      (htyped : σ.Accepts t A) : Effect σ (.declare d) σ'
  | constant {name} : Effect σ (.constant name) (σ.declareConstant ⟨name⟩)
  | injective {name} : Effect σ (.injective name) (σ.declareInjective ⟨name⟩)
  | rewrites {name lhs rhs rule σ'} (hsides : Rule.ofSides name lhs rhs = .ok rule)
      (htheorem : Session.theoremOf? σ rule = none) (hrule : σ.addRule rule = .ok σ') :
      Effect σ (.rule name lhs rhs) σ'
  | proves {name lhs rhs rule A σ₁ σ'} (hsides : Rule.ofSides name lhs rhs = .ok rule)
      (htheorem : Session.theoremOf? σ rule = some A) (hrule : σ.addRule rule = .ok σ₁)
      (hproven : σ₁.setProven rule.head = .ok σ') : Effect σ (.rule name lhs rhs) σ'
  | asks {c} (hc : c.isQuestion = true) : Effect σ c σ

namespace Session

open Attempt Signature

variable {α : Type} {host : Host} {w w' : RunState} {K : RunState → Prop}

theorem keeps_declaredType (hK : IgnoresJournal K) (d : Declaration) :
    Keeps K (declaredType host d) := by
  refine keeps_signature.bind fun σ => ?_
  split
  · exact (keeps_typing hK _).bind fun _ => keeps_pure _
  · exact (keeps_typing hK _).bind fun _ => (keeps_typing hK _).bind fun _ => keeps_pure _
  · exact (keeps_typing hK _).bind fun _ => (keeps_typing hK _).bind fun _ => keeps_pure _
  · exact keeps_throw _

theorem declaredType_session {d : Declaration} {r : Except Error Term}
    (h : Ends (declaredType host d) w r w') : w'.session = w.session :=
  keeps_declaredType w.sameSession_ignoresJournal d h rfl

/-- The definition of a symbol has its declared type. -/
theorem accepts_of_declaredType {d : Declaration} {A t : Term}
    (h : Ends (declaredType host d) w (.ok A) w') (hbody : d.body = some t) :
    w.session.signature.Accepts t A := by
  have h := ends_bind_signature.1 h
  split at h
  · next hnone => cases hnone.symm.trans hbody
  · next B u hu =>
    obtain rfl := Option.some.inj (hu.symm.trans hbody)
    obtain ⟨_, w₁, h₁, h⟩ := h.bind
    obtain ⟨_, w₂, h₂, h⟩ := h.bind
    obtain rfl := Except.ok.inj (ends_pure.1 h).1
    exact ⟨host.budget, .inr h₂.typing⟩
  · next u hu =>
    obtain rfl := Option.some.inj (hu.symm.trans hbody)
    obtain ⟨B, w₁, h₁, h⟩ := h.bind
    obtain ⟨_, w₂, -, h⟩ := h.bind
    obtain rfl := Except.ok.inj (ends_pure.1 h).1
    exact ⟨host.budget, .inl h₁.typing⟩
  · cases (ends_throw.1 h).1

theorem addRule_ends {rule : Rule} {a : Unit} (h : Ends (Attempt.addRule rule) w (.ok a) w') :
    w.session.signature.addRule rule = .ok w'.session.signature := by
  obtain ⟨_, w₁, h₁, h⟩ := h.bind
  obtain ⟨σ, hσ, rfl⟩ := h₁.change
  obtain ⟨-, rfl⟩ := ends_modify.1 h
  exact hσ

theorem declare_effect {d : Declaration} {m : Message} (h : Ends (declare host d) w (.ok m) w') :
    Effect w.session.signature (.declare d) w'.session.signature := by
  obtain ⟨A, w₁, h₁, h⟩ := h.bind
  obtain ⟨_, w₂, h₂, h⟩ := h.bind
  obtain ⟨σ, hdecl, rfl⟩ := h₂.change
  rw [declaredType_session h₁] at hdecl
  split at h
  · obtain ⟨_, h₃⟩ := h.bind_pure
    obtain ⟨_, hσ, rfl⟩ := h₃.change
    obtain rfl := Except.ok.inj hσ
    exact .asConstant hdecl
  · split at h
    · next t hbody =>
      obtain ⟨_, w₃, h₃, h⟩ := h.bind
      split at h <;>
      · obtain ⟨-, rfl⟩ := ends_pure.1 h
        exact .defined hdecl hbody (addRule_ends h₃) (accepts_of_declaredType h₁ hbody)
    · next hbody =>
      split at h <;>
      · obtain ⟨-, rfl⟩ := ends_pure.1 h
        exact .declared hdecl hbody

theorem introduceRule_effect {name : String} {lhs rhs : Term} {m : Message}
    (h : Ends (introduceRule host name lhs rhs) w (.ok m) w') :
    Effect w.session.signature (.rule name lhs rhs) w'.session.signature := by
  unfold introduceRule at h
  split at h
  case h_2 => cases (ends_throw.1 h).1
  case h_1 rule hsides =>
    simp only [pure_bind] at h
    have h := ends_bind_signature.1 h
    split at h
    · next A htheorem =>
      obtain ⟨_, w₂, h₂, h⟩ := h.bind
      obtain ⟨_, w₃, h₃, h⟩ := h.bind
      obtain ⟨_, h₄⟩ := h.bind_pure
      obtain ⟨σ', hproven, rfl⟩ := h₄.change
      have hrule := addRule_ends h₃
      rw [typing_session h₂] at hrule
      exact .proves hsides htheorem hrule hproven
    · next htheorem =>
      obtain ⟨_, h₂⟩ := h.bind_pure
      exact .rewrites hsides htheorem (addRule_ends h₂)

theorem keeps_compare (hK : IgnoresJournal K) (t u : Term) (expected : Bool) :
    Keeps K (liftM (compare host t u expected) : Attempt Error Message) := by
  intro w r w' h hw
  obtain ⟨m, -, hrun⟩ := ends_lift.1 h
  obtain ⟨σ, w₁, h₁, hrest⟩ := Run.ends_bind hrun
  cases h₁
  obtain ⟨actual, w₂, h₂, hsay⟩ := Run.ends_bind hrest
  have hw₂ : K w₂ := keeps_compute hK _ (ends_lift.2 ⟨_, rfl, h₂⟩ : Ends (ε := Error) _ _ _ _) hw
  dsimp only at hsay
  split at hsay
  · cases hsay
    exact hw₂
  · cases hsay
    exact hK w₂ _ hw₂

/-- Commands that only ask about the session keep what does not depend on the journal. -/
theorem keeps_query (hK : IgnoresJournal K) {c : Command} (hc : c.isQuery = true) :
    Keeps K (command host c) := by
  refine keeps_signature.bind fun σ => ?_
  cases c with
  | eval => exact (keeps_compute hK _).bind fun _ => keeps_pure _
  | infer | check => exact (keeps_typing hK _).bind fun _ => keeps_pure _
  | compare => exact (keeps_compare hK _ _ _).bind fun _ => keeps_pure _
  | print | clock => exact keeps_pure _
  | trees => exact keeps_get.bind fun _ => keeps_pure _
  | declare | constant | injective | rule | require | debugOn | debugOff => cases hc

theorem query_session {c : Command} (hc : c.isQuery = true) {r : Except Error (Option Message)}
    (h : Ends (command host c) w r w') : w'.session = w.session :=
  keeps_query w.sameSession_ignoresJournal hc h rfl

/-- The property does not depend on what commands change: the journal, the signature and the level of
detail to return to. -/
structure IgnoresCommands (K : RunState → Prop) : Prop where
  journal : IgnoresJournal K
  signature : ∀ w σ, K w → K { w with session := { w.session with signature := σ } }
  savedLevel : ∀ w saved, K w → K { w with session := { w.session with savedLevel := saved } }

section

variable (hK : IgnoresCommands K)

include hK

theorem keeps_addRule (rule : Rule) : Keeps K (Attempt.addRule rule) :=
  (keeps_change hK.signature _).bind fun _ => keeps_modify fun w hw => hK.journal w _ hw

theorem keeps_setLevel (level : Level) (saved : Option Level) :
    Keeps K (liftM (Run.setLevel level saved) : Attempt Error Unit) :=
  keeps_modify fun w hw => hK.journal _ _ (hK.savedLevel w saved hw)

theorem keeps_declare (d : Declaration) : Keeps K (declare host d) := by
  refine (keeps_declaredType hK.journal d).bind fun A => ?_
  refine (keeps_change hK.signature _).bind fun _ => ?_
  split
  · exact (keeps_change hK.signature _).bind fun _ => keeps_pure _
  · split
    · refine (keeps_addRule hK _).bind fun _ => ?_
      split <;> exact keeps_pure _
    · split <;> exact keeps_pure _

theorem keeps_introduceRule (name : String) (lhs rhs : Term) :
    Keeps K (introduceRule host name lhs rhs) := by
  unfold introduceRule
  split
  case h_2 => exact keeps_throw _
  case h_1 rule hsides =>
    refine (keeps_pure _).bind fun rule => keeps_signature.bind fun σ => ?_
    split
    · refine (keeps_typing hK.journal _).bind fun _ => (keeps_addRule hK _).bind fun _ => ?_
      exact (keeps_change hK.signature _).bind fun _ => keeps_pure _
    · exact (keeps_addRule hK _).bind fun _ => keeps_pure _

/-- Commands leave everything else alone, however they end. -/
theorem keeps_command (c : Command) : Keeps K (command host c) := by
  cases c with
  | eval | infer | check | compare | print | trees | clock => exact keeps_query hK.journal rfl
  | declare d =>
      refine keeps_signature.bind fun σ => ?_
      exact (keeps_declare hK d).bind fun _ => keeps_pure _
  | constant | injective =>
      refine keeps_signature.bind fun σ => ?_
      exact (keeps_change hK.signature _).bind fun _ => keeps_pure _
  | rule name lhs rhs =>
      refine keeps_signature.bind fun σ => ?_
      exact (keeps_introduceRule hK name lhs rhs).bind fun _ => keeps_pure _
  | require =>
      refine keeps_signature.bind fun σ => ?_
      exact keeps_throw _
  | debugOn =>
      refine keeps_signature.bind fun σ => keeps_get.bind fun w => ?_
      exact (keeps_setLevel hK _ _).bind fun _ => keeps_pure _
  | debugOff =>
      refine keeps_signature.bind fun σ => keeps_get.bind fun w => ?_
      split
      · exact (keeps_setLevel hK _ _).bind fun _ => keeps_pure _
      · exact keeps_pure _

end

/-- Whatever a command that ends well does to the signature is among its effects. -/
theorem command_effect {c : Command} {m : Option Message}
    (hc : Ends (command host c) w (.ok m) w') :
    Effect w.session.signature c w'.session.signature := by
  have h := ends_bind_signature.1 hc
  cases c <;> dsimp only at h
  case declare d =>
    obtain ⟨m, hm⟩ := h.bind_pure
    exact declare_effect hm
  case constant name =>
    obtain ⟨_, hchange⟩ := h.bind_pure
    obtain ⟨σ', hσ', rfl⟩ := hchange.change
    obtain rfl := Except.ok.inj hσ'
    exact .constant
  case injective name =>
    obtain ⟨_, hchange⟩ := h.bind_pure
    obtain ⟨σ', hσ', rfl⟩ := hchange.change
    obtain rfl := Except.ok.inj hσ'
    exact .injective
  case rule name lhs rhs =>
    obtain ⟨m, hm⟩ := h.bind_pure
    exact introduceRule_effect hm
  case require moduleName localName => cases (ends_throw.1 h).1
  case debugOn =>
    obtain ⟨_, hlevel⟩ := (ends_bind_get.1 h).bind_pure
    obtain ⟨-, rfl⟩ := ends_modify.1 hlevel
    exact .asks rfl
  case debugOff =>
    have hset := ends_bind_get.1 h
    split at hset
    · obtain ⟨_, hlevel⟩ := hset.bind_pure
      obtain ⟨-, rfl⟩ := ends_modify.1 hlevel
      exact .asks rfl
    · obtain ⟨-, rfl⟩ := ends_pure.1 hset
      exact .asks rfl
  all_goals
    rw [query_session rfl hc]
    exact .asks rfl

/-! ## Instructions -/

theorem command_scope_require {sc : Scope} {c : Command} {n : Nat} {moduleName : String}
    {localName : Option String} (h : ((sc.command c).run n).1 = .require moduleName localName) :
    c = .require moduleName localName := by
  cases c <;> first | exact h | cases h

theorem command_scope_declare {sc : Scope} {c : Command} {n : Nat} {d : Declaration}
    (h : ((sc.command c).run n).1 = .declare d) :
    ∃ d', c = .declare d' ∧ d.name = sc.qualify d'.name ∧ d.isOpen = d'.isOpen := by
  cases c <;> try cases h
  case declare d' => exact ⟨d', rfl, rfl, by simp [Declaration.isOpen]⟩

/-- The entering of a module by an instruction that asks for it: the module is not being loaded yet,
and it is while its instructions are checked in the space it gets. -/
structure Entered (host : Host) (enter : Enter) (place : Place) (moduleName : String)
    (localName : Option String) (w w' : RunState) : Prop where
  fresh : moduleName ∉ w.session.loading
  checked : ∃ instrs trail w₁ w₂, host.library.load moduleName = .ok instrs ∧
    w₁.session = (w.beginModule moduleName).session ∧
    Ends (enter ⟨innerSpace place.space localName, trail⟩ instrs) w₁ (.ok ()) w₂ ∧
    w'.session = w₂.endModule.session

/-- The state in which the instructions of a module are checked. -/
def entering (w : RunState) (moduleName space : String) : RunState :=
  { w.beginModule moduleName with journal := w.journal.observe (.require moduleName space) }

/-- What is said once a module is loaded. -/
def loadedMessage (moduleName : String) (trail : Trail) : Message :=
  ⟨.ok, "Require", s!"Module [{moduleName}] successfully loaded.", trail⟩

/-- The state once the instructions of a module have ended: the module on top is taken off the stack,
and if all went well this is reported. -/
def leaving (moduleName : String) (trail : Trail) (r : Except LocatedError Unit) (w : RunState) :
    RunState :=
  match r with
  | .error _ => w.endModule
  | .ok _ => w.endModule.send (loadedMessage moduleName trail)

section

variable {enter : Enter} {place : Place} {moduleName : String} {localName : Option String}

theorem require_cyclic (h : moduleName ∈ w.session.loading) :
    let e : LocatedError := ⟨.load (.cyclic (w.session.loading ++ [moduleName])), place.trail⟩
    Ends (require host enter place moduleName localName) w (.error e) (w.say (.error e)) := by
  refine ends_bind_get.2 ?_
  dsimp only
  rw [if_pos h]
  exact ends_fail.2 ⟨rfl, rfl⟩

variable (hfresh : moduleName ∉ w.session.loading)

include hfresh

theorem require_missing {e : LoadError} (h : host.library.load moduleName = .error e) :
    Ends (require host enter place moduleName localName) w (.error ⟨.load e, place.trail⟩)
      (w.say (.error ⟨.load e, place.trail⟩)) := by
  refine ends_bind_get.2 ?_
  dsimp only
  rw [if_neg hfresh, h]
  exact ends_fail.2 ⟨rfl, rfl⟩

theorem require_run {instrs : List Instruction} (h : host.library.load moduleName = .ok instrs) :
    (require host enter place moduleName localName).run.run w =
      (enter ⟨innerSpace place.space localName, place.trail.into moduleName⟩ instrs).run.run
        (entering w moduleName (innerSpace place.space localName)) >>= fun result =>
      .ok (result.1, leaving moduleName place.trail result.1 result.2) := by
  refine (run_bind_get _ w).trans ?_
  dsimp only
  rw [if_neg hfresh, h]
  refine (run_bind_modify _ _ _).trans ((run_bind_modify _ _ _).trans ?_)
  refine (run_bind_outcome _ _ _).trans ?_
  congr 1
  funext ⟨r, w₂⟩
  cases r <;> rfl

end

/-- A module is refused because it is being loaded or because there is no such module, or its
instructions are checked and it is left again. -/
theorem require_cases {enter : Enter} {place : Place} {moduleName : String}
    {localName : Option String} {r : Except LocatedError Unit}
    (hreq : Ends (require host enter place moduleName localName) w r w') :
    (∃ e : LocatedError, (moduleName ∈ w.session.loading ∧
        e = ⟨.load (.cyclic (w.session.loading ++ [moduleName])), place.trail⟩ ∨
      ∃ d, host.library.load moduleName = .error d ∧ e = ⟨.load d, place.trail⟩) ∧
      r = .error e ∧ w' = w.say (.error e)) ∨
    (moduleName ∉ w.session.loading ∧ ∃ instrs w₂, host.library.load moduleName = .ok instrs ∧
      Ends (enter ⟨innerSpace place.space localName, place.trail.into moduleName⟩ instrs)
        (entering w moduleName (innerSpace place.space localName)) r w₂ ∧
      w' = leaving moduleName place.trail r w₂) := by
  by_cases hmem : moduleName ∈ w.session.loading
  · obtain ⟨rfl, rfl⟩ := (require_cyclic hmem).iff.1 hreq
    exact .inl ⟨_, .inl ⟨hmem, rfl⟩, rfl, rfl⟩
  · cases hload : host.library.load moduleName with
    | error d =>
        obtain ⟨rfl, rfl⟩ := (require_missing hmem hload).iff.1 hreq
        exact .inl ⟨_, .inr ⟨d, rfl, rfl⟩, rfl, rfl⟩
    | ok instrs =>
        rw [Ends, require_run hmem hload] at hreq
        obtain ⟨⟨q, w₂⟩, henter, hlast⟩ := bind_eq_ok hreq
        obtain ⟨rfl, rfl⟩ := Prod.mk.inj (Except.ok.inj hlast)
        exact .inr ⟨hmem, instrs, w₂, rfl, henter, rfl⟩

/-- A module that is loaded was not being loaded, and its instructions end well. -/
theorem require_enters {enter : Enter} {place : Place} {moduleName : String}
    {localName : Option String}
    (hreq : Ends (require host enter place moduleName localName) w (.ok ()) w') :
    moduleName ∉ w.session.loading ∧ ∃ instrs w₂, host.library.load moduleName = .ok instrs ∧
      Ends (enter ⟨innerSpace place.space localName, place.trail.into moduleName⟩ instrs)
        (entering w moduleName (innerSpace place.space localName)) (.ok ()) w₂ ∧
      w'.session = w₂.endModule.session := by
  rcases require_cases hreq with ⟨e, -, hr, -⟩ | ⟨hfresh, instrs, w₂, hload, hends, rfl⟩
  · cases hr
  · exact ⟨hfresh, instrs, w₂, hload, hends, rfl⟩

theorem require_ends {enter : Enter} {place : Place} {moduleName : String}
    {localName : Option String}
    (hreq : Ends (require host enter place moduleName localName) w (.ok ()) w') :
    Entered host enter place moduleName localName w w' := by
  obtain ⟨hfresh, instrs, w₂, hload, hinner, hw'⟩ := require_enters hreq
  exact ⟨hfresh, instrs, _, entering w moduleName _, w₂, hload, rfl, hinner, hw'⟩

end Session

end LambdaPi
