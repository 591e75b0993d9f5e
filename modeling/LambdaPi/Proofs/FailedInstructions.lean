import Mathlib
import LambdaPi.Proofs.CircularProofs

/-!
# Instructions that fail

A command checks what it is given before it changes anything, with two exceptions: a declaration
enters its symbol and then adds the rule that unfolds the definition, and a rule is added before the
theorem it proves is marked. These last steps cannot fail. Over a signature that commands have built,
a rule without arguments can always be added to a declared symbol, whatever flags and rules the
symbol got before (`Signature.Reachable.exists_addRule`), and a symbol that has rules added to it
stays declared. So a command that fails leaves the session as it was (`Session.command_error`).

This rests on an invariant of runs. `Session.Reached` lists the states that a session gets into:
before and after instructions, whether they end well or not, and inside modules that are being
loaded. What every command keeps, however it ends, holds in all of them
(`Session.Reached.invariant`).
-/

namespace LambdaPi

/-! ## Steps that cannot fail -/

namespace Signature

variable {P : Rule → Prop} {σ σ' : Signature}

/-- A rule for a declared symbol can be added if its own patterns can be compiled. -/
theorem Reachable.exists_addRule (hσ : σ.Reachable P) (rule : Rule)
    (hhead : σ.declares rule.head = true) (hpatterns : ∀ p ∈ rule.args, PatternAt 0 p) :
    ∃ σ', σ.addRule rule = .ok σ' := by
  have hcoh := hσ.coherent rule.head
  obtain ⟨cell, hcell⟩ : ∃ cell,
      treeUpTo (((σ.ruleSet? rule.head).getD {}).rules ++ [rule]) rule.arity = .ok cell := by
    refine LambdaPi.exists_treeUpTo (s := rule.head) ?_ ?_ rule.arity
    · intro r hr
      rcases List.mem_append.1 hr with hr | hr
      · exact hcoh.head r hr
      · rw [List.mem_singleton.1 hr]
    · intro r hr
      rcases List.mem_append.1 hr with hr | hr
      · exact hcoh.patterns r hr
      · rw [List.mem_singleton.1 hr]
        exact hpatterns
  rw [Signature.addRule, if_pos hhead, RuleSet.addRule_eq, hcell]
  exact ⟨_, rfl⟩

theorem declares_of_declare {s : Symbol} {A : Term} {obligation : Bool}
    (h : σ.declare s A obligation = .ok σ') : σ'.declares s = true := by
  refine mem_symbols_iff.1 ?_
  rw [(symbols_of_declare h).1]
  exact List.mem_append_right _ (List.mem_singleton_self s)

/-- The theorem that a rule proves is still there to be marked once the rule is added. -/
theorem exists_setProven {rule : Rule} {A : Term} (htheorem : Session.theoremOf? σ rule = some A)
    (hrule : σ.addRule rule = .ok σ') : ∃ σ'', σ'.setProven rule.head = .ok σ'' := by
  have hentry := entry?_of_addRule hrule rule.head
  unfold Session.theoremOf? at htheorem
  split at htheorem
  · next e he =>
    rw [setProven, hentry, he]
    exact ⟨_, rfl⟩
  · cases htheorem

end Signature

/-! ## Commands that fail -/

namespace Attempt

variable {ε α β : Type} {w w' : RunState}

/-- A change of the signature that fails changes nothing. -/
theorem Ends.change_error {f : Signature → Except SignatureError Signature} {e : Error}
    (h : Ends (Attempt.change f) w (.error e) w') : w' = w := by
  have h := ends_bind_signature.1 h
  split at h
  · cases (ends_modify.1 h).1
  · exact (ends_throw.1 h).2

theorem ends_addRule {rule : Rule} {σ : Signature}
    (h : w.session.signature.addRule rule = .ok σ) :
    Ends (Attempt.addRule rule) w (.ok ())
      { w with
        session := { w.session with signature := σ }, journal := w.journal.ruleAdded rule } :=
  (ends_change (f := (·.addRule rule)) h).andThen (ends_modify.2 ⟨rfl, rfl⟩)

theorem Ends.addRule_error {rule : Rule} {e : Error}
    (h : Ends (Attempt.addRule rule) w (.error e) w') : w' = w := by
  rcases ends_bind.1 h with ⟨a, w₁, -, h⟩ | ⟨e', h, -⟩
  · cases (ends_modify.1 h).1
  · exact h.change_error

/-- What follows an attempt by an answer fails only if the attempt does. -/
theorem Ends.bind_pure_error {x : Attempt ε α} {f : α → β} {e : ε}
    (h : Ends (x >>= fun a => pure (f a)) w (.error e) w') : x.Ends w (.error e) w' := by
  rcases ends_bind.1 h with ⟨a, w₁, -, h⟩ | ⟨e', h, he⟩
  · cases (ends_pure.1 h).1
  · obtain rfl := Except.error.inj he
    exact h

/-- The attempt ends well in the given state. -/
def Succeeds (x : Attempt ε α) (w : RunState) : Prop :=
  ∃ a w', x.Ends w (.ok a) w'

theorem succeeds_pure (a : α) : Succeeds (pure a : Attempt ε α) w :=
  ⟨a, w, ends_pure.2 ⟨rfl, rfl⟩⟩

theorem Ends.succeeds_bind {x : Attempt ε α} {f : α → Attempt ε β} {a : α}
    (hx : x.Ends w (.ok a) w') (hf : (f a).Succeeds w') : Succeeds (x >>= f) w := by
  obtain ⟨b, w₁, hb⟩ := hf
  exact ⟨b, w₁, hx.andThen hb⟩

theorem Succeeds.not_error {x : Attempt ε α} {e : ε} (h : x.Succeeds w) :
    ¬ x.Ends w (.error e) w' := by
  intro herror
  obtain ⟨a, w₁, hok⟩ := h
  cases (hok.iff.1 herror).1

end Attempt

namespace Session

open Attempt Signature

variable {P : Rule → Prop} {host : Host} {w w' : RunState}

/-- A declaration that gets as far as entering its symbol ends well. -/
theorem declare_succeeds (hσ : w.session.signature.Reachable P) {d : Declaration} {A : Term}
    {w₁ : RunState} {σ : Signature} (htype : Ends (declaredType host d) w (.ok A) w₁)
    (hdecl : w.session.signature.declare ⟨d.name⟩ A d.isOpen = .ok σ) :
    Succeeds (declare host d) w := by
  have hsame := declaredType_session htype
  -- a definition has no patterns, so its rule can be added, whatever rules there are
  refine htype.succeeds_bind ?_
  refine (ends_change (hsame ▸ hdecl)).succeeds_bind ?_
  split
  · refine (ends_change (f := fun σ => .ok (σ.declareConstant ⟨d.name⟩)) rfl).succeeds_bind ?_
    exact succeeds_pure _
  · split
    · next t _ =>
      obtain ⟨σ', hrule⟩ := (hσ.declare hdecl).exists_addRule
        (.ofDefinition (d.name ++ "_def") ⟨d.name⟩ t) (declares_of_declare hdecl)
        (fun _ hp => absurd hp List.not_mem_nil)
      refine (ends_addRule hrule).succeeds_bind ?_
      split <;> exact succeeds_pure _
    · split <;> exact succeeds_pure _

theorem declare_error (hσ : w.session.signature.Reachable P) {d : Declaration} {e : Error}
    (h : Ends (declare host d) w (.error e) w') : w'.session = w.session := by
  rcases ends_bind.1 h with ⟨A, w₁, htype, hrest⟩ | ⟨e', htype, -⟩
  · rcases ends_bind.1 hrest with ⟨_, w₂, hchange, -⟩ | ⟨e', hchange, -⟩
    · obtain ⟨σ, hdecl, -⟩ := hchange.change
      rw [declaredType_session htype] at hdecl
      exact absurd h (declare_succeeds hσ htype hdecl).not_error
    · rw [hchange.change_error, declaredType_session htype]
  · exact declaredType_session htype

/-- A rule that gets as far as being added ends well. -/
theorem introduceRule_succeeds {name : String} {lhs rhs : Term} {rule : Rule} {σ : Signature}
    (hsides : Rule.ofSides name lhs rhs = .ok rule)
    (htyped : ∀ A, theoremOf? w.session.signature rule = some A →
      (w.session.signature.check host.budget [] rule.rhs A).run.value = some (.ok ()))
    (hrule : w.session.signature.addRule rule = .ok σ) :
    Succeeds (introduceRule host name lhs rhs) w := by
  unfold introduceRule
  simp only [hsides, pure_bind]
  refine (ends_signature.2 ⟨rfl, rfl⟩).succeeds_bind ?_
  split
  · next A htheorem =>
    obtain ⟨σ', hproven⟩ := exists_setProven htheorem hrule
    refine (ends_typing (htyped A htheorem)).succeeds_bind ?_
    refine (ends_addRule (σ := σ) ?_).succeeds_bind ?_
    · exact hrule
    · exact (ends_change hproven).succeeds_bind (succeeds_pure _)
  · exact (ends_addRule hrule).succeeds_bind (succeeds_pure _)

theorem introduceRule_error {name : String} {lhs rhs : Term} {e : Error}
    (h : Ends (introduceRule host name lhs rhs) w (.error e) w') : w'.session = w.session := by
  have hfull := h
  unfold introduceRule at h
  split at h
  case h_2 => rw [(ends_throw.1 h).2]
  case h_1 rule hsides =>
    simp only [pure_bind] at h
    have h := ends_bind_signature.1 h
    split at h
    · next A htheorem =>
      rcases ends_bind.1 h with ⟨_, w₁, hcheck, hrest⟩ | ⟨e', hcheck, -⟩
      · rcases ends_bind.1 hrest with ⟨_, w₂, hadd, -⟩ | ⟨e', hadd, -⟩
        · have hrule := addRule_ends hadd
          rw [typing_session hcheck] at hrule
          refine absurd hfull (introduceRule_succeeds hsides ?_ hrule).not_error
          intro B hB
          obtain rfl := Option.some.inj (htheorem.symm.trans hB)
          exact hcheck.typing
        · rw [hadd.addRule_error, typing_session hcheck]
      · exact typing_session hcheck
    · rw [h.bind_pure_error.addRule_error]

/-- A command that fails leaves the session as it was. -/
theorem command_error (hσ : w.session.signature.Reachable P) {c : Command} {e : Error}
    (hc : Ends (command host c) w (.error e) w') : w'.session = w.session := by
  have h := ends_bind_signature.1 hc
  cases c with
  | declare d => exact declare_error hσ h.bind_pure_error
  | constant name => rw [h.bind_pure_error.change_error]
  | injective name => rw [h.bind_pure_error.change_error]
  | rule name lhs rhs => exact introduceRule_error h.bind_pure_error
  | require moduleName localName => rw [(ends_throw.1 h).2]
  | debugOn => cases (ends_modify.1 (ends_bind_get.1 h).bind_pure_error).1
  | debugOff =>
      have h := ends_bind_get.1 h
      split at h
      · cases (ends_modify.1 h.bind_pure_error).1
      · cases (ends_pure.1 h).1
  | eval | infer | check | compare | print | trees | clock => exact query_session rfl hc

/-! ## Instructions, however they end -/

/-- An instruction that does not ask for a module ends as its command does. -/
theorem instruct_outcome {enter : Enter} {place : Place} {i : Instruction}
    {r : Except LocatedError Unit}
    (hi : ∀ moduleName localName, i.command ≠ .require moduleName localName)
    (hins : Ends (instruct host enter place i) w r w') :
    ∃ q w₁, Ends (command host (Moment.command ⟨place, i, w⟩)) (noting w i.line) q w₁ ∧
      w'.session = w₁.session ∧ (r.isOk = q.isOk) := by
  obtain ⟨q, w₁, hcommand, hafter⟩ := report_cases ((instruct_eq_report hi).symm.trans hins)
  refine ⟨q, w₁, hcommand, ?_⟩
  rcases hafter with ⟨e, rfl, rfl, rfl⟩ | ⟨rfl, rfl, rfl⟩ | ⟨m, rfl, rfl, rfl⟩ <;> exact ⟨rfl, rfl⟩

theorem instruct_succeeds {enter : Enter} {place : Place} {i : Instruction}
    (hi : ∀ moduleName localName, i.command ≠ .require moduleName localName)
    (h : Succeeds (command host (Moment.command ⟨place, i, w⟩)) (noting w i.line)) :
    ∃ w', Ends (instruct host enter place i) w (.ok ()) w' := by
  obtain ⟨m, w₁, hcommand⟩ := h
  suffices hsucceeds : Succeeds (instruct host enter place i) w by
    obtain ⟨⟨⟩, w', hw'⟩ := hsucceeds
    exact ⟨w', hw'⟩
  refine Ends.succeeds_bind (ends_modify.2 ⟨rfl, rfl⟩) ?_
  refine Ends.succeeds_bind (ends_signature.2 ⟨rfl, rfl⟩) ?_
  dsimp only
  split
  · next hscoped => exact absurd (command_scope_require hscoped) (hi _ _)
  · refine Ends.succeeds_bind (ends_outcome.2 ⟨_, rfl, hcommand⟩) ?_
    cases m with
    | none => exact succeeds_pure _
    | some m => exact ⟨_, _, ends_modify.2 ⟨rfl, rfl⟩⟩

theorem isQuery_command (m : Moment) : m.command.isQuery = m.instruction.command.isQuery := by
  unfold Moment.command
  cases m.instruction.command <;> rfl

/-! ## States of a session -/

/-- The states that a session gets into: fresh, after an instruction, at the beginning of a module
that is asked for, and where the theorems of a space are found unproven. -/
inductive Reached : RunState → Prop
  | fresh {eta journal} : Reached { session := { signature := { eta } }, journal }
  | instructed {host nesting place i w r w'} : Reached w →
      Ends (instruct host (instructAll host nesting) place i) w r w' → Reached w'
  | entered {w line moduleName space} : Reached w →
      Reached (entering (noting w line) moduleName space)
  | unproven {w e trail} : Reached w → Reached (w.say (.error ⟨.signature e, trail⟩))

/-- A run leads from states of a session to states of a session, whether it ends well or not. -/
theorem Reached.checkInstructions {place : Place} {instrs : List Instruction}
    {r : Except LocatedError Unit} (hw : Reached w)
    (h : w.checkInstructions host place instrs = .ok (r, w')) : Reached w' := by
  have hinstrs : Keeps Reached
      (instrs.forM (instruct host (instructAll host (w.nesting host)) place)) :=
    Keeps.forM (fun i _ _ _ hi hw => .instructed hw hi) instrs
  rcases ends_bind.1 h with ⟨_, w₁, h₁, hclose⟩ | ⟨e, h₁, -⟩
  · have hw₁ := hinstrs h₁ hw
    have hclose := ends_bind_signature.1 hclose
    split at hclose
    · rwa [(ends_pure.1 hclose).2]
    · rw [(ends_fail.1 hclose).2]
      exact .unproven hw₁
  · exact hinstrs h₁ hw

/-- What instructions do around their commands keeps the property: notes in the journal, the beginning
and the end of modules, messages and errors. -/
structure KeptAround (K : RunState → Prop) : Prop where
  journal : IgnoresJournal K
  beginModule : ∀ w moduleName, K w → K (w.beginModule moduleName)
  endModule : ∀ w, K w → K w.endModule
  send : ∀ w m, K w → K (w.send m)
  fail : ∀ w e, K w → K (w.say (.error e))

section

variable {K : RunState → Prop} (hK : KeptAround K)

include hK

theorem require_keeps {enter : Enter} (henter : ∀ place instrs, Keeps K (enter place instrs))
    (place : Place) (moduleName : String) (localName : Option String) :
    Keeps K (require host enter place moduleName localName) := by
  refine keeps_get.bind fun w => ?_
  dsimp only
  split
  · exact keeps_fail hK.fail _
  · split
    · exact keeps_fail hK.fail _
    · refine (keeps_modify fun w hw => hK.journal w _ hw).bind fun _ => ?_
      refine (keeps_modify fun w hw => hK.beginModule w _ hw).bind fun _ => ?_
      refine (keeps_outcome (henter _ _)).bind fun result => ?_
      refine (keeps_modify fun w hw => hK.endModule w hw).bind fun _ => ?_
      cases result with
      | error e => exact keeps_throw e
      | ok u => exact keeps_modify fun w hw => hK.send w _ hw

variable (hcommand : ∀ c, Keeps K (command host c))

include hcommand

theorem instruct_keeps {enter : Enter} (henter : ∀ place instrs, Keeps K (enter place instrs))
    (place : Place) (i : Instruction) : Keeps K (instruct host enter place i) := by
  refine (keeps_modify fun w hw => hK.journal w _ hw).bind fun _ => ?_
  refine keeps_signature.bind fun σ => ?_
  dsimp only
  split
  · exact require_keeps hK henter _ _ _
  · refine (keeps_outcome (hcommand _)).bind fun q => ?_
    rcases q with e | _ | m
    · exact keeps_fail hK.fail _
    · exact keeps_pure _
    · exact keeps_modify fun w hw => hK.send w _ hw

/-- What every command keeps is kept by whole modules, by induction on how deep they are nested. -/
theorem instructAll_keeps (nesting : Nat) (place : Place) (instrs : List Instruction) :
    Keeps K (instructAll host nesting place instrs) := by
  induction nesting generalizing place instrs with
  | zero =>
      intro w r w' h
      cases h
  | succ nesting ih =>
      refine (Keeps.forM (instruct_keeps hK hcommand ih place) instrs).bind fun _ => ?_
      refine keeps_signature.bind fun σ => ?_
      split
      · exact keeps_pure _
      · exact keeps_fail hK.fail _

end

theorem keptAround_signature (J : Signature → Prop) :
    KeptAround fun w => J w.session.signature :=
  ⟨fun _ _ h => h, fun _ _ h => h, fun _ h => h, fun _ _ h => h, fun _ _ h => h⟩

/-- What every command keeps, however it ends, holds in every state that a session gets into. -/
theorem Reached.invariant {J : Signature → Prop}
    (hJ : ∀ host c, Keeps (fun w => J w.session.signature) (command host c))
    (hfresh : ∀ eta, J { eta }) (hw : Reached w) : J w.session.signature := by
  have hK := keptAround_signature J
  induction hw with
  | fresh => exact hfresh _
  | @instructed host nesting place i w r w' _ h ih =>
      have hinside := instructAll_keeps hK (hJ host) nesting
      exact instruct_keeps hK (hJ host) hinside place i h ih
  | entered _ ih => exact ih
  | unproven _ ih => exact ih

theorem Reached.reachable (hw : Reached w) : w.session.signature.Reachable Rule.Admissible := by
  refine hw.invariant ?_ fun eta => .eta eta .empty
  intro host c w r w' h hσ
  cases r with
  | error e =>
      rw [command_error hσ h]
      exact hσ
  | ok m => exact (command_effect h).reachable hσ

/-! ## Failing and asking -/

/-- An instruction that fails, or only asks, leaves the session as it was. A declaration does not
fail once its symbol is entered, and a rule does not fail once it is added. -/
theorem checkInstruction_leaves_session (hw : Reached w) (place : Place) {i : Instruction}
    (hi : ∀ moduleName localName, i.command ≠ .require moduleName localName) :
    (∀ e w', w.checkInstruction host place i = .ok (.error e, w') → w'.session = w.session) ∧
    (i.command.isQuery = true →
      ∀ r w', w.checkInstruction host place i = .ok (r, w') → w'.session = w.session) ∧
    (∀ d A w₁ σ, Moment.command ⟨place, i, w⟩ = .declare d →
      Ends (declaredType host d) (noting w i.line) (.ok A) w₁ →
      w.session.signature.declare ⟨d.name⟩ A d.isOpen = .ok σ →
      ∃ w', w.checkInstruction host place i = .ok (.ok (), w')) ∧
    ∀ name lhs rhs rule σ, Moment.command ⟨place, i, w⟩ = .rule name lhs rhs →
      Rule.ofSides name lhs rhs = .ok rule →
      (∀ A, theoremOf? w.session.signature rule = some A →
        (w.session.signature.check host.budget [] rule.rhs A).run.value = some (.ok ())) →
      w.session.signature.addRule rule = .ok σ →
      ∃ w', w.checkInstruction host place i = .ok (.ok (), w') := by
  refine ⟨?_, ?_, ?_, ?_⟩
  · intro e w' h
    obtain ⟨q, w₁, hcommand, hw', hq⟩ := instruct_outcome hi h
    cases q with
    | ok m => cases hq
    | error e' =>
        rw [hw']
        exact command_error (w := noting w i.line) hw.reachable hcommand
  · intro hquery r w' h
    obtain ⟨q, w₁, hcommand, hw', -⟩ := instruct_outcome hi h
    rw [← isQuery_command ⟨place, i, w⟩] at hquery
    exact hw'.trans (query_session hquery (w := noting w i.line) hcommand)
  · intro d A w₁ σ hd htype hdecl
    refine instruct_succeeds hi ?_
    obtain ⟨m, w₂, hends⟩ := declare_succeeds (w := noting w i.line) hw.reachable htype hdecl
    rw [hd]
    exact Ends.succeeds_bind (ends_signature.2 ⟨rfl, rfl⟩) (hends.succeeds_bind (succeeds_pure _))
  · intro name lhs rhs rule σ hc hsides htyped hrule
    refine instruct_succeeds hi ?_
    obtain ⟨m, w₂, hends⟩ : Succeeds (introduceRule host name lhs rhs) (noting w i.line) :=
      introduceRule_succeeds hsides htyped hrule
    rw [hc]
    exact Ends.succeeds_bind (ends_signature.2 ⟨rfl, rfl⟩) (hends.succeeds_bind (succeeds_pure _))

/-- A symbol is flagged before it is declared, and its definition is the first rule it gets. -/
def flagged : List Instruction :=
  [⟨1, .injective "c"⟩, ⟨2, .declare (openTheorem "t")⟩,
   ⟨3, .declare ⟨"c", none, some (.symb ⟨"t"⟩), false, false⟩⟩]

/-- The two sides are fine, but no tree can look for a sort among the arguments. -/
def unmatchable : Instruction :=
  ⟨4, .rule "r" (.appl (.symb ⟨"c"⟩) .type) (.symb ⟨"t"⟩)⟩

/-- How an attempt fails, if it does. -/
def failure? (x : Attempt LocatedError Unit) (w : RunState) : Option LocatedError :=
  match x.run.run w with
  | .ok (.error e, _) => some e
  | _ => none

theorem ends_of_failure? {x : Attempt LocatedError Unit} (h : (failure? x w).isSome = true) :
    ∃ e, Ends x w (.error e) (final x w) := by
  unfold failure? at h
  split at h
  · next e _ hx => exact ⟨e, by simp [Ends, final, hx]⟩
  · cases h

/-- The state in which the definition is in place. The theorem is not proven, so the run that leads
there fails in the end. -/
def definedState : RunState :=
  final (instructAll school (RunState.nesting school {} + 1) {} flagged) {}

theorem reached_definedState : Reached definedState := by
  obtain ⟨e, he⟩ : ∃ e, Ends _ {} (.error e) definedState := ends_of_failure? (by cbv)
  exact Reached.fresh.checkInstructions he

theorem checkInstruction_leaves_session_unmatchable :
    ∃ e w', definedState.checkInstruction school {} unmatchable = .ok (.error e, w') ∧
      definedState.session.signature.rulesOf ⟨"c"⟩ ≠ [] ∧ w'.session = definedState.session := by
  obtain ⟨e, he⟩ : ∃ e, Ends (carryOut unmatchable) definedState (.error e) _ :=
    ends_of_failure? (by cbv)
  have hrules : (definedState.session.signature.rulesOf ⟨"c"⟩).length = 1 := by cbv
  have hi : ∀ moduleName localName, unmatchable.command ≠ .require moduleName localName := by
    intro moduleName localName h
    cases h
  refine ⟨e, _, he, ?_, (checkInstruction_leaves_session reached_definedState {} hi).1 e _ he⟩
  intro hnil
  rw [hnil] at hrules
  cases hrules

end Session

end LambdaPi
