import LambdaPi.Proofs.Attempts
import LambdaPi.Proofs.Likeness.Signatures
import LambdaPi.Proofs.Likeness.Typing

/-!
# Commands in sessions that are alike

Sessions are alike if their signatures correspond, in whichever way like changes preserve, and they
have sent the same news (`RunState.LikeBy`). A like command does the same to both: it ends well in both
or in neither, what it leaves behind is alike again, and if it fails, it fails for the same reason
(`Session.command_like`).

The wording of messages and the journal are left out of account, except for the level of detail,
which debugging switches.
-/

namespace LambdaPi

/-! ## Messages, errors and states -/

/-- The same news from the same place, in whatever words. -/
structure Message.Like (m n : Message) : Prop where
  severity : m.severity = n.severity
  title : m.title = n.title
  trail : m.trail = n.trail

/-- The same reason to refuse like commands. -/
inductive Error.Like (L : Likeness) : Error → Error → Prop
  | rule {e d} : e.Like L d → Like L (.rule e) (.rule d)
  | tree {e d} : e.Like L d → Like L (.tree e) (.tree d)
  | signature {e d} : e.Like L d → Like L (.signature e) (.signature d)
  | typing {e d} : e.Like L d → Like L (.typing e) (.typing d)
  | load {e} : Like L (.load e) (.load e)
  | emptyDeclaration {a b} : L.symbol ⟨a⟩ ⟨b⟩ → Like L (.emptyDeclaration a) (.emptyDeclaration b)

/-- The same reason at the same place. -/
structure LocatedError.Like (L : Likeness) (e d : LocatedError) : Prop where
  error : e.error.Like L d.error
  trail : e.trail = d.trail

/-- Corresponding signatures, and the same as far as it is not a matter of words. -/
structure RunState.LikeBy (S : Signature → Signature → Prop) (w v : RunState) : Prop where
  signature : S w.session.signature v.session.signature
  loading : w.session.loading = v.session.loading
  savedLevel : w.session.savedLevel = v.session.savedLevel
  level : w.journal.level = v.journal.level
  messages : List.Forall₂ Message.Like w.messages v.messages

/-- Signatures that correspond row by row, and the same as far as it is not a matter of words. -/
abbrev RunState.Like (L : Likeness) : RunState → RunState → Prop :=
  RunState.LikeBy (Signature.Aligned L)

namespace Journal

theorem level_write (j : Journal) (r : Record) : (j.write r).level = j.level := by
  unfold write
  split <;> rfl

theorem level_writeAll (j : Journal) (records : List Record) :
    (records.foldl write j).level = j.level := by
  induction records generalizing j with
  | nil => rfl
  | cons r records ih => rw [List.foldl_cons, ih, level_write]

theorem level_observe (j : Journal) (e : Event) : (j.observe e).level = j.level := by
  unfold observe
  split
  · split
    · rfl
    · exact level_writeAll j _
  · exact level_writeAll j _

theorem level_absorb (j : Journal) (t : Trace) : (j.absorb t).level = j.level := by
  unfold absorb
  induction t generalizing j with
  | nothing => rfl
  | event e => exact level_observe j e
  | andThen t u iht ihu => rw [Trace.foldl, ihu, iht]

end Journal

namespace RunState

variable {S : Signature → Signature → Prop} {w v : RunState}

theorem LikeBy.withJournal (h : w.LikeBy S v) {j k : Journal} (hj : j.level = w.journal.level)
    (hk : k.level = v.journal.level) :
    RunState.LikeBy S { w with journal := j } { v with journal := k } :=
  ⟨h.signature, h.loading, h.savedLevel, hj.trans (h.level.trans hk.symm), h.messages⟩

theorem LikeBy.withSignature (h : w.LikeBy S v) {σ τ : Signature} (hσ : S σ τ) :
    RunState.LikeBy S { w with session := { w.session with signature := σ } }
      { v with session := { v.session with signature := τ } } :=
  ⟨hσ, h.loading, h.savedLevel, h.level, h.messages⟩

theorem LikeBy.send (h : w.LikeBy S v) {m n : Message} (hm : m.Like n) :
    (w.send m).LikeBy S (v.send n) :=
  ⟨h.signature, h.loading, h.savedLevel, h.level, .cons hm h.messages⟩

theorem LikeBy.say (h : w.LikeBy S v) (u u' : Utterance) : (w.say u).LikeBy S (v.say u') :=
  ⟨h.signature, h.loading, h.savedLevel, h.level, h.messages⟩

theorem LikeBy.setLevel (h : w.LikeBy S v) (level : Level) (saved : Option Level) :
    RunState.LikeBy S
      { w with
        session := { w.session with savedLevel := saved }, journal := { w.journal with level } }
      { v with
        session := { v.session with savedLevel := saved }, journal := { v.journal with level } } :=
  ⟨h.signature, h.loading, rfl, rfl, h.messages⟩

end RunState

/-! ## Steps that are taken alike -/

/-- Neither run has a result, for the same lack, or both have one and the results are related. -/
abbrev EndedBy {α β : Type} (S : Signature → Signature → Prop) (R : α → β → Prop) :
    Except Exhausted (α × RunState) → Except Exhausted (β × RunState) → Prop :=
  ExceptRel Eq fun p q => R p.1 q.1 ∧ p.2.LikeBy S q.2

/-- The same, with signatures that correspond row by row. -/
abbrev EndedLike {α β : Type} (L : Likeness) (R : α → β → Prop) :
    Except Exhausted (α × RunState) → Except Exhausted (β × RunState) → Prop :=
  ExceptRel Eq fun p q => R p.1 q.1 ∧ p.2.Like L q.2

/-- From like states the runs end alike. -/
def Run.Related {α β : Type} (S : Signature → Signature → Prop) (R : α → β → Prop) (x : Run α)
    (y : Run β) : Prop :=
  ∀ ⦃w v⦄, w.LikeBy S v → EndedBy S R (x.run w) (y.run v)

namespace Run.Related

variable {α β γ δ : Type} {S : Signature → Signature → Prop} {R : α → β → Prop}
  {T : γ → δ → Prop}

theorem pure {a : α} {b : β} (h : R a b) : Related S R (Pure.pure a) (Pure.pure b) :=
  fun _ _ hw => .ok ⟨h, hw⟩

theorem bind {x : Run α} {y : Run β} {f : α → Run γ} {g : β → Run δ} (hx : Related S R x y)
    (hf : ∀ a b, R a b → Related S T (f a) (g b)) : Related S T (x >>= f) (y >>= g) := by
  intro w v hw
  rw [StateT.run_bind, StateT.run_bind]
  exact (hx hw).bind fun p q hpq => hf p.1 q.1 hpq.1 hpq.2

theorem update {f g : RunState → RunState} (h : ∀ w v, w.LikeBy S v → (f w).LikeBy S (g v)) :
    Related S Eq (modify f) (modify g) :=
  fun w v hw => .ok ⟨rfl, h w v hw⟩

theorem signature : Related S S Run.signature Run.signature :=
  fun _ _ hw => .ok ⟨hw.signature, hw⟩

theorem tell (e e' : Event) : Related S Eq (Run.tell e) (Run.tell e') :=
  update fun _ _ hw => hw.withJournal (Journal.level_observe ..) (Journal.level_observe ..)

theorem compute {x : Traced α} {y : Traced β} (h : x.Related R y) :
    Related S R (Run.compute x) (Run.compute y) := by
  refine bind (update ?_) fun _ _ _ => ?_
  · intro w v hw
    exact hw.withJournal (Journal.level_absorb ..) (Journal.level_absorb ..)
  · unfold Traced.Related at h
    generalize x.value = a, y.value = b at h
    cases h with
    | none => exact fun w v hw => .error rfl
    | some hab => exact .pure hab

end Run.Related

namespace Attempt

variable {ε δ α β γ κ : Type} {S : Signature → Signature → Prop} {E : ε → δ → Prop}
  {R : α → β → Prop} {T : γ → κ → Prop}

/-- From like states the attempts end alike: with related answers, or with related errors. -/
def Related (S : Signature → Signature → Prop) (E : ε → δ → Prop) (R : α → β → Prop)
    (x : Attempt ε α) (y : Attempt δ β) : Prop :=
  Run.Related S (ExceptRel E R) x.run y.run

theorem Related.pure {a : α} {b : β} (h : R a b) : Related S E R (Pure.pure a) (Pure.pure b) :=
  fun _ _ hw => .ok ⟨.ok h, hw⟩

theorem Related.throw {e : ε} {d : δ} (h : E e d) :
    Related S E R (MonadExcept.throw e) (MonadExcept.throw d) :=
  fun _ _ hw => .ok ⟨.error h, hw⟩

theorem Related.fail {E : LocatedError → LocatedError → Prop} {e d : LocatedError} (h : E e d) :
    Related S E R (Attempt.fail e) (Attempt.fail d) :=
  fun _ _ hw => .ok ⟨.error h, hw.say _ _⟩

theorem Related.bind {x : Attempt ε α} {y : Attempt δ β} {f : α → Attempt ε γ}
    {g : β → Attempt δ κ} (hx : Related S E R x y)
    (hf : ∀ a b, R a b → Related S E T (f a) (g b)) : Related S E T (x >>= f) (y >>= g) := by
  refine Run.Related.bind hx fun p q hpq => ?_
  cases hpq with
  | error he => exact .pure (.error he)
  | ok hab => exact hf _ _ hab

/-- What comes after attempts that end alike ends alike if it does so where both of them end well. -/
theorem endedBy_bind {x : Attempt ε α} {y : Attempt δ β} {f : α → Attempt ε γ}
    {g : β → Attempt δ κ} {w v : RunState}
    (h : EndedBy S (ExceptRel E R) (x.run.run w) (y.run.run v))
    (hfg : ∀ a b w' v', x.Ends w (.ok a) w' → y.Ends v (.ok b) v' → R a b → w'.LikeBy S v' →
      EndedBy S (ExceptRel E T) ((f a).run.run w') ((g b).run.run v')) :
    EndedBy S (ExceptRel E T) ((x >>= f).run.run w) ((y >>= g).run.run v) := by
  rw [run_bind, run_bind]
  generalize hx : x.run.run w = p, hy : y.run.run v = q at h
  cases h with
  | error he => exact .error he
  | @ok p q hpq =>
      obtain ⟨r, w'⟩ := p
      obtain ⟨s, v'⟩ := q
      obtain ⟨hrs, hw'⟩ := hpq
      cases hrs with
      | error he => exact .ok ⟨.error he, hw'⟩
      | ok hab => exact hfg _ _ _ _ hx hy hab hw'

theorem Related.lift {x : Run α} {y : Run β} (hx : Run.Related S R x y) :
    Related S E R (liftM x : Attempt ε α) (liftM y : Attempt δ β) :=
  Run.Related.bind hx fun _ _ hab => .pure (.ok hab)

theorem Related.get {f : RunState → Attempt ε γ} {g : RunState → Attempt δ κ}
    (h : ∀ w v, w.LikeBy S v → Related S E T (f w) (g v)) :
    Related S E T (MonadState.get >>= f) (MonadState.get >>= g) :=
  fun w v hw => h w v hw hw

theorem Related.outcome {x : Attempt ε α} {y : Attempt δ β} (hx : Related S E R x y)
    {E' : γ → κ → Prop} :
    Related S E' (ExceptRel E R) (Attempt.outcome x) (Attempt.outcome y) :=
  .lift hx

theorem Related.typing {L : Likeness} {x : Typed α} {y : Typed β}
    (h : x.Related (TypingError.Like L) R y) :
    Related S (Error.Like L) R (Attempt.typing x) (Attempt.typing y) := by
  refine .bind (.lift (.compute h)) fun p q hpq => ?_
  cases hpq with
  | error he => exact .throw (.typing he)
  | ok hab => exact .pure hab

theorem Related.change {L : Likeness} {f g : Signature → Except SignatureError Signature}
    (h : ∀ σ τ, S σ τ → ChangeLike L S (f σ) (g τ)) :
    Related S (Error.Like L) Eq (Attempt.change f) (Attempt.change g) := by
  refine .bind (.lift .signature) fun σ τ hσ => ?_
  have hchange := h σ τ hσ
  generalize f σ = p, g τ = q at hchange
  cases hchange with
  | error he => exact .throw (.signature he)
  | ok hσ' => exact .lift (.update fun _ _ hw => hw.withSignature hσ')

theorem Related.addRule {L : Likeness} (hS : Signature.Correspondence L S) {rule rule' : Rule}
    (hrule : rule.Like L rule') :
    Related S (Error.Like L) Eq (Attempt.addRule rule) (Attempt.addRule rule') := by
  refine .bind (.change fun σ τ hσ => hS.addRule hσ hrule) fun _ _ _ => ?_
  exact .lift (.update fun _ _ hw => hw.withJournal rfl rfl)

end Attempt

/-! ## Commands -/

/-- Declarations of corresponding symbols by like terms. The names are given by `N`. -/
structure Declaration.Like (L : Likeness) (N : String → String → Prop) (d c : Declaration) :
    Prop where
  name : N d.name c.name
  type : Option.Rel (Term.Like L) d.type c.type
  body : Option.Rel (Term.Like L) d.body c.body
  constant : d.constant = c.constant
  isTheorem : d.isTheorem = c.isTheorem

/-- Commands that ask the same of like terms. Names of symbols are related by `N` and labels of rules
by `B`. -/
inductive Command.Like (L : Likeness) (N B : String → String → Prop) : Command → Command → Prop
  | declare {d c} : d.Like L N c → Like L N B (.declare d) (.declare c)
  | constant {a b} : N a b → Like L N B (.constant a) (.constant b)
  | injective {a b} : N a b → Like L N B (.injective a) (.injective b)
  | rule {a b lhs lhs' rhs rhs'} : B a b → lhs.Like L lhs' → rhs.Like L rhs' →
      Like L N B (.rule a lhs rhs) (.rule b lhs' rhs')
  | eval {Γ Δ t u} : Context.Like L Γ Δ → t.Like L u → Like L N B (.eval Γ t) (.eval Δ u)
  | infer {Γ Δ t u} : Context.Like L Γ Δ → t.Like L u → Like L N B (.infer Γ t) (.infer Δ u)
  | check {Γ Δ t u A A'} : Context.Like L Γ Δ → t.Like L u → A.Like L A' →
      Like L N B (.check Γ t A) (.check Δ u A')
  | compare {Γ Δ t t' u u' convertible} : Context.Like L Γ Δ → t.Like L t' → u.Like L u' →
      Like L N B (.compare Γ t u convertible) (.compare Δ t' u' convertible)
  | print {t u} : t.Like L u → Like L N B (.print t) (.print u)
  | trees {a b} : N a b → Like L N B (.trees a) (.trees b)
  | clock : Like L N B .clock .clock
  | require {m l} : Like L N B (.require m l) (.require m l)
  | debugOn : Like L N B .debugOn .debugOn
  | debugOff : Like L N B .debugOff .debugOff

/-- Commands about corresponding symbols, as they are carried out. -/
abbrev Command.LikeIn (L : Likeness) : Command → Command → Prop :=
  Command.Like L (fun a b => L.symbol ⟨a⟩ ⟨b⟩) L.label

namespace Session

open Attempt

variable {L : Likeness} {S : Signature → Signature → Prop} (host : Host)

/-- Attempts of commands that end alike. -/
abbrev CommandRelated {α β : Type} (L : Likeness) (S : Signature → Signature → Prop)
    (R : α → β → Prop) : Attempt Error α → Attempt Error β → Prop :=
  Attempt.Related S (Error.Like L) R

section

variable (hS : Signature.Correspondence L S) {d c : Declaration}
  (h : d.Like L (fun a b => L.symbol ⟨a⟩ ⟨b⟩) c)

include hS h

theorem declaredType_like :
    CommandRelated L S (Term.Like L) (declaredType host d) (declaredType host c) := by
  obtain ⟨name, type, body, constant, isTheorem⟩ := d
  obtain ⟨name', type', body', constant', isTheorem'⟩ := c
  obtain ⟨hname, htype, hbody, -, -⟩ := h
  refine .bind (.lift .signature) fun σ τ hσ => ?_
  have hσ := hS.like hσ
  cases htype with
  | none =>
      cases hbody with
      | none => exact .throw (.emptyDeclaration hname)
      | some ht =>
          refine .bind (.typing (hσ.infer _ ht .nil)) fun A B hA => ?_
          exact .bind (.typing (hσ.sort _ hA)) fun _ _ _ => .pure hA
  | some hA =>
      cases hbody with
      | none => exact .bind (.typing (hσ.sort _ hA)) fun _ _ _ => .pure hA
      | some ht =>
          refine .bind (.typing (hσ.sort _ hA)) fun _ _ _ => ?_
          exact .bind (.typing (hσ.check _ ht .nil hA)) fun _ _ _ => .pure hA

theorem declare_like : CommandRelated L S Message.Like (declare host d) (declare host c) := by
  have htype := declaredType_like host hS h
  obtain ⟨name, type, body, constant, isTheorem⟩ := d
  obtain ⟨name', type', body', _, _⟩ := c
  obtain ⟨hname, -, hbody, rfl, rfl⟩ := h
  have hopen : body.isNone = body'.isNone := by
    cases hbody <;> rfl
  refine .bind htype fun A B hA => ?_
  refine .bind (.change fun σ τ hσ => ?_) fun _ _ _ => ?_
  · dsimp only
    rw [hopen]
    exact hS.declare hσ hname hA _
  · dsimp only
    split
    · refine .bind (.change fun σ τ hσ => .ok (hS.declareConstant hσ hname)) fun _ _ _ => ?_
      exact .pure ⟨rfl, rfl, rfl⟩
    · cases hbody with
      | none =>
          dsimp only
          split <;> exact .pure ⟨rfl, rfl, rfl⟩
      | some ht =>
          have hrule : Rule.Like L (.ofDefinition (name ++ "_def") ⟨name⟩ _)
              (.ofDefinition (name' ++ "_def") ⟨name'⟩ _) :=
            ⟨L.definition hname, hname, .nil, ht⟩
          refine .bind (.addRule hS hrule) fun _ _ _ => ?_
          split <;> exact .pure ⟨rfl, rfl, rfl⟩

end

theorem theoremOf?_like {σ τ : Signature} (hσ : σ.Like L τ) {rule rule' : Rule}
    (hrule : rule.Like L rule') :
    Option.Rel (Term.Like L) (theoremOf? σ rule) (theoremOf? τ rule') := by
  have hentry := hσ.entry hrule.head
  have hempty : rule.args.isEmpty = rule'.args.isEmpty := by
    have hargs := hrule.args
    generalize rule.args = as, rule'.args = bs at hargs
    cases hargs <;> rfl
  unfold theoremOf?
  generalize σ.entry? rule.head = e, τ.entry? rule'.head = f at hentry
  cases hentry with
  | none => exact .none
  | some hef =>
      dsimp only
      rw [hempty, hef.unproven]
      split
      · exact .some hef.type
      · exact .none

theorem introduceRule_like (hS : Signature.Correspondence L S) {a b : String}
    (hname : L.label a b) {lhs lhs' rhs rhs' : Term}
    (hlhs : lhs.Like L lhs') (hrhs : rhs.Like L rhs') :
    CommandRelated L S Message.Like (introduceRule host a lhs rhs)
      (introduceRule host b lhs' rhs') := by
  have hsides := Rule.ofSides_like hname hlhs hrhs
  unfold introduceRule
  generalize Rule.ofSides a lhs rhs = p, Rule.ofSides b lhs' rhs' = q at hsides
  cases hsides with
  | error he => exact .throw (.rule he)
  | ok hrule =>
      refine .bind (.pure hrule) fun rule rule' hrule => ?_
      refine .bind (.lift .signature) fun σ τ hσ => ?_
      have htheorem := theoremOf?_like (hS.like hσ) hrule
      generalize theoremOf? σ rule = A, theoremOf? τ rule' = B at htheorem
      cases htheorem with
      | none => exact .bind (.addRule hS hrule) fun _ _ _ => .pure ⟨rfl, rfl, rfl⟩
      | some hA =>
          refine .bind (.typing ((hS.like hσ).check _ hrule.rhs .nil hA)) fun _ _ _ => ?_
          refine .bind (.addRule hS hrule) fun _ _ _ => ?_
          refine .bind (.change fun σ τ hσ => hS.setProven hσ hrule.head) fun _ _ _ => ?_
          exact .pure ⟨rfl, rfl, rfl⟩

theorem compare_like (hS : Signature.Correspondence L S) {t t' u u' : Term} (ht : t.Like L t')
    (hu : u.Like L u') (expected : Bool) :
    Run.Related S Message.Like (compare host t u expected) (compare host t' u' expected) := by
  refine .bind .signature fun σ τ hσ => ?_
  refine .bind (.compute (((hS.like hσ).evaluation _).convertible ht hu)) ?_
  rintro actual _ rfl
  dsimp only
  split
  · exact .pure ⟨rfl, rfl, rfl⟩
  · exact .bind (.tell ..) fun _ _ _ => .pure ⟨rfl, rfl, rfl⟩

/-- Like commands end alike in like states. -/
theorem command_like (hS : Signature.Correspondence L S) {c c' : Command} (h : c.LikeIn L c') :
    CommandRelated L S (Option.Rel Message.Like) (command host c) (command host c') := by
  refine .bind (.lift .signature) fun σ τ hσ => ?_
  have hanswer : ∀ {m n : Message}, m.Like n → CommandRelated L S (Option.Rel Message.Like)
      (pure (some m)) (pure (some n)) := fun hmn => .pure (.some hmn)
  cases h with
  | declare hd => exact .bind (declare_like host hS hd) fun _ _ hm => hanswer hm
  | constant hab =>
      refine .bind (.change fun σ τ hσ => .ok (hS.declareConstant hσ hab)) fun _ _ _ => ?_
      exact hanswer ⟨rfl, rfl, rfl⟩
  | injective hab =>
      refine .bind (.change fun σ τ hσ => .ok (hS.declareInjective hσ hab)) fun _ _ _ => ?_
      exact hanswer ⟨rfl, rfl, rfl⟩
  | rule hab hlhs hrhs =>
      exact .bind (introduceRule_like host hS hab hlhs hrhs) fun _ _ hm => hanswer hm
  | eval hΓ ht =>
      refine .bind (.lift (.compute (((hS.like hσ).evaluation _).nf ht))) fun _ _ _ => ?_
      exact hanswer ⟨rfl, rfl, rfl⟩
  | infer hΓ ht =>
      refine .bind (.typing ((hS.like hσ).infer _ ht hΓ)) fun _ _ _ => ?_
      exact hanswer ⟨rfl, rfl, rfl⟩
  | check hΓ ht hA =>
      refine .bind (.typing ((hS.like hσ).check _ ht hΓ hA)) fun _ _ _ => ?_
      exact hanswer ⟨rfl, rfl, rfl⟩
  | compare _ ht hu =>
      exact .bind (.lift (compare_like host hS ht hu _)) fun _ _ hm => hanswer hm
  | print => exact hanswer ⟨rfl, rfl, rfl⟩
  | trees => exact .get fun w v hw => hanswer ⟨rfl, rfl, rfl⟩
  | clock => exact hanswer ⟨rfl, rfl, rfl⟩
  | require => exact .throw .load
  | debugOn =>
      refine .get fun w v hw => ?_
      rw [hw.savedLevel, hw.level]
      refine .bind (.lift (.update fun w v hw => hw.setLevel _ _)) fun _ _ _ => ?_
      exact .pure .none
  | debugOff =>
      refine .get fun w v hw => ?_
      rw [hw.savedLevel]
      split
      · refine .bind (.lift (.update fun w v hw => hw.setLevel _ _)) fun _ _ _ => ?_
        exact .pure .none
      · exact .pure .none

end Session

end LambdaPi
