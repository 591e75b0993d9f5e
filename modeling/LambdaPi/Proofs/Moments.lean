import LambdaPi.Proofs.Commands

/-!
# Moments of a run

A run passes through more states than the one it ends in: it may end with an error, and modules are
checked inside other modules. A moment is an instruction that is about to be carried out somewhere in
the run, and `Session.Comes` says which moments a run comes to, whatever happens later.

How an instruction ends is taken apart here once and for all: it asks for a module, or its command is
carried out and reported (`Session.instruct_ends_cases`).

Between two moments the signature changes by the effect of one command. So a property of signatures
that every effect preserves holds at every moment (`Session.RunComes.invariant`), and it is enough to
look at the effects of commands that the run comes to.
-/

namespace LambdaPi

namespace Session

open Attempt Signature

/-- An instruction at a place, and the state in which it is begun. -/
structure Moment where
  place : Place
  instruction : Instruction
  state : RunState

/-- What is known about symbols at the moment. -/
abbrev Moment.signature (m : Moment) : Signature :=
  m.state.session.signature

/-- The command of the instruction, read in the space it stands in. -/
def Moment.command (m : Moment) : Command :=
  (((⟨m.signature, m.place.space⟩ : Scope).command m.instruction.command).run 0).1

/-- Where the instructions of a module stand that an instruction on some line asks for. -/
def Place.inner (place : Place) (line : Nat) (moduleName : String) (localName : Option String) :
    Place :=
  ⟨innerSpace place.space localName, (place.trail ++ [⟨line, none⟩] : Trail).into moduleName⟩

/-- The state after the beginning of an instruction was noted. -/
def noting (w : RunState) (line : Nat) : RunState :=
  { w with journal := w.journal.observe (.instruction line) }

/-- Checking instructions comes to a moment: it is the first one, or it comes after an instruction
that ended well, or inside a module that is asked for. Modules are nested at most `nesting` deep. -/
inductive Comes (host : Host) : Nat → Place → List Instruction → RunState → Moment → Prop
  | first {nesting place i rest w} : Comes host nesting place (i :: rest) w ⟨place, i, w⟩
  | next {nesting place i rest w w₁ m} :
      Ends (instruct host (instructAll host nesting) place i) w (.ok ()) w₁ →
      Comes host nesting place rest w₁ m → Comes host nesting place (i :: rest) w m
  | inside {nesting place i rest w moduleName localName instrs m} :
      i.command = .require moduleName localName → moduleName ∉ w.session.loading →
      host.library.load moduleName = .ok instrs →
      Comes host nesting (place.inner i.line moduleName localName) instrs
        (entering (noting w i.line) moduleName (innerSpace place.space localName)) m →
      Comes host (nesting + 1) place (i :: rest) w m

/-- The run of instructions in a fresh session comes to the moment. -/
def RunComes (host : Host) (instrs : List Instruction) (m : Moment) : Prop :=
  Comes host (RunState.nesting host {}) {} instrs {} m

variable {host : Host} {w w' : RunState}

/-- The trail of an instruction that stands at a place. -/
def Place.trailTo (place : Place) (line : Nat) : Trail :=
  place.trail ++ [⟨line, none⟩]

/-- Carry out a command and report at the end of a trail how it ends. -/
def report (host : Host) (trail : Trail) (c : Command) : Attempt LocatedError Unit := do
  match ← outcome (command host c) with
  | .error e => fail ⟨e, trail⟩
  | .ok none => pure ()
  | .ok (some m) => Run.send { m with trail }

theorem instruct_eq_report {enter : Enter} {place : Place} {i : Instruction}
    (hi : ∀ moduleName localName, i.command ≠ .require moduleName localName) :
    (instruct host enter place i).run.run w =
      (report host (place.trail ++ [⟨i.line, none⟩]) (Moment.command ⟨place, i, w⟩)).run.run
        (noting w i.line) := by
  refine (run_bind_modify _ _ w).trans ((run_bind_signature _ _).trans ?_)
  dsimp only
  split
  · next hscoped => exact absurd (command_scope_require hscoped) (hi _ _)
  · rfl

/-- The command is carried out, and how it ends is reported. -/
theorem report_cases {trail : Trail} {c : Command} {r : Except LocatedError Unit}
    (h : Ends (report host trail c) w r w') :
    ∃ q v, Ends (command host c) w q v ∧
      ((∃ e, q = .error e ∧ r = .error ⟨e, trail⟩ ∧ w' = v.say (.error ⟨e, trail⟩)) ∨
        (q = .ok none ∧ r = .ok () ∧ w' = v) ∨
        ∃ m, q = .ok (some m) ∧ r = .ok () ∧ w' = v.send { m with trail }) := by
  rcases ends_bind.1 h with ⟨q, v, hcommand, hafter⟩ | ⟨e, hcommand, -⟩
  · obtain ⟨_, hq, hcommand⟩ := ends_outcome.1 hcommand
    obtain rfl := Except.ok.inj hq
    refine ⟨q, v, hcommand, ?_⟩
    rcases q with e | _ | m
    · exact .inl ⟨e, rfl, ends_fail.1 hafter⟩
    · exact .inr (.inl ⟨rfl, ends_pure.1 hafter⟩)
    · exact .inr (.inr ⟨m, rfl, ends_modify.1 hafter⟩)
  · obtain ⟨_, hq, -⟩ := ends_outcome.1 hcommand
    cases hq

theorem instruct_eq_require {enter : Enter} {place : Place} {i : Instruction} {moduleName : String}
    {localName : Option String} (hc : i.command = .require moduleName localName) :
    (instruct host enter place i).run.run w =
      (require host enter ⟨place.space, place.trailTo i.line⟩ moduleName localName).run.run
        (noting w i.line) := by
  refine (run_bind_modify _ _ w).trans ((run_bind_signature _ _).trans ?_)
  rw [hc]
  rfl

/-- An instruction asks for a module, or how its command ends is reported. -/
theorem instruct_ends_cases {enter : Enter} {place : Place} {i : Instruction}
    {r : Except LocatedError Unit} (hins : Ends (instruct host enter place i) w r w') :
    (∃ moduleName localName, i.command = .require moduleName localName ∧
      Ends (require host enter ⟨place.space, place.trailTo i.line⟩ moduleName localName)
        (noting w i.line) r w') ∨
    (∀ moduleName localName, i.command ≠ .require moduleName localName) ∧
      Ends (report host (place.trailTo i.line) (Moment.command ⟨place, i, w⟩)) (noting w i.line)
        r w' := by
  by_cases hi : ∃ moduleName localName, i.command = .require moduleName localName
  · obtain ⟨moduleName, localName, hc⟩ := hi
    exact .inl ⟨moduleName, localName, hc, (instruct_eq_require hc).symm.trans hins⟩
  · have hi : ∀ moduleName localName, i.command ≠ .require moduleName localName :=
      fun moduleName localName hc => hi ⟨moduleName, localName, hc⟩
    exact .inr ⟨hi, (instruct_eq_report hi).symm.trans hins⟩

/-- An instruction that ends well enters a module or has the effect of its command, read in the
space it stands in. -/
theorem instruct_cases {enter : Enter} {place : Place} {i : Instruction}
    (hins : Ends (instruct host enter place i) w (.ok ()) w') :
    (∃ moduleName localName trail, i.command = .require moduleName localName ∧
      Entered host enter ⟨place.space, trail⟩ moduleName localName w w') ∨
    Effect w.session.signature
      (((⟨w.session.signature, place.space⟩ : Scope).command i.command).run 0).1
      w'.session.signature := by
  rcases instruct_ends_cases hins with ⟨moduleName, localName, hc, hreq⟩ | ⟨-, hreport⟩
  · obtain ⟨fresh, checked⟩ := require_ends hreq
    exact .inl ⟨moduleName, localName, _, hc, fresh, checked⟩
  · obtain ⟨q, v, hcommand, ⟨e, -, hr, -⟩ | ⟨rfl, -, rfl⟩ | ⟨m, rfl, -, rfl⟩⟩ := report_cases hreport
    · cases hr
    · have heffect := command_effect hcommand
      exact .inr heffect
    · have heffect := command_effect hcommand
      exact .inr heffect

theorem checkInstruction_eq {enter : Enter} {place : Place} {i : Instruction}
    (hi : ∀ moduleName localName, i.command ≠ .require moduleName localName) :
    w.checkInstruction host place i = (instruct host enter place i).run.run w := by
  rw [RunState.checkInstruction, instruct_eq_report hi, instruct_eq_report hi]

/-- Instructions come to the one that stands behind those that end well. -/
theorem Comes.after {nesting : Nat} {place : Place} {before : List Instruction}
    (h : Ends (before.forM (instruct host (instructAll host nesting) place)) w (.ok ()) w')
    (i : Instruction) (rest : List Instruction) :
    Comes host nesting place (before ++ i :: rest) w ⟨place, i, w'⟩ := by
  induction before generalizing w with
  | nil =>
      obtain ⟨-, rfl⟩ := ends_pure.1 h
      exact .first
  | cons j before ih =>
      obtain ⟨_, w₁, hj, hbefore⟩ := h.bind
      exact .next hj (ih hbefore)

theorem instruct_enters {enter : Enter} {place : Place} {i : Instruction} {moduleName : String}
    {localName : Option String} (hins : Ends (instruct host enter place i) w (.ok ()) w')
    (hc : i.command = .require moduleName localName) :
    moduleName ∉ w.session.loading ∧ ∃ instrs w₂, host.library.load moduleName = .ok instrs ∧
      Ends (enter (place.inner i.line moduleName localName) instrs)
        (entering (noting w i.line) moduleName (innerSpace place.space localName)) (.ok ()) w₂ ∧
      w'.session = w₂.endModule.session := by
  exact require_enters ((instruct_eq_require hc).symm.trans hins : Ends _ _ _ _)

/-- Instructions that end well all do so one after the other. -/
theorem instructAll_ends {nesting : Nat} {place : Place} {instrs : List Instruction}
    (h : Ends (instructAll host (nesting + 1) place instrs) w (.ok ()) w') :
    ∃ w₁, Ends (instrs.forM (instruct host (instructAll host nesting) place)) w (.ok ()) w₁ ∧
      w'.session = w₁.session := by
  obtain ⟨_, w₁, hinstrs, hclose⟩ := h.bind
  refine ⟨w₁, hinstrs, ?_⟩
  have hclose := ends_bind_signature.1 hclose
  split at hclose
  · rw [(ends_pure.1 hclose).2]
  · cases (ends_fail.1 hclose).1

/-- The property holds at every moment that instructions come to and, if all of them end well, in the
end. -/
def Throughout (host : Host) (J : Signature → Prop) (nesting : Nat) (place : Place)
    (instrs : List Instruction) (w : RunState) : Prop :=
  (∀ m, Comes host nesting place instrs w m → J m.signature) ∧
    ∀ w', Ends (instrs.forM (instruct host (instructAll host nesting) place)) w (.ok ()) w' →
      J w'.session.signature

/-- A property that the effects of all commands preserve holds throughout, if it does so in the
beginning. -/
def Invariant (host : Host) (J : Signature → Prop) (nesting : Nat) : Prop :=
  ∀ {place instrs w},
    (∀ m σ', Comes host nesting place instrs w m → J m.signature →
      Effect m.signature m.command σ' → J σ') →
    J w.session.signature → Throughout host J nesting place instrs w

/-- One level of modules, given the levels inside. -/
theorem invariant_step {J : Signature → Prop} {nesting : Nat}
    (hinner : ∀ n, nesting = n + 1 → Invariant host J n) : Invariant host J nesting := by
  intro place instrs w hstep hw
  induction instrs generalizing w with
  | nil =>
      constructor
      · intro m hm
        cases hm
      · intro w' h
        rw [(ends_pure.1 h).2]
        exact hw
  | cons i rest ih =>
      have hinside : ∀ {n moduleName localName instrs}, nesting = n + 1 →
          i.command = .require moduleName localName → moduleName ∉ w.session.loading →
          host.library.load moduleName = .ok instrs →
          Throughout host J n (place.inner i.line moduleName localName) instrs
            (entering (noting w i.line) moduleName (innerSpace place.space localName)) := by
        rintro n moduleName localName instrs rfl hc hfresh hload
        exact hinner n rfl (fun m σ' hm => hstep m σ' (.inside hc hfresh hload hm)) hw
      have hafter : ∀ {w₁}, Ends (instruct host (instructAll host nesting) place i) w (.ok ()) w₁ →
          J w₁.session.signature := by
        intro w₁ hi
        rcases instruct_cases hi with ⟨moduleName, localName, -, hc, -⟩ | heffect
        · obtain ⟨hfresh, instrs, w₂, hload, hends, hw₁⟩ := instruct_enters hi hc
          rw [hw₁]
          change J w₂.session.signature
          cases nesting with
          | zero => cases hends
          | succ n =>
              obtain ⟨w₃, hinstrs, hw₂⟩ := instructAll_ends hends
              rw [hw₂]
              exact (hinside rfl hc hfresh hload).2 w₃ hinstrs
        · exact hstep ⟨place, i, w⟩ _ .first hw heffect
      constructor
      · intro m hm
        cases hm with
        | first => exact hw
        | next hi hrest =>
            exact (ih (fun m σ' hm => hstep m σ' (.next hi hm)) (hafter hi)).1 m hrest
        | inside hc hfresh hload hm => exact (hinside rfl hc hfresh hload).1 m hm
      · intro w' h
        obtain ⟨_, w₁, hi, hrest⟩ := h.bind
        exact (ih (fun m σ' hm => hstep m σ' (.next hi hm)) (hafter hi)).2 w' hrest

theorem invariant (J : Signature → Prop) (nesting : Nat) : Invariant host J nesting := by
  induction nesting with
  | zero => exact invariant_step nofun
  | succ nesting ih =>
      refine invariant_step ?_
      intro n hn
      rwa [← Nat.succ.inj hn]

/-- What the effects of all commands of a run preserve holds at every moment of it. -/
theorem RunComes.invariant {J : Signature → Prop} {instrs : List Instruction}
    (hempty : J {}) (hstep : ∀ m σ', RunComes host instrs m → J m.signature →
      Effect m.signature m.command σ' → J σ') {m : Moment} (hm : RunComes host instrs m) :
    J m.signature :=
  (Session.invariant J _ hstep hempty).1 m hm

end Session

end LambdaPi
