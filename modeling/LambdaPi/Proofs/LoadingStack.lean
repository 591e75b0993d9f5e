import Mathlib
import LambdaPi.Proofs.FailedInstructions

/-!
# The modules being loaded

A session keeps two accounts of how deep it is in modules. One is the stack of modules being loaded:
`Session.require` puts a module on it before it enters the module, and takes off whatever is on top
when it comes back. The other one is the trail, which is handed down to the instructions and which
messages and errors carry. Whenever something is said, the stack is written down as it is at that
moment (`RunState.say`). This module shows that in all that is written down the two accounts agree.

That the stack is the same after an instruction as before rests on the instructions inside: what is on
top when `Session.require` comes back is the module itself only if they have left the stack as they
found it. So this is an induction on how deep modules are nested (`instructAll_restores`).

A `Session.Point` is what is still to be checked in the current module, and from which state on.
`Point.Next` leads past an instruction that ends well or into a module. Whatever is said is said at a
point that the run comes to: it carries the trail to this point, and the stack that is written down
with it is the one of the point (`Session.allTold`).
-/

namespace LambdaPi

/-! ## Trails and what is said -/

namespace Trail

theorem modules_append_line (trail : Trail) (line : Nat) :
    (trail ++ [⟨line, none⟩] : Trail).modules = trail.modules := by
  simp [modules]

theorem into_append_line (trail : Trail) (line : Nat) (moduleName : String) :
    (trail ++ [⟨line, none⟩] : Trail).into moduleName = trail ++ [⟨line, some moduleName⟩] := by
  simp [into]

end Trail

namespace Utterance

/-- The trail that leads to where something is said. -/
def trail : Utterance → Trail
  | message m => m.trail
  | error e => e.trail

/-- The message, if one is sent. -/
def message? : Utterance → Option Message
  | message m => some m
  | error _ => none

/-- The error, if one arises. -/
def error? : Utterance → Option LocatedError
  | message _ => none
  | error e => some e

theorem eq_error_of_error? {u : Utterance} {e : LocatedError} (h : u.error? = some e) :
    u = .error e := by
  cases u with
  | message m => cases h
  | error d => rw [Option.some.inj h]

end Utterance

/-- What was said so far is true of the modules that were being loaded: they were distinct, and the
trail led through them in order. The messages sent are those among it. -/
structure RunState.Truthful (w : RunState) : Prop where
  nodup : ∀ s ∈ w.said, s.loading.Nodup
  modules : ∀ s ∈ w.said, s.utterance.trail.modules = s.loading
  messages : w.said.filterMap (·.utterance.message?) = w.messages

namespace Session

open Attempt Signature

variable {host : Host} {w w' : RunState}

/-- Commands say nothing themselves, and do not touch the modules being loaded. -/
theorem command_quiet {c : Command} {r : Except Error (Option Message)}
    (h : Ends (command host c) w r w') :
    w'.session.loading = w.session.loading ∧ w'.said = w.said := by
  refine keeps_command (K := fun v => v.session.loading = w.session.loading ∧ v.said = w.said)
    ?_ c h ⟨rfl, rfl⟩
  exact ⟨fun _ _ hv => hv, fun _ _ hv => hv, fun _ _ hv => hv⟩

/-! ## How instructions end -/

theorem Place.trail_inner (place : Place) (line : Nat) (moduleName : String)
    (localName : Option String) :
    (place.inner line moduleName localName).trail = place.trail ++ [⟨line, some moduleName⟩] :=
  Trail.into_append_line ..

theorem loading_leaving (moduleName : String) (trail : Trail) (r : Except LocatedError Unit)
    (w : RunState) :
    (leaving moduleName trail r w).session.loading = w.session.loading.dropLast := by
  cases r <;> rfl

/-! ## The stack is restored -/

/-- However the attempt ends, the modules being loaded are the same as before. -/
def Restores {ε α : Type} (x : Attempt ε α) : Prop :=
  ∀ loading, Keeps (fun w => w.session.loading = loading) x

section

variable {enter : Enter} (henter : ∀ place instrs, Restores (enter place instrs))

include henter

/-- What is taken off the stack is the module that was put on it, if the instructions in between
restore the stack. -/
theorem require_restores (place : Place) (moduleName : String) (localName : Option String) :
    Restores (require host enter place moduleName localName) := by
  intro loading w r w' h hw
  rcases require_cases h with ⟨e, -, -, rfl⟩ | ⟨-, instrs, w₂, -, hinside, rfl⟩
  · exact hw
  · have hw₂ : w₂.session.loading = loading ++ [moduleName] :=
      henter _ _ _ hinside (congrArg (· ++ [moduleName]) hw)
    rw [loading_leaving, hw₂, List.dropLast_concat]

theorem instruct_restores (place : Place) (i : Instruction) :
    Restores (instruct host enter place i) := by
  intro loading w r w' h hw
  rcases instruct_ends_cases h with ⟨moduleName, localName, -, hreq⟩ | ⟨-, hreport⟩
  · exact require_restores henter _ moduleName localName loading hreq hw
  · obtain ⟨q, v, hcommand, hafter⟩ := report_cases hreport
    have hv : v.session.loading = loading := (command_quiet hcommand).1.trans hw
    rcases hafter with ⟨e, -, -, rfl⟩ | ⟨-, -, rfl⟩ | ⟨m, -, -, rfl⟩ <;> exact hv

end

/-- Instructions restore the stack, whether they end well or not, by induction on how deep modules
are nested inside them. -/
theorem instructAll_restores (nesting : Nat) (place : Place) (instrs : List Instruction) :
    Restores (instructAll host nesting place instrs) := by
  induction nesting generalizing place instrs with
  | zero =>
      intro loading w r w' h
      cases h
  | succ nesting ih =>
      intro loading
      refine (Keeps.forM (fun i => instruct_restores ih place i loading) instrs).bind fun _ => ?_
      refine keeps_signature.bind fun σ => ?_
      split
      · exact keeps_pure _
      · exact keeps_fail (fun _ _ hw => hw) _

theorem instruct_loading {nesting : Nat} {place : Place} {i : Instruction}
    {r : Except LocatedError Unit}
    (h : Ends (instruct host (instructAll host nesting) place i) w r w') :
    w'.session.loading = w.session.loading :=
  instruct_restores (instructAll_restores nesting) place i _ h rfl

theorem instructAll_loading {nesting : Nat} {place : Place} {instrs : List Instruction}
    {r : Except LocatedError Unit} (h : Ends (instructAll host nesting place instrs) w r w') :
    w'.session.loading = w.session.loading :=
  instructAll_restores nesting place instrs _ h rfl

/-! ## Points of a run -/

/-- A point of a run: the instructions at a place that are still to be checked, the state from which
on, and how deep modules may be nested inside. -/
structure Point where
  nesting : Nat
  place : Place
  rest : List Instruction
  state : RunState

namespace Point

/-- The modules being loaded at a point. -/
abbrev loading (p : Point) : List String :=
  p.state.session.loading

/-- The trail to what comes next: the first instruction, or the end of the space. -/
def trail (p : Point) : Trail :=
  match p.rest with
  | [] => p.place.trail
  | i :: _ => p.place.trailTo i.line

/-- From one point to the next: past an instruction that ends well, or into a module. -/
inductive Next (host : Host) : Point → Point → Prop
  | past {nesting place i rest w w₁} :
      Ends (instruct host (instructAll host nesting) place i) w (.ok ()) w₁ →
      Next host ⟨nesting, place, i :: rest, w⟩ ⟨nesting, place, rest, w₁⟩
  | into {nesting place i rest w moduleName localName instrs} :
      i.command = .require moduleName localName → moduleName ∉ w.session.loading →
      host.library.load moduleName = .ok instrs →
      Next host ⟨nesting + 1, place, i :: rest, w⟩
        ⟨nesting, place.inner i.line moduleName localName, instrs,
          entering (noting w i.line) moduleName (innerSpace place.space localName)⟩

/-- A point that a run comes to from another one. -/
def Leads (host : Host) : Point → Point → Prop :=
  Relation.ReflTransGen (Next host)

/-- The saying belongs to the point: it carries the trail that leads there, and was written down with
the modules being loaded there. -/
structure Says (p : Point) (s : Saying) : Prop where
  trail : s.utterance.trail = p.trail
  loading : s.loading = p.loading

/-- The modules being loaded are distinct, and the trail leads through them. -/
structure Tracked (p : Point) : Prop where
  nodup : p.loading.Nodup
  modules : p.place.trail.modules = p.loading

variable {p q : Point} {s : Saying}

theorem modules_trail (p : Point) : p.trail.modules = p.place.trail.modules := by
  unfold trail
  split
  · rfl
  · exact Trail.modules_append_line ..

theorem Tracked.modules_of_said (hp : p.Tracked) (h : p.Says s) :
    s.utterance.trail.modules = s.loading :=
  calc s.utterance.trail.modules = p.trail.modules := by rw [h.trail]
    _ = p.place.trail.modules := p.modules_trail
    _ = p.loading := hp.modules
    _ = s.loading := h.loading.symm

theorem Next.tracked (h : p.Next host q) (hp : p.Tracked) : q.Tracked := by
  cases h with
  | @past nesting place i rest w w₁ hi =>
      have hsame : w₁.session.loading = w.session.loading := instruct_loading hi
      refine ⟨?_, hp.modules.trans hsame.symm⟩
      show w₁.session.loading.Nodup
      rw [hsame]
      exact hp.nodup
  | @into nesting place i rest w moduleName localName instrs hc hfresh hload =>
      have hmodules : place.trail.modules = w.session.loading := hp.modules
      refine ⟨hp.nodup.append (List.nodup_singleton _) (List.disjoint_singleton.2 hfresh), ?_⟩
      show (place.inner i.line moduleName localName).trail.modules =
        w.session.loading ++ [moduleName]
      rw [Place.trail_inner, ← hmodules]
      simp [Trail.modules]

theorem Leads.tracked (h : p.Leads host q) (hp : p.Tracked) : q.Tracked := by
  induction h with
  | refl => exact hp
  | tail _ hnext ih => exact hnext.tracked ih

theorem place_prefix_trail (p : Point) : p.place.trail <+: p.trail := by
  unfold trail
  split
  · exact List.prefix_refl _
  · exact List.prefix_append ..

theorem Leads.trail (h : p.Leads host q) : p.place.trail <+: q.place.trail := by
  induction h with
  | refl => exact List.prefix_refl _
  | tail _ hnext ih =>
      refine ih.trans ?_
      cases hnext with
      | past => exact List.prefix_refl _
      | into =>
          rw [Place.trail_inner]
          exact List.prefix_append ..

/-- What commands keep, and what instructions do around them, holds at every point. -/
theorem Leads.keeps {K : RunState → Prop} (hK : KeptAround K)
    (hcommand : ∀ c, Keeps K (command host c)) (h : p.Leads host q) (hp : K p.state) :
    K q.state := by
  induction h with
  | refl => exact hp
  | tail _ hnext ih =>
      cases hnext with
      | @past nesting place i _ _ _ hi =>
          have hinside := instructAll_keeps hK hcommand nesting
          exact instruct_keeps hK hcommand hinside place i hi ih
      | into => exact hK.journal _ _ (hK.beginModule _ _ (hK.journal _ _ ih))

end Point

/-! ## Nothing else is said -/

/-- The errors that have arisen where something ends so. -/
def arisen : Except LocatedError Unit → List LocatedError
  | .ok _ => []
  | .error e => [e]

/-- What was said after something else was said at points that the point leads to, and the only error
among it is the one that it ends with. The latest comes first. -/
def Told (host : Host) (p : Point) (before : List Saying) (r : Except LocatedError Unit)
    (after : List Saying) : Prop :=
  ∃ new, after = new ++ before ∧ (∀ s ∈ new, ∃ q, p.Leads host q ∧ q.Says s) ∧
    new.filterMap (·.utterance.error?) = arisen r

namespace Told

variable {p q : Point} {before between after : List Saying} {r : Except LocatedError Unit}

theorem silence : Told host p before (.ok ()) before :=
  ⟨[], rfl, fun _ hs => absurd hs List.not_mem_nil, rfl⟩

theorem utterance {s : Saying} (hs : p.Says s) (hr : s.utterance.error?.toList = arisen r) :
    Told host p before r (s :: before) := by
  refine ⟨[s], rfl, fun s' hs' => ?_, ?_⟩
  · obtain rfl := List.mem_singleton.1 hs'
    exact ⟨p, .refl, hs⟩
  · rw [← hr]
    obtain ⟨u, loading⟩ := s
    cases u <;> rfl

theorem of_leads (hpq : p.Leads host q) (h : Told host q before r after) :
    Told host p before r after := by
  obtain ⟨new, hafter, hnew, herror⟩ := h
  refine ⟨new, hafter, fun s hs => ?_, herror⟩
  obtain ⟨q', hq', hsay⟩ := hnew s hs
  exact ⟨q', hpq.trans hq', hsay⟩

theorem trans (h₁ : Told host p before (.ok ()) between) (h₂ : Told host p between r after) :
    Told host p before r after := by
  obtain ⟨new₁, rfl, hnew₁, hnone⟩ := h₁
  obtain ⟨new₂, rfl, hnew₂, herror⟩ := h₂
  refine ⟨new₂ ++ new₁, (List.append_assoc ..).symm, fun s hs => ?_, ?_⟩
  · rcases List.mem_append.1 hs with hs | hs
    · exact hnew₂ s hs
    · exact hnew₁ s hs
  · rw [List.filterMap_append, hnone, herror]
    exact List.append_nil _

/-- The error that it ends with arose at a point. -/
theorem exists_error {e : LocatedError} (h : Told host p before (.error e) after) :
    ∃ q, p.Leads host q ∧ e.trail = q.trail := by
  obtain ⟨new, -, hnew, herror⟩ := h
  have hmem : e ∈ new.filterMap (·.utterance.error?) := herror ▸ List.mem_singleton_self e
  obtain ⟨s, hs, he⟩ := List.mem_filterMap.1 hmem
  obtain ⟨q, hq, hsay⟩ := hnew s hs
  refine ⟨q, hq, ?_⟩
  rw [← hsay.trail, Utterance.eq_error_of_error? he]
  rfl

end Told

/-- All that is said inside a module, when modules are nested at most so deep, is accounted for. -/
def AllTold (host : Host) (nesting : Nat) : Prop :=
  ∀ ⦃n place instrs w r w'⦄, nesting = n + 1 →
    Ends (instructAll host nesting place instrs) w r w' →
    Told host ⟨n, place, instrs, w⟩ w.said r w'.said

section

variable {nesting : Nat} (hinner : AllTold host nesting) {place : Place}
  {instrs : List Instruction} {r : Except LocatedError Unit}

include hinner

/-- What is said while an instruction is carried out. That a module was loaded is said after it was
taken off the stack, which is then the one of the instruction again. -/
theorem instruct_told {i : Instruction} (rest : List Instruction)
    (h : Ends (instruct host (instructAll host nesting) place i) w r w') :
    Told host ⟨nesting, place, i :: rest, w⟩ w.said r w'.said := by
  rcases instruct_ends_cases h with ⟨moduleName, localName, hc, hreq⟩ | ⟨-, hreport⟩
  · rcases require_cases hreq with ⟨e, he, rfl, rfl⟩ | ⟨hfresh, instrs, w₂, hload, hends, rfl⟩
    · refine .utterance ⟨?_, rfl⟩ rfl
      rcases he with ⟨-, rfl⟩ | ⟨d, -, rfl⟩ <;> rfl
    · cases nesting with
      | zero => cases hends
      | succ n =>
          have hinto : Point.Leads host ⟨n + 1, place, i :: rest, w⟩ ⟨n, _, instrs, _⟩ :=
            .single (.into hc hfresh hload)
          have hinside := Told.of_leads hinto (hinner rfl hends)
          cases r with
          | error e => exact hinside
          | ok a =>
              refine hinside.trans (.utterance ⟨rfl, ?_⟩ rfl)
              have hw₂ : w₂.session.loading = w.session.loading ++ [moduleName] :=
                instructAll_loading hends
              show w₂.session.loading.dropLast = w.session.loading
              rw [hw₂, List.dropLast_concat]
  · obtain ⟨q, v, hcommand, hafter⟩ := report_cases hreport
    obtain ⟨hloading, hsaid⟩ := command_quiet hcommand
    change v.said = w.said at hsaid
    rw [← hsaid]
    rcases hafter with ⟨e, -, rfl, rfl⟩ | ⟨-, rfl, rfl⟩ | ⟨m, -, rfl, rfl⟩
    · exact .utterance ⟨rfl, hloading⟩ rfl
    · exact .silence
    · exact .utterance ⟨rfl, hloading⟩ rfl

/-- What is said while instructions are carried out one after the other. If all of them end well, the
run comes to the point where none are left. -/
theorem forM_told
    (h : Ends (instrs.forM (instruct host (instructAll host nesting) place)) w r w') :
    Told host ⟨nesting, place, instrs, w⟩ w.said r w'.said ∧
      (r = .ok () → Point.Leads host ⟨nesting, place, instrs, w⟩ ⟨nesting, place, [], w'⟩) := by
  induction instrs generalizing w with
  | nil =>
      obtain ⟨rfl, rfl⟩ := ends_pure.1 h
      exact ⟨.silence, fun _ => .refl⟩
  | cons i rest ih =>
      rcases ends_bind.1 h with ⟨_, w₁, hi, hrest⟩ | ⟨e, hi, rfl⟩
      · have hpast : Point.Leads host ⟨nesting, place, i :: rest, w⟩ ⟨nesting, place, rest, w₁⟩ :=
          .single (.past hi)
        obtain ⟨htold, hlast⟩ := ih hrest
        exact ⟨(instruct_told hinner rest hi).trans (htold.of_leads hpast),
          fun hr => hpast.trans (hlast hr)⟩
      · exact ⟨instruct_told hinner rest hi, by simp⟩

/-- One more level of modules. -/
theorem AllTold.step : AllTold host (nesting + 1) := by
  rintro n place instrs w r w' hn h
  obtain rfl := Nat.succ.inj hn
  rcases ends_bind.1 h with ⟨_, w₁, hinstrs, hclose⟩ | ⟨e, hinstrs, rfl⟩
  · obtain ⟨htold, hlast⟩ := forM_told hinner hinstrs
    have hclose := ends_bind_signature.1 hclose
    split at hclose
    · obtain ⟨rfl, rfl⟩ := ends_pure.1 hclose
      exact htold
    · obtain ⟨rfl, rfl⟩ := ends_fail.1 hclose
      refine htold.trans (.of_leads (hlast rfl) ?_)
      exact .utterance ⟨rfl, rfl⟩ rfl
  · exact (forM_told hinner hinstrs).1

end

/-- Whatever is said while instructions are checked is said at a point that they lead to. -/
theorem allTold (nesting : Nat) : AllTold host nesting := by
  induction nesting with
  | zero =>
      intro n place instrs w r w' hn
      cases hn
  | succ nesting ih => exact ih.step

/-- So is what was said before the run came to a point, from the beginning on. -/
theorem Point.Leads.said {p q : Point} (h : p.Leads host q) (hp : p.state.said = []) :
    ∀ s ∈ q.state.said, ∃ p', p.Leads host p' ∧ p'.Says s := by
  induction h with
  | refl =>
      rw [hp]
      exact fun _ hs => absurd hs List.not_mem_nil
  | tail hleads hnext ih =>
      cases hnext with
      | past hi =>
          intro s hs
          obtain ⟨new, hsaid, hnew, -⟩ := instruct_told (allTold _) _ hi
          rw [hsaid] at hs
          rcases List.mem_append.1 hs with hs | hs
          · obtain ⟨p', hp', hsay⟩ := hnew s hs
            exact ⟨p', hleads.trans hp', hsay⟩
          · exact ih s hs
      | into => exact ih

/-! ## Modules that ask for each other -/

theorem load_ne_cyclic {library : Library} {moduleName : String} {cycle : List String} :
    library.load moduleName ≠ .error (.cyclic cycle) := by
  intro h
  unfold Library.load at h
  split at h
  · cases h
  · split at h <;> cases h

/-- Asking for a module is answered by a cycle, at that very place, exactly if the module is being
loaded; the cycle consists of the modules being loaded and this one. Cycles that are found further
inside are reported with a longer trail. -/
theorem instruct_cyclic_iff {nesting : Nat} {place : Place} {i : Instruction} {moduleName : String}
    {localName : Option String} (hc : i.command = .require moduleName localName)
    {cycle : List String} :
    (∃ v, Ends (instruct host (instructAll host nesting) place i) w
        (.error ⟨.load (.cyclic cycle), place.trailTo i.line⟩) v) ↔
      moduleName ∈ w.session.loading ∧ cycle = w.session.loading ++ [moduleName] := by
  constructor
  · rintro ⟨v, h⟩
    rcases instruct_ends_cases h with ⟨moduleName', localName', hc', hreq⟩ | ⟨hc', -⟩
    · obtain ⟨rfl, rfl⟩ := Command.require.inj (hc.symm.trans hc')
      rcases require_cases hreq with ⟨e, he, hr, -⟩ | ⟨-, instrs, w₂, -, hends, -⟩
      · obtain rfl := Except.error.inj hr
        rcases he with ⟨hmem, he⟩ | ⟨d, hload, he⟩
        · cases he
          exact ⟨hmem, rfl⟩
        · cases he
          exact absurd hload load_ne_cyclic
      · cases nesting with
        | zero => cases hends
        | succ n =>
            obtain ⟨q, hq, htrail⟩ := (allTold (n + 1) rfl hends).exists_error
            change place.trailTo i.line = q.trail at htrail
            have hlonger : place.trail ++ [⟨i.line, some moduleName⟩] <+: place.trailTo i.line := by
              rw [← Place.trail_inner place i.line moduleName localName, htrail]
              exact hq.trail.trans q.place_prefix_trail
            have hframe := hlonger.eq_of_length (by simp [Place.trailTo])
            simp [Place.trailTo] at hframe
    · exact absurd hc (hc' _ _)
  · rintro ⟨hmem, rfl⟩
    exact ⟨_, (instruct_eq_require hc).trans (require_cyclic (w := noting w i.line) hmem)⟩

/-! ## Runs -/

theorem keptAround_messages :
    KeptAround fun w => w.said.filterMap (·.utterance.message?) = w.messages :=
  ⟨fun _ _ h => h, fun _ _ h => h, fun _ h => h, fun _ m h => congrArg (m :: ·) h, fun _ _ h => h⟩

theorem command_messages (c : Command) :
    Keeps (fun w => w.said.filterMap (·.utterance.message?) = w.messages) (command host c) :=
  keeps_command ⟨fun _ _ h => h, fun _ _ h => h, fun _ _ h => h⟩ c

/-- What is said at points that a point leads to is true, if the modules are tracked there. -/
theorem truthful_of_said {start : Point} (hstart : start.Tracked)
    (hsaid : ∀ s ∈ w.said, ∃ p, start.Leads host p ∧ p.Says s)
    (hmessages : w.said.filterMap (·.utterance.message?) = w.messages) : w.Truthful := by
  refine ⟨fun s hs => ?_, fun s hs => ?_, hmessages⟩
  · obtain ⟨p, hp, hsay⟩ := hsaid s hs
    rw [hsay.loading]
    exact (hp.tracked hstart).nodup
  · obtain ⟨p, hp, hsay⟩ := hsaid s hs
    exact (hp.tracked hstart).modules_of_said hsay

/-- The modules being loaded form a stack that messages and errors tell truly. At every point that a
run from a fresh session comes to, the modules being loaded are distinct and the trail leads through
exactly these, in this order; whatever was said so far was said with a trail through the modules that
were being loaded at that moment; and asking for a module is answered by a cycle exactly if the module
is being loaded, the cycle being the modules being loaded and then that one. The same is true of
all that was said when the run ends: it was said at such points, and the only error to arise is the
one that the run ends with. Whoever checks instructions gets the modules being loaded back as they
were, however it ends. -/
theorem loading_disciplined (host : Host) (instrs : List Instruction) (eta : Bool)
    (journal : Journal) :
    let fresh : RunState := { session := { signature := { eta } }, journal }
    let start : Point := ⟨fresh.nesting host, {}, instrs, fresh⟩
    (∀ p, start.Leads host p →
      p.loading.Nodup ∧ p.place.trail.modules = p.loading ∧ p.state.Truthful ∧
      ∀ i rest moduleName localName, p.rest = i :: rest →
        i.command = .require moduleName localName → ∀ cycle,
        ((∃ v, Ends (instruct host (instructAll host p.nesting) p.place i) p.state
            (.error ⟨.load (.cyclic cycle), p.place.trailTo i.line⟩) v) ↔
          moduleName ∈ p.loading ∧ cycle = p.loading ++ [moduleName])) ∧
    (∀ r w, fresh.run host instrs = .ok (r, w) →
      w.Truthful ∧ w.said.filterMap (·.utterance.error?) = arisen r ∧
      ∀ s ∈ w.said, ∃ p, start.Leads host p ∧ p.Says s) ∧
    (∀ nesting place i w r w', Ends (instruct host (instructAll host nesting) place i) w r w' →
      w'.session.loading = w.session.loading) ∧
    (∀ nesting place instrs w r w', Ends (instructAll host nesting place instrs) w r w' →
      w'.session.loading = w.session.loading) ∧
    (∀ (w : RunState) place i r w', w.checkInstruction host place i = .ok (r, w') →
      w'.session.loading = w.session.loading) ∧
    (∀ (w : RunState) place instrs r w', w.checkInstructions host place instrs = .ok (r, w') →
      w'.session.loading = w.session.loading) ∧
    ∀ (w : RunState) instrs r w', w.run host instrs = .ok (r, w') →
      w'.session.loading = w.session.loading := by
  intro fresh start
  have hstart : start.Tracked := ⟨List.nodup_nil, rfl⟩
  refine ⟨fun p hp => ?_, fun r w hrun => ?_, fun _ _ _ _ _ _ h => instruct_loading h,
    fun _ _ _ _ _ _ h => instructAll_loading h, fun _ _ _ _ _ h => instruct_loading h,
    fun _ _ _ _ _ h => instructAll_loading h, fun _ _ _ _ h => instructAll_loading h⟩
  · obtain ⟨hnodup, hmodules⟩ := hp.tracked hstart
    have hmessages := hp.keeps keptAround_messages command_messages rfl
    refine ⟨hnodup, hmodules, truthful_of_said hstart (hp.said rfl) hmessages, ?_⟩
    intro i rest moduleName localName _ hc cycle
    exact instruct_cyclic_iff hc
  · obtain ⟨new, hnew, hsaid, herror⟩ := allTold _ rfl hrun
    obtain rfl : w.said = new := hnew.trans (List.append_nil new)
    have hmessages := instructAll_keeps keptAround_messages command_messages _ _ _ hrun rfl
    exact ⟨truthful_of_said hstart hsaid hmessages, herror, hsaid⟩

/-- Two modules that ask for each other, each after a third one that is loaded without a hitch. -/
def spiral : Library :=
  .modules [("base", [⟨1, .print .type⟩]),
    ("even", [⟨1, .require "base" none⟩, ⟨2, .require "odd" (some "o")⟩]),
    ("odd", [⟨5, .require "base" (some "b")⟩, ⟨6, .require "even" none⟩])]

/-- How a run in a fresh session ends, and the modules that were being loaded when something was
said. -/
def soundings (host : Host) (instrs : List Instruction) :
    Option (Except LocatedError Unit × List (List String)) :=
  match RunState.run host instrs {} with
  | .ok (r, w) => some (r, w.said.map (·.loading))
  | .error _ => none

theorem run_of_soundings {instrs : List Instruction} {r : Except LocatedError Unit}
    {loadings : List (List String)} (h : soundings host instrs = some (r, loadings)) :
    ∃ w, RunState.run host instrs {} = .ok (r, w) ∧ w.said.map (·.loading) = loadings := by
  unfold soundings at h
  split at h
  · next w hrun =>
    obtain ⟨rfl, rfl⟩ := Prod.mk.inj (Option.some.inj h)
    exact ⟨w, hrun, rfl⟩
  · cases h

theorem loading_disciplined_spiral :
    ∃ w e, RunState.run ⟨8, spiral, 0⟩ [⟨3, .require "base" none⟩, ⟨4, .require "even" none⟩] {}
        = .ok (.error e, w) ∧
      e.error = .load (.cyclic ["even", "odd", "even"]) ∧ w.session.loading = [] ∧
      w.said.map (·.utterance.trail.modules) = [["even", "odd"], ["even", "odd"],
        ["even", "odd", "base"], ["even"], ["even", "base"], [], ["base"]] ∧
      w.said.map (·.loading) = [["even", "odd"], ["even", "odd"], ["even", "odd", "base"],
        ["even"], ["even", "base"], [], ["base"]] ∧
      w.said.filterMap (·.utterance.error?) = [e] ∧
      ¬ ∃ cycle v, Ends (instruct ⟨8, spiral, 0⟩ (instructAll ⟨8, spiral, 0⟩ 3) {}
        ⟨3, .require "base" none⟩) {} (.error ⟨.load (.cyclic cycle), [⟨3, none⟩]⟩) v := by
  have hsound : soundings ⟨8, spiral, 0⟩ [⟨3, .require "base" none⟩, ⟨4, .require "even" none⟩] =
      some (.error ⟨.load (.cyclic ["even", "odd", "even"]),
        [⟨4, some "even"⟩, ⟨2, some "odd"⟩, ⟨6, none⟩]⟩, [["even", "odd"], ["even", "odd"],
        ["even", "odd", "base"], ["even"], ["even", "base"], [], ["base"]]) := by cbv
  obtain ⟨w, hrun, hloadings⟩ := run_of_soundings hsound
  obtain ⟨hpoints, hended, -, -, -, -, hrestored⟩ :=
    loading_disciplined ⟨8, spiral, 0⟩ [⟨3, .require "base" none⟩, ⟨4, .require "even" none⟩] false {}
  obtain ⟨htruthful, herror, -⟩ := hended _ w hrun
  obtain ⟨-, -, -, hcyclic⟩ := hpoints _ .refl
  refine ⟨w, _, hrun, rfl, hrestored _ _ _ _ hrun, ?_, hloadings, herror, ?_⟩
  · rw [← hloadings]
    exact List.map_congr_left htruthful.modules
  · rintro ⟨cycle, hends⟩
    obtain ⟨hmem, -⟩ := (hcyclic _ _ "base" none rfl rfl cycle).1 hends
    exact absurd hmem List.not_mem_nil

end Session

end LambdaPi
