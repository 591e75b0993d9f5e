import Mathlib
import LambdaPi.Proofs.LoadingStack

/-!
# Loading terminates

A module may be asked for again and again, in different spaces and by way of different modules, and
modules may ask for each other in a circle. So neither the instructions left nor the modules loaded
so far bound a run. What does is that a module cannot be asked for while it is being loaded: entering
a module leaves fewer modules that can be entered, and going past an instruction leaves these alone
and fewer instructions at the same place. The two together decrease lexicographically
(`Task.wellFounded_next`).

It follows that modules are nested no deeper than there are modules that are not being loaded, that a
run reaches finitely many instructions, and that it returns if the commands do that it reaches
(`loading_terminates`). The bound on nesting that `instructAll` is given plays no part in this: beyond
the number of modules that are not being loaded, every bound gives the same outcome
(`instructAll_stable`).
-/

namespace LambdaPi

theorem Library.mem_of_load {named : List (String × List Instruction)} {moduleName : String}
    {instrs : List Instruction} (h : (modules named).load moduleName = .ok instrs) :
    (moduleName, instrs) ∈ named := by
  simp only [load] at h
  split at h
  · next hlookup =>
    obtain rfl := Except.ok.inj h
    obtain ⟨_, _, rfl, -⟩ := List.lookup_eq_some_iff.1 hlookup
    simp
  · cases h

/-- Entering a module leaves fewer modules that are not being loaded. -/
theorem Library.unloaded_lt {lib : Library} {moduleName : String} {instrs : List Instruction}
    {loading : List String} (hfresh : moduleName ∉ loading)
    (hload : lib.load moduleName = .ok instrs) :
    lib.unloaded (loading ++ [moduleName]) < lib.unloaded loading := by
  cases lib with
  | unsupported => cases hload
  | modules named =>
      have hfilter : (named.filter fun e => decide (e.1 ∉ loading ++ [moduleName]))
          = (named.filter fun e => decide (e.1 ∉ loading)).filter
            fun e => decide (e.1 ≠ moduleName) := by
        rw [List.filter_filter]
        refine List.filter_congr fun e _ => ?_
        simp [and_comm]
      calc (named.filter fun e => decide (e.1 ∉ loading ++ [moduleName])).length
          = ((named.filter fun e => decide (e.1 ∉ loading)).filter
            fun e => decide (e.1 ≠ moduleName)).length := by rw [hfilter]
        _ < (named.filter fun e => decide (e.1 ∉ loading)).length := by
            refine List.length_filter_lt_length_iff_exists.2 ⟨(moduleName, instrs), ?_, by simp⟩
            exact List.mem_filter.2 ⟨mem_of_load hload, by simpa using hfresh⟩

namespace Session

open Attempt

variable {host : Host}

/-! ## Tasks -/

/-- Instructions that are to be checked at a place, from a state on. -/
structure Task where
  place : Place
  rest : List Instruction
  state : RunState

namespace Task

/-- The modules being loaded. -/
abbrev loading (p : Task) : List String :=
  p.state.session.loading

/-- The first instruction ends well, and the others are left. -/
inductive Past (host : Host) : Task → Task → Prop
  | mk {place i rest w w₁} : w.checkInstruction host place i = .ok (.ok (), w₁) →
      Past host ⟨place, i :: rest, w⟩ ⟨place, rest, w₁⟩

/-- The first instruction asks for a module, whose instructions are to be checked now. -/
inductive Into (host : Host) : Task → Task → Prop
  | mk {place i rest w moduleName localName instrs} :
      i.command = .require moduleName localName → moduleName ∉ w.session.loading →
      host.library.load moduleName = .ok instrs →
      Into host ⟨place, i :: rest, w⟩
        ⟨place.inner i.line moduleName localName, instrs,
          entering (noting w i.line) moduleName (innerSpace place.space localName)⟩

/-- What is left to do after an instruction, or has to be done inside it. -/
def Next (host : Host) (p q : Task) : Prop :=
  p.Past host q ∨ p.Into host q

/-- One task reaches another, which is the given number of calls deep: the call for the first task
counts, and so does each module that is being loaded in between. -/
inductive Reaches (host : Host) : Nat → Task → Task → Prop
  | here {p} : Reaches host 1 p p
  | past {depth p p' q} : p.Past host p' → Reaches host depth p' q → Reaches host depth p q
  | into {depth p p' q} : p.Into host p' → Reaches host depth p' q → Reaches host (depth + 1) p q

/-- The command of the first instruction returns, unless it asks for a module. -/
def CommandReturns (host : Host) (p : Task) : Prop :=
  ∀ i rest, p.rest = i :: rest →
    (∀ moduleName localName, i.command ≠ .require moduleName localName) →
    ∃ r w, Ends (command host (Moment.command ⟨p.place, i, p.state⟩)) (noting p.state i.line) r w

variable {p q : Task}

/-! ## The measure -/

theorem Past.loading (h : p.Past host q) : q.loading = p.loading := by
  obtain ⟨hi⟩ := h
  exact instruct_loading hi

theorem Past.unloaded (h : p.Past host q) :
    host.library.unloaded q.loading = host.library.unloaded p.loading := by
  rw [h.loading]

theorem Into.unloaded (h : p.Into host q) :
    host.library.unloaded q.loading < host.library.unloaded p.loading := by
  obtain ⟨-, hfresh, hload⟩ := h
  exact Library.unloaded_lt hfresh hload

theorem wellFounded_next (host : Host) : WellFounded fun q p : Task => p.Next host q := by
  let measure (p : Task) : Nat × Nat := (host.library.unloaded p.loading, p.rest.length)
  refine Subrelation.wf (r := InvImage (Prod.Lex (· < ·) (· < ·)) measure) ?_
    (InvImage.wf measure (WellFounded.prod_lex Nat.lt_wfRel.wf Nat.lt_wfRel.wf))
  intro q p h
  rcases h with hpast | hinto
  · have hsame := hpast.unloaded
    cases hpast
    exact Prod.lex_def.2 (.inr ⟨hsame, Nat.lt_succ_self _⟩)
  · exact Prod.lex_def.2 (.inl hinto.unloaded)

/-- Modules are nested no deeper than there are modules that are not being loaded. -/
theorem Reaches.depth_le {depth : Nat} (h : p.Reaches host depth q) :
    depth ≤ host.library.unloaded p.loading + 1 := by
  induction h with
  | here => exact Nat.le_add_left ..
  | past hpast _ ih =>
      rw [← hpast.unloaded]
      exact ih
  | into hinto _ ih =>
      have hless := hinto.unloaded
      omega

/-- The instructions that are reached are those given and those of modules. -/
theorem Reaches.mem_rest {depth : Nat} {i : Instruction}
    (h : p.Reaches host depth q) (hi : i ∈ q.rest) :
    i ∈ p.rest ∨ ∃ moduleName instrs, host.library.load moduleName = .ok instrs ∧ i ∈ instrs := by
  induction h with
  | here => exact .inl hi
  | past hpast _ ih =>
      refine (ih hi).imp_left fun hmem => ?_
      cases hpast
      exact List.mem_cons_of_mem _ hmem
  | into hinto _ ih =>
      refine .inr ((ih hi).elim (fun hmem => ?_) id)
      obtain ⟨-, -, hload⟩ := hinto
      exact ⟨_, _, hload, hmem⟩

/-! ## Finitely many tasks -/

theorem finite_next (host : Host) (p : Task) : {q | p.Next host q}.Finite := by
  have hpast : {q | p.Past host q}.Subsingleton := by
    rintro q ⟨hq⟩ q' hq'
    cases hq' with
    | mk hq' =>
        obtain ⟨-, rfl⟩ := Prod.mk.inj (Except.ok.inj (hq.symm.trans hq'))
        rfl
  have hinto : {q | p.Into host q}.Subsingleton := by
    rintro q ⟨hc, -, hload⟩ q' hq'
    cases hq' with
    | mk hc' _ hload' =>
        obtain ⟨rfl, rfl⟩ := Command.require.inj (hc.symm.trans hc')
        obtain rfl := Except.ok.inj (hload.symm.trans hload')
        rfl
  exact hpast.finite.union hinto.finite

theorem finite_reached (host : Host) (p : Task) :
    {q | ∃ depth, p.Reaches host depth q}.Finite := by
  induction p using (wellFounded_next host).induction with
  | h p ih =>
      have hlater := (finite_next host p).biUnion ih
      refine (hlater.insert p).subset ?_
      rintro q ⟨depth, hq⟩
      cases hq with
      | here => exact Set.mem_insert _ _
      | @past _ _ p' _ hpast hq =>
          exact Set.mem_insert_of_mem _ (Set.mem_biUnion (.inl hpast) ⟨_, hq⟩)
      | @into depth _ p' _ hinto hq =>
          exact Set.mem_insert_of_mem _ (Set.mem_biUnion (.inr hinto) ⟨_, hq⟩)

end Task

/-! ## One instruction -/

/-- What an instruction does does not depend on how modules are entered, unless it enters one. If it
does, it returns as soon as the instructions of the module have ended. -/
theorem instruct_run_cases (host : Host) (place : Place) (i : Instruction) (rest : List Instruction)
    (w : RunState) :
    ((∀ moduleName localName, i.command ≠ .require moduleName localName) ∧
      ∀ enter, (instruct host enter place i).run.run w =
        (report host (place.trailTo i.line) (Moment.command ⟨place, i, w⟩)).run.run
          (noting w i.line)) ∨
    (∃ e w', ∀ enter, Ends (instruct host enter place i) w (.error e) w') ∨
    ∃ (q : Task) (after : Except LocatedError Unit → RunState → RunState),
      (⟨place, i :: rest, w⟩ : Task).Into host q ∧
      ∀ enter, (instruct host enter place i).run.run w =
        (enter q.place q.rest).run.run q.state >>= fun result =>
          .ok (result.1, after result.1 result.2) := by
  by_cases hi : ∃ moduleName localName, i.command = .require moduleName localName
  · obtain ⟨moduleName, localName, hc⟩ := hi
    by_cases hfresh : moduleName ∈ w.session.loading
    · exact .inr (.inl ⟨_, _, fun enter =>
        (instruct_eq_require hc).trans (require_cyclic (w := noting w i.line) hfresh)⟩)
    · cases hload : host.library.load moduleName with
      | error e =>
          exact .inr (.inl ⟨_, _, fun enter =>
            (instruct_eq_require hc).trans (require_missing (w := noting w i.line) hfresh hload)⟩)
      | ok instrs =>
          refine .inr (.inr ⟨_, leaving moduleName (place.trailTo i.line), .mk hc hfresh hload,
            fun enter => (instruct_eq_require hc).trans ?_⟩)
          exact require_run (w := noting w i.line) hfresh hload
  · refine .inl ⟨fun moduleName localName hc => hi ⟨_, _, hc⟩, fun enter => ?_⟩
    exact instruct_eq_report fun moduleName localName hc => hi ⟨_, _, hc⟩

theorem instruct_congr {enter enter' : Enter} {place : Place} {i : Instruction} {w : RunState}
    (rest : List Instruction)
    (h : ∀ q, (⟨place, i :: rest, w⟩ : Task).Into host q →
      (enter q.place q.rest).run.run q.state = (enter' q.place q.rest).run.run q.state) :
    (instruct host enter place i).run.run w = (instruct host enter' place i).run.run w := by
  rcases instruct_run_cases host place i rest w with
    ⟨-, hcommand⟩ | ⟨e, w', hrefused⟩ | ⟨q, after, hinto, hentered⟩
  · rw [hcommand, hcommand]
  · exact (hrefused enter).trans (hrefused enter').symm
  · rw [hentered, hentered, h q hinto]

theorem report_returns {trail : Trail} {c : Command} {w : RunState}
    (h : ∃ r w', Ends (command host c) w r w') : ∃ r w', Ends (report host trail c) w r w' := by
  obtain ⟨r, w', hcommand⟩ := h
  have houtcome : Ends (outcome (command host c) : Attempt LocatedError _) w (.ok r) w' :=
    ends_outcome.2 ⟨r, rfl, hcommand⟩
  rcases r with e | _ | m
  · exact ⟨_, _, houtcome.andThen (ends_fail.2 ⟨rfl, rfl⟩)⟩
  · exact ⟨_, _, houtcome.andThen (ends_pure.2 ⟨rfl, rfl⟩)⟩
  · exact ⟨_, _, houtcome.andThen (ends_modify.2 ⟨rfl, rfl⟩)⟩

/-! ## All instructions -/

theorem instructAll_nil (host : Host) (n m : Nat) (place : Place) :
    instructAll host (n + 1) place [] = instructAll host (m + 1) place [] := by
  rw [instructAll, instructAll, List.forM_eq_forM, List.forM_nil, List.forM_nil]

theorem instructAll_cons (host : Host) (nesting : Nat) (place : Place) (i : Instruction)
    (rest : List Instruction) :
    instructAll host (nesting + 1) place (i :: rest) =
      instruct host (instructAll host nesting) place i >>= fun _ =>
        instructAll host (nesting + 1) place rest := by
  rw [instructAll, instructAll, List.forM_eq_forM, List.forM_cons, bind_assoc]

/-- Beyond the number of modules that are not being loaded, it does not matter how deeply modules may
be nested. -/
theorem instructAll_stable {n m : Nat} {place : Place} {instrs : List Instruction} {w : RunState}
    (hn : host.library.unloaded w.session.loading < n)
    (hm : host.library.unloaded w.session.loading < m) :
    (instructAll host n place instrs).run.run w = (instructAll host m place instrs).run.run w := by
  induction n generalizing m place instrs w with
  | zero => omega
  | succ n ih =>
      cases m with
      | zero => omega
      | succ m =>
          induction instrs generalizing w with
          | nil => rw [instructAll_nil host n m place]
          | cons i rest ihrest =>
              rw [instructAll_cons, instructAll_cons]
              refine run_bind_congr (instruct_congr rest fun q hq => ?_) fun _ w₁ hi => ?_
              · exact ih (Nat.lt_of_lt_of_le hq.unloaded (Nat.lt_succ_iff.1 hn))
                  (Nat.lt_of_lt_of_le hq.unloaded (Nat.lt_succ_iff.1 hm))
              · rw [← instruct_loading hi] at hn hm
                exact ihrest hn hm

theorem instructAll_nil_returns (host : Host) (nesting : Nat) (place : Place) (w : RunState) :
    ∃ r w', Ends (instructAll host (nesting + 1) place []) w r w' := by
  rw [instructAll, List.forM_eq_forM, List.forM_nil, pure_bind]
  cases hproven : w.session.signature.allProven place.space with
  | ok u =>
      refine ⟨.ok (), w, ends_bind_signature.2 ?_⟩
      rw [hproven]
      exact ends_pure.2 ⟨rfl, rfl⟩
  | error e =>
      refine ⟨.error ⟨.signature e, place.trail⟩, w.say (.error ⟨.signature e, place.trail⟩), ?_⟩
      refine ends_bind_signature.2 ?_
      rw [hproven]
      exact ends_fail.2 ⟨rfl, rfl⟩

/-- An instruction returns if its command does, or the instructions of the module that it asks for. -/
theorem checkInstruction_returns {place : Place} {i : Instruction} {rest : List Instruction}
    {w : RunState} (hcommand : (⟨place, i :: rest, w⟩ : Task).CommandReturns host)
    (hinside : ∀ q, (⟨place, i :: rest, w⟩ : Task).Into host q →
      ∃ r w₂, q.state.checkInstructions host q.place q.rest = .ok (r, w₂)) :
    ∃ r w₁, w.checkInstruction host place i = .ok (r, w₁) := by
  rcases instruct_run_cases host place i rest w with
    ⟨hi, hreport⟩ | ⟨e, w', hrefused⟩ | ⟨q, after, hinto, hentered⟩
  · rw [RunState.checkInstruction, hreport]
    exact report_returns (hcommand i rest rfl hi)
  · exact ⟨_, _, hrefused _⟩
  · obtain ⟨r, w₂, hq⟩ := hinside q hinto
    -- the bound that is left for the module is large enough
    have henter := (instructAll_stable hinto.unloaded (Nat.lt_succ_self _)).trans hq
    refine ⟨r, after r w₂, ?_⟩
    rw [RunState.checkInstruction, hentered, RunState.nesting, henter]
    rfl

/-- Checking instructions returns if every command does that is reached. -/
theorem Task.returns {p : Task} (h : ∀ depth q, p.Reaches host depth q → q.CommandReturns host) :
    ∃ r w, p.state.checkInstructions host p.place p.rest = .ok (r, w) := by
  induction p using (Task.wellFounded_next host).induction with
  | h p ih =>
      obtain ⟨place, rest, w⟩ := p
      cases rest with
      | nil => exact instructAll_nil_returns host (w.nesting host) place w
      | cons i rest =>
          obtain ⟨r, w₁, hi⟩ := checkInstruction_returns (h 1 _ .here) fun q hinto =>
            ih q (.inr hinto) fun depth q' hq' => h _ q' (.into hinto hq')
          rw [RunState.checkInstructions, instructAll_cons]
          cases r with
          | error e => exact ⟨_, _, ends_bind.2 (.inr ⟨e, hi, rfl⟩)⟩
          | ok u =>
              have hpast : (⟨place, i :: rest, w⟩ : Task).Past host ⟨place, rest, w₁⟩ := .mk hi
              obtain ⟨r, w', hrest⟩ := ih _ (.inl hpast) fun depth q hq => h depth q (.past hpast hq)
              have hsame : w₁.nesting host = w.nesting host :=
                congrArg host.library.unloaded (instruct_loading hi)
              refine ⟨r, w', Ends.andThen hi ?_⟩
              rw [← hsame]
              exact hrest

/-- Whatever modules there are and wherever instructions are begun, a run cannot go on to the next
instruction and into modules for ever. Calls are nested at most one deeper than there are modules that
are not being loaded, finitely many instructions are reached, a larger bound on the nesting makes no
difference, and the run returns if every command that it reaches does. -/
theorem loading_terminates (host : Host) :
    (WellFounded fun q p : Task => p.Next host q) ∧
    ∀ p : Task,
      (∀ depth q, p.Reaches host depth q → depth ≤ host.library.unloaded p.loading + 1) ∧
      {q | ∃ depth, p.Reaches host depth q}.Finite ∧
      (∀ nesting, host.library.unloaded p.loading < nesting →
        (instructAll host nesting p.place p.rest).run.run p.state =
          p.state.checkInstructions host p.place p.rest) ∧
      ((∀ depth q, p.Reaches host depth q → q.CommandReturns host) →
        ∃ r w, p.state.checkInstructions host p.place p.rest = .ok (r, w)) := by
  refine ⟨Task.wellFounded_next host, fun p => ⟨fun depth q => Task.Reaches.depth_le,
    Task.finite_reached host p, fun nesting hnesting => ?_, Task.returns⟩⟩
  exact instructAll_stable hnesting (Nat.lt_succ_self _)

/-- Two modules that ask for each other. The first one says something before it does. -/
def ring : Library :=
  .modules [("even", [⟨1, .print .type⟩, ⟨2, .require "odd" none⟩]),
    ("odd", [⟨5, .require "even" (some "e")⟩])]

/-- A request for one of two modules that ask for each other. -/
def ringTask : Task :=
  ⟨{}, [⟨3, .require "even" none⟩], {}⟩

theorem loading_terminates_ring :
    (∃ q, ringTask.Reaches ⟨8, ring, 0⟩ 3 q)
      ∧ (∀ depth q, ringTask.Reaches ⟨8, ring, 0⟩ depth q → depth ≤ 3)
      ∧ (∀ depth q, ringTask.Reaches ⟨8, ring, 0⟩ depth q → q.CommandReturns ⟨8, ring, 0⟩)
      ∧ ∃ r w, RunState.run ⟨8, ring, 0⟩ [⟨3, .require "even" none⟩] {} = .ok (r, w) := by
  obtain ⟨-, hall⟩ := loading_terminates ⟨8, ring, 0⟩
  obtain ⟨hdepth, -, -, hreturns⟩ := hall ringTask
  have hcommands : ∀ depth q, ringTask.Reaches ⟨8, ring, 0⟩ depth q →
      q.CommandReturns ⟨8, ring, 0⟩ := by
    intro depth q hq i rest hrest hc
    rcases hq.mem_rest (hrest ▸ List.mem_cons_self) with hmem | ⟨moduleName, instrs, hload, hmem⟩
    · obtain rfl := List.mem_singleton.1 hmem
      exact absurd rfl (hc _ _)
    · have hnamed := Library.mem_of_load hload
      simp only [List.mem_cons, Prod.mk.injEq, List.not_mem_nil, or_false] at hnamed
      rcases hnamed with ⟨rfl, rfl⟩ | ⟨rfl, rfl⟩
      · rcases List.mem_cons.1 hmem with rfl | hmem
        · exact ⟨_, _, rfl⟩
        · obtain rfl := List.mem_singleton.1 hmem
          exact absurd rfl (hc _ _)
      · obtain rfl := List.mem_singleton.1 hmem
        exact absurd rfl (hc _ _)
  refine ⟨?_, hdepth, hcommands, hreturns hcommands⟩
  -- into the first module, past its first instruction, and into the second module
  obtain ⟨⟨place, _, w⟩, heven, rfl, hloading⟩ : ∃ p : Task, ringTask.Into ⟨8, ring, 0⟩ p
      ∧ p.rest = [⟨1, .print .type⟩, ⟨2, .require "odd" none⟩] ∧ p.loading = ["even"] :=
    ⟨_, .mk rfl List.not_mem_nil rfl, rfl, rfl⟩
  obtain ⟨w₁, hprint⟩ : ∃ w₁,
      w.checkInstruction ⟨8, ring, 0⟩ place ⟨1, .print .type⟩ = .ok (.ok (), w₁) := by
    rw [RunState.checkInstruction, instruct_eq_report (by simp)]
    exact ⟨_, rfl⟩
  have hfresh : "odd" ∉ w₁.session.loading := by
    have hsame : w₁.session.loading = ["even"] := (instruct_loading hprint).trans hloading
    simp [hsame]
  exact ⟨_, .into heven (.past (.mk hprint) (.into (.mk rfl hfresh rfl) .here))⟩

end Session

end LambdaPi
