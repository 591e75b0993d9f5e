import Mathlib
import LambdaPi.Proofs.Moments

/-!
# Proof obligations

A theorem that is declared without a proof is owed a proof, and when a space is closed no theorem
that lives in it may still be owed one. The space a theorem lives in is read off its name:
everything before the last dot. This is the space it was declared in if the declared name has no dot
(`Symbol.space_qualify`), and may be a space that is never closed if it has.

`Library.history` lists, in order, which theorems a run declares and which spaces it closes. The
invariant of a run is `Accounted`: whoever is still owed a proof was declared at some point of the
history, and its space was not closed since. A space is closed after everything declared in it
(`closed_of_declared`), so only theorems with a dot in their declared names can be left over.
-/

namespace LambdaPi

/-! ## Spaces -/

theorem cutAtLastDot_eq_none {name : List Char} (h : '.' ∉ name) : cutAtLastDot name = none := by
  induction name with
  | nil => rfl
  | cons c cs ih =>
      rw [List.mem_cons, not_or] at h
      rw [cutAtLastDot, ih h.2]
      exact if_neg (Ne.symm h.1)

theorem cutAtLastDot_append {name : List Char} (h : '.' ∉ name) (space : List Char) :
    cutAtLastDot (space ++ '.' :: name) = some (space, name) := by
  induction space with
  | nil => simp [cutAtLastDot, cutAtLastDot_eq_none h]
  | cons c cs ih => simp [cutAtLastDot, ih]

theorem Symbol.space_qualify {name : String} (h : '.' ∉ name.toList) (space : String) :
    (Symbol.qualify space name).space = space := by
  by_cases hspace : space = ""
  · subst hspace
    simp [Symbol.qualify, Symbol.space, cutAtLastDot_eq_none h]
  · simp [Symbol.qualify, Symbol.space, hspace, cutAtLastDot_append h]

/-! ## Being owed a proof -/

theorem Table.mem_of_find? {α : Type} {table : Table α} {s : Symbol} {a : α}
    (h : table.find? s = some a) : (s, a) ∈ table := by
  induction table with
  | nil => cases h
  | cons entry rest ih =>
      obtain ⟨t, b⟩ := entry
      rw [Table.find?] at h
      split at h
      · next hst =>
        subst hst
        obtain rfl := Option.some.inj h
        exact List.mem_cons_self ..
      · exact List.mem_cons_of_mem _ (ih h)

theorem Table.find?_isSome_of_mem {α : Type} {table : Table α} {s : Symbol} {a : α}
    (h : (s, a) ∈ table) : (table.find? s).isSome = true := by
  induction table with
  | nil => cases h
  | cons entry rest ih =>
      obtain ⟨t, b⟩ := entry
      rw [Table.find?]
      split
      · rfl
      · next hst =>
        rcases List.mem_cons.1 h with h | h
        · exact absurd (congrArg Prod.fst h) hst
        · exact ih h

theorem Table.enter_of_find?_none {α : Type} {table : Table α} {s : Symbol}
    (h : table.find? s = none) (a : α) : table.enter s a = table ++ [(s, a)] := by
  induction table with
  | nil => rfl
  | cons entry rest ih =>
      obtain ⟨t, b⟩ := entry
      rw [Table.find?] at h
      split at h
      · cases h
      · next hst => rw [Table.enter, if_neg hst, ih h, List.cons_append]

theorem Table.map_fst_enter {α : Type} {table : Table α} {s : Symbol} {b : α}
    (h : table.find? s = some b) (a : α) : (table.enter s a).map (·.1) = table.map (·.1) := by
  induction table with
  | nil => cases h
  | cons entry rest ih =>
      obtain ⟨t, c⟩ := entry
      rw [Table.enter]
      rw [Table.find?] at h
      split
      · rfl
      · next hst =>
        rw [if_neg hst] at h
        rw [List.map_cons, List.map_cons, ih h]

theorem Symbol.exists_smallest? {symbols : List Symbol} {s : Symbol} (h : s ∈ symbols) :
    ∃ t ∈ symbols, Symbol.smallest? symbols = some t := by
  induction symbols generalizing s with
  | nil => cases h
  | cons u rest ih =>
      rw [Symbol.smallest?]
      split
      · exact ⟨u, List.mem_cons_self .., rfl⟩
      · next t ht =>
        split
        · cases rest with
          | nil => cases ht
          | cons v rest =>
              obtain ⟨t', hmem, ht'⟩ := ih (List.mem_cons_self ..)
              obtain rfl := Option.some.inj (ht'.symm.trans ht)
              exact ⟨t', List.mem_cons_of_mem _ hmem, rfl⟩
        · exact ⟨u, List.mem_cons_self .., rfl⟩

namespace Signature

/-- The symbol is a theorem without a proof. -/
def Owes (σ : Signature) (s : Symbol) : Prop :=
  ∃ e, σ.entry? s = some e ∧ e.unproven = true

theorem Owes.mem_unprovenIn {σ : Signature} {s : Symbol} (h : σ.Owes s) :
    s ∈ σ.unprovenIn s.space := by
  obtain ⟨e, he, hunproven⟩ := h
  refine List.mem_map.2 ⟨(s, e), List.mem_filter.2 ⟨Table.mem_of_find? he, ?_⟩, rfl⟩
  simp [hunproven]

theorem allProven_ok_iff {σ : Signature} {space : String} :
    σ.allProven space = .ok () ↔ σ.unprovenIn space = [] := by
  constructor
  · intro h
    refine List.eq_nil_iff_forall_not_mem.2 fun s hs => ?_
    obtain ⟨t, ht, hsmallest⟩ := Symbol.exists_smallest? hs
    obtain ⟨⟨t, e⟩, hmem, rfl⟩ := List.mem_map.1 ht
    obtain ⟨e', he'⟩ := Option.isSome_iff_exists.1
      (Table.find?_isSome_of_mem (List.mem_filter.1 hmem).1)
    have htype : σ.typeOf? t = some e'.type := congrArg (Option.map Entry.type) he'
    rw [allProven, hsmallest] at h
    simp only [htype] at h
    cases h
  · intro h
    rw [allProven, h]
    rfl

/-- A space can be closed only if nothing that lives in it is owed a proof. -/
theorem space_ne_of_allProven {σ : Signature} {space : String} (h : σ.allProven space = .ok ())
    {s : Symbol} (hs : σ.Owes s) : s.space ≠ space := by
  rintro rfl
  have hmem := hs.mem_unprovenIn
  rw [allProven_ok_iff.1 h] at hmem
  cases hmem

/-! What the changes of a signature owe. -/

variable {σ σ' : Signature} {s t : Symbol}

theorem Owes.of_declare {A : Term} {obligation : Bool} (h : σ.declare s A obligation = .ok σ')
    (ht : σ'.Owes t) : σ.Owes t ∨ t = s ∧ obligation = true := by
  unfold declare at h
  split at h
  · cases h
  · obtain rfl := Except.ok.inj h
    obtain ⟨e, he, hunproven⟩ := ht
    by_cases hts : t = s
    · subst hts
      obtain rfl := Option.some.inj ((Table.find?_enter_self ..).symm.trans he)
      exact .inr ⟨rfl, (Bool.and_eq_true_iff.1 hunproven).1⟩
    · exact .inl ⟨e, (Table.find?_enter_of_ne hts ..).symm.trans he, hunproven⟩

theorem owes_of_declare {A : Term} (h : σ.declare s A true = .ok σ') : σ'.Owes s := by
  unfold declare at h
  split at h
  · cases h
  · obtain rfl := Except.ok.inj h
    exact ⟨_, Table.find?_enter_self .., rfl⟩

theorem unprovenIn_of_declare {A : Term} {obligation : Bool} {space : String}
    (h : σ.declare s A obligation = .ok σ') (hspace : s.space ≠ space) :
    σ'.unprovenIn space = σ.unprovenIn space := by
  unfold declare at h
  split at h
  · cases h
  · next hfresh =>
    obtain rfl := Except.ok.inj h
    have hnone : σ.entries.find? s = none := by simpa [declares, entry?] using hfresh
    simp [unprovenIn, Table.enter_of_find?_none hnone, hspace]

theorem Owes.of_setProven (h : σ.setProven s = .ok σ') (ht : σ'.Owes t) : σ.Owes t := by
  unfold setProven at h
  split at h
  · cases h
  · obtain rfl := Except.ok.inj h
    obtain ⟨e, he, hunproven⟩ := ht
    by_cases hts : t = s
    · subst hts
      obtain rfl := Option.some.inj ((Table.find?_enter_self ..).symm.trans he)
      simp [Entry.unproven] at hunproven
    · exact ⟨e, (Table.find?_enter_of_ne hts ..).symm.trans he, hunproven⟩

theorem Owes.of_addRule {rule : Rule} (h : σ.addRule rule = .ok σ') (ht : σ'.Owes t) :
    σ.Owes t := by
  unfold addRule at h
  split at h
  · split at h
    · cases h
    · obtain rfl := Except.ok.inj h
      exact ht
  · cases h

theorem Owes.of_declaration {d : Declaration} {A : Term}
    (h : σ.declare ⟨d.name⟩ A d.isOpen = .ok σ') (ht : σ'.Owes t) :
    σ.Owes t ∨ ∃ d', Command.declare d = .declare d' ∧ t = ⟨d'.name⟩ ∧ d'.isOpen = true := by
  rcases ht.of_declare h with ht | ⟨rfl, hopen⟩
  · exact .inl ht
  · exact .inr ⟨d, rfl, rfl, hopen⟩

/-- A command makes the signature owe a proof only to the open theorem that it declares. -/
theorem Owes.of_effect {c : Command} (h : Effect σ c σ') (ht : σ'.Owes t) :
    σ.Owes t ∨ ∃ d, c = .declare d ∧ t = ⟨d.name⟩ ∧ d.isOpen = true := by
  cases h with
  | declared hdecl hbody => exact ht.of_declaration hdecl
  | asConstant hdecl => exact Owes.of_declaration hdecl ht
  | defined hdecl hbody hrule => exact (ht.of_addRule hrule).of_declaration hdecl
  | constant => exact .inl ht
  | injective => exact .inl ht
  | rewrites hsides htheorem hrule => exact .inl (ht.of_addRule hrule)
  | proves hsides htheorem hrule hproven =>
      exact .inl ((ht.of_setProven hproven).of_addRule hrule)
  | asks => exact .inl ht

end Signature

/-! ## The history of a run -/

/-- What matters to proof obligations while instructions are checked. -/
inductive Milestone where
  /-- a symbol is declared in a space -/
  | declared (space : String) (d : Declaration)
  /-- all instructions of a space were checked -/
  | closed (space : String)

namespace Library

/-- What a command in a space contributes, given the milestones of the instructions of a module. -/
def milestonesOf (lib : Library) (inside : String → List Instruction → List Milestone)
    (space : String) : Command → List Milestone
  | .declare d => [.declared space d]
  | .require moduleName localName =>
    match lib.load moduleName with
    | .ok instrs => inside (Session.innerSpace space localName) instrs
    | .error _ => []
  | _ => []

/-- The milestones of instructions in a space, where modules are nested at most `nesting` deep. -/
def milestones (lib : Library) : Nat → String → List Instruction → List Milestone
  | 0, _, _ => []
  | nesting + 1, space, instrs =>
    instrs.flatMap (fun i => lib.milestonesOf (lib.milestones nesting) space i.command)
      ++ [.closed space]

/-- The milestones of a run that starts with no module being loaded. -/
def history (lib : Library) (instrs : List Instruction) : List Milestone :=
  lib.milestones (lib.unloaded [] + 1) "" instrs

end Library

theorem suffix_append_cases {α : Type} {x : α} {xs as bs : List α} (h : x :: xs <:+ as ++ bs) :
    x :: xs <:+ bs ∨ ∃ ys, x :: ys <:+ as ∧ xs = ys ++ bs := by
  obtain ⟨pre, hpre⟩ := h
  rcases List.append_eq_append_iff.1 hpre with ⟨mid, has, hbs⟩ | ⟨mid, -, hbs⟩
  · cases mid with
    | nil => exact .inl ⟨[], hbs⟩
    | cons y ys =>
        obtain ⟨rfl, rfl⟩ := List.cons.inj hbs
        exact .inr ⟨ys, ⟨pre, has.symm⟩, rfl⟩
  · exact .inl ⟨mid, hbs.symm⟩

/-- What a command declares and does not close again stands in the space of the command. -/
theorem milestonesOf_declared {lib : Library} {inside : String → List Instruction → List Milestone}
    (hinside : ∀ {space₀ instrs space d later},
      .declared space d :: later <:+ inside space₀ instrs → Milestone.closed space ∈ later)
    {space₀ space : String} {c : Command} {d : Declaration} {later : List Milestone}
    (h : .declared space d :: later <:+ lib.milestonesOf inside space₀ c) :
    space = space₀ ∨ Milestone.closed space ∈ later := by
  unfold Library.milestonesOf at h
  split at h
  · rcases List.suffix_cons_iff.1 h with h | h
    · cases h
      exact .inl rfl
    · cases List.eq_nil_of_suffix_nil h
  · split at h
    · exact .inr (hinside h)
    · cases List.eq_nil_of_suffix_nil h
  · cases List.eq_nil_of_suffix_nil h

theorem flatMap_declared {f : Instruction → List Milestone} {space₀ space : String}
    {d : Declaration}
    (hf : ∀ {i later}, .declared space d :: later <:+ f i →
      space = space₀ ∨ Milestone.closed space ∈ later)
    {instrs : List Instruction} {later : List Milestone}
    (h : .declared space d :: later <:+ instrs.flatMap f) :
    space = space₀ ∨ Milestone.closed space ∈ later := by
  induction instrs with
  | nil => cases List.eq_nil_of_suffix_nil h
  | cons i rest ih =>
      rw [List.flatMap_cons] at h
      rcases suffix_append_cases h with h | ⟨inner, hinner, rfl⟩
      · exact ih h
      · rcases hf hinner with hspace | hclosed
        · exact .inl hspace
        · exact .inr (List.mem_append_left _ hclosed)

/-- After a declaration the space it stands in is closed. -/
theorem closed_of_declared {lib : Library} {nesting : Nat} {space₀ space : String}
    {instrs : List Instruction} {d : Declaration} {later : List Milestone}
    (h : .declared space d :: later <:+ lib.milestones nesting space₀ instrs) :
    .closed space ∈ later := by
  induction nesting generalizing space₀ space instrs d later with
  | zero => cases List.eq_nil_of_suffix_nil h
  | succ nesting ih =>
      rcases suffix_append_cases h with h | ⟨inner, hinner, rfl⟩
      · rcases List.suffix_cons_iff.1 h with h | h
        · cases h
        · cases List.eq_nil_of_suffix_nil h
      · rcases flatMap_declared (milestonesOf_declared ih) hinner with rfl | hclosed
        · exact List.mem_append_right _ (List.mem_cons_self ..)
        · exact List.mem_append_left _ hclosed

/-! ## The invariant of a run -/

/-- The symbol was declared as an open theorem, and the space it lives in was not closed since. -/
def Outstanding (past : List Milestone) (s : Symbol) : Prop :=
  ∃ space d later, .declared space d :: later <:+ past ∧ d.isOpen = true ∧
    s = Symbol.qualify space d.name ∧ .closed s.space ∉ later

/-- Whoever is owed a proof is outstanding. -/
def Accounted (σ : Signature) (past : List Milestone) : Prop :=
  ∀ s, σ.Owes s → Outstanding past s

theorem Outstanding.append {past : List Milestone} {s : Symbol} (h : Outstanding past s)
    {m : Milestone} (hm : m ≠ .closed s.space) : Outstanding (past ++ [m]) s := by
  obtain ⟨space, d, later, hlater, hopen, hs, hclosed⟩ := h
  obtain ⟨pre, rfl⟩ := hlater
  refine ⟨space, d, later ++ [m], ⟨pre, by simp⟩, hopen, hs, ?_⟩
  simp [hclosed, Ne.symm hm]

namespace Session

open Attempt Signature

variable {host : Host} {w w' : RunState} {past : List Milestone}

/-- The entering of modules keeps account, where `inside` lists the milestones of a module. -/
def KeepsAccount (enter : Enter) (inside : String → List Instruction → List Milestone) : Prop :=
  ∀ {place instrs w w' past}, Ends (enter place instrs) w (.ok ()) w' →
    Accounted w.session.signature past →
    Accounted w'.session.signature (past ++ inside place.space instrs)

theorem effect_accounted {σ σ' : Signature} {space : String} {c : Command}
    {inside : String → List Instruction → List Milestone}
    (h : Effect σ (((⟨σ, space⟩ : Scope).command c).run 0).1 σ') (hσ : Accounted σ past) :
    Accounted σ' (past ++ host.library.milestonesOf inside space c) := by
  intro s hs
  rcases hs.of_effect h with hs | ⟨d, hd, rfl, hopen⟩
  · have hpast := hσ s hs
    cases c with
    | declare d => exact hpast.append nofun
    | require moduleName localName => nomatch h
    | _ => simpa [Library.milestonesOf] using hpast
  · obtain ⟨d', rfl, hname, hopen'⟩ := command_scope_declare hd
    refine ⟨space, d', [], List.suffix_append .., hopen' ▸ hopen, ?_, List.not_mem_nil⟩
    rw [hname]
    rfl

theorem instruct_accounted {enter : Enter} {inside : String → List Instruction → List Milestone}
    (henter : KeepsAccount enter inside) {place : Place} {i : Instruction}
    (h : Ends (instruct host enter place i) w (.ok ()) w')
    (hw : Accounted w.session.signature past) :
    Accounted w'.session.signature
      (past ++ host.library.milestonesOf inside place.space i.command) := by
  rcases instruct_cases h with ⟨moduleName, localName, trail, hcommand, hentered⟩ | heffect
  · obtain ⟨instrs, trail, w₁, w₂, hload, hw₁, hinner, hw'⟩ := hentered.checked
    have hw₂ := henter hinner (by rw [hw₁]; exact hw)
    rw [hw', hcommand]
    simp only [Library.milestonesOf, hload]
    exact hw₂
  · exact effect_accounted heffect hw

theorem forM_accounted {enter : Enter} {inside : String → List Instruction → List Milestone}
    (henter : KeepsAccount enter inside) {place : Place} {instrs : List Instruction}
    (h : Ends (instrs.forM (instruct host enter place)) w (.ok ()) w')
    (hw : Accounted w.session.signature past) :
    Accounted w'.session.signature
      (past ++ instrs.flatMap fun i => host.library.milestonesOf inside place.space i.command) := by
  induction instrs generalizing w past with
  | nil =>
      rw [(ends_pure.1 h).2]
      simpa using hw
  | cons i rest ih =>
      obtain ⟨_, w₁, hi, hrest⟩ := h.bind
      rw [List.flatMap_cons, ← List.append_assoc]
      exact ih hrest (instruct_accounted henter hi hw)

/-- Checking instructions keeps account. -/
theorem instructAll_accounted (nesting : Nat) :
    KeepsAccount (instructAll host nesting) (host.library.milestones nesting) := by
  induction nesting with
  | zero =>
      intro place instrs w w' past h
      cases h
  | succ nesting ih =>
      intro place instrs w w' past h hw
      obtain ⟨_, w₁, hinstrs, hclose⟩ := h.bind
      have hw₁ := forM_accounted ih hinstrs hw
      have hclose := ends_bind_signature.1 hclose
      split at hclose
      · next hproven =>
        rw [(ends_pure.1 hclose).2, Library.milestones, ← List.append_assoc]
        intro s hs
        refine (hw₁ s hs).append fun hclosed => space_ne_of_allProven hproven hs ?_
        exact (Milestone.closed.inj hclosed).symm
      · cases (ends_fail.1 hclose).1

end Session

/-- After a run that ends well, whoever is still owed a proof was declared under a name with a dot,
and the space read off its name was not closed since. -/
theorem Session.run_outstanding {host : Host} {instrs : List Instruction} {w : RunState}
    (h : RunState.run host instrs {} = .ok (.ok (), w)) {s : Symbol}
    (hs : w.session.signature.Owes s) :
    ∃ space d later, .declared space d :: later <:+ host.library.history instrs ∧
      d.isOpen = true ∧ s = Symbol.qualify space d.name ∧ '.' ∈ d.name.toList ∧
      Milestone.closed s.space ∉ later := by
  have hempty : Accounted ({} : RunState).session.signature [] := by
    rintro t ⟨e, he, -⟩
    cases he
  obtain ⟨space, d, later, hlater, hopen, rfl, hclosed⟩ :=
    instructAll_accounted _ h hempty s hs
  refine ⟨space, d, later, hlater, hopen, rfl, ?_, hclosed⟩
  refine Decidable.byContradiction fun hdot => hclosed ?_
  rw [Symbol.space_qualify hdot]
  exact closed_of_declared hlater

/-! ## Theorems that escape -/

theorem Signature.sort_type (σ : Signature) {budget : Nat} (h : 0 < budget) :
    (σ.sort budget .type).run.value = some (.ok .kind) := by
  obtain ⟨n, rfl⟩ := Nat.exists_eq_succ_of_ne_zero (Nat.ne_of_gt h)
  unfold Signature.sort Signature.infer
  rfl

/-- A theorem that is declared without a proof: it states that there is a type. -/
def openTheorem (name : String) : Declaration :=
  ⟨name, some .type, none, false, true⟩

namespace Session

open Attempt

variable {host : Host} {w : RunState} {σ : Signature} {name : String}

theorem declare_openTheorem (hbudget : 0 < host.budget)
    (hdecl : w.session.signature.declare ⟨name⟩ .type true = .ok σ) :
    ∃ m w', Ends (declare host (openTheorem name)) w (.ok m) w' ∧ w'.session.signature = σ := by
  have htype : Ends (declaredType host (openTheorem name)) w (.ok .type) _ :=
    ends_bind_signature.2
      ((ends_typing (w.session.signature.sort_type hbudget)).andThen (ends_pure.2 ⟨rfl, rfl⟩))
  exact ⟨_, _, htype.andThen ((ends_change hdecl).andThen (ends_pure.2 ⟨rfl, rfl⟩)), rfl⟩

theorem instruct_openTheorem (hbudget : 0 < host.budget) (enter : Enter) (line : Nat)
    (hdecl : w.session.signature.declare ⟨name⟩ .type true = .ok σ) :
    ∃ w', Ends (instruct host enter {} ⟨line, .declare (openTheorem name)⟩) w (.ok ()) w' ∧
      w'.session.signature = σ := by
  let w₁ : RunState := { w with journal := w.journal.observe (.instruction line) }
  obtain ⟨m, w₂, h, hw⟩ := declare_openTheorem (w := w₁) hbudget hdecl
  have hcommand : Ends (command host (.declare (openTheorem name))) w₁ (.ok (some m)) w₂ :=
    ends_bind_signature.2 (h.andThen (ends_pure.2 ⟨rfl, rfl⟩))
  exact ⟨_, ends_bind_modify.2 (ends_bind_signature.2
    (Ends.andThen (ends_outcome.2 ⟨_, rfl, hcommand⟩) (ends_modify.2 ⟨rfl, rfl⟩))), hw⟩

/-- A run that ends well still does so with one more open theorem, provided that the name of the
theorem puts it outside the outermost space. -/
theorem run_append_openTheorem {instrs : List Instruction} (hbudget : 0 < host.budget)
    (h : RunState.run host instrs {} = .ok (.ok (), w))
    (hfresh : w.session.signature.declares ⟨name⟩ = false) (hspace : Symbol.space ⟨name⟩ ≠ "")
    (line : Nat) :
    ∃ w', RunState.run host (instrs ++ [⟨line, .declare (openTheorem name)⟩]) {} =
      .ok (.ok (), w') ∧ w'.session.signature.Owes ⟨name⟩ := by
  obtain ⟨_, w₁, hinstrs, hclose⟩ := Ends.bind h
  have hclose := ends_bind_signature.1 hclose
  split at hclose
  case h_2 => cases (ends_fail.1 hclose).1
  case h_1 hproven =>
    obtain ⟨-, rfl⟩ := ends_pure.1 hclose
    obtain ⟨σ, hdecl⟩ : ∃ σ, w.session.signature.declare ⟨name⟩ .type true = .ok σ := by
      simp [Signature.declare, hfresh]
    obtain ⟨w', hnew, hw'⟩ := instruct_openTheorem hbudget
      (instructAll host (RunState.nesting host {})) line hdecl
    have hall : Ends (instructAll host (RunState.nesting host {} + 1) {}
        (instrs ++ [⟨line, .declare (openTheorem name)⟩])) {} (.ok ()) w' := by
      rw [instructAll]
      refine (hinstrs.forM_concat hnew).andThen (ends_bind_signature.2 ?_)
      rw [hw', Signature.allProven_ok_iff.2]
      · exact ends_pure.2 ⟨rfl, rfl⟩
      · rw [Signature.unprovenIn_of_declare hdecl hspace]
        exact Signature.allProven_ok_iff.1 hproven
    exact ⟨w', hall, hw' ▸ Signature.owes_of_declare hdecl⟩

/-- A module that states a theorem and proves it. -/
def lesson : List Instruction :=
  [⟨1, .declare ⟨"A", some .type, none, false, false⟩⟩,
   ⟨2, .declare ⟨"a", some (.symb ⟨"A"⟩), none, false, false⟩⟩,
   ⟨3, .declare ⟨"t", some (.symb ⟨"A"⟩), none, false, true⟩⟩,
   ⟨4, .rule "proof" (.symb ⟨"t"⟩) (.symb ⟨"a"⟩)⟩]

/-- The module is loaded, and another theorem is put next to its own from outside. -/
def course : List Instruction :=
  [⟨1, .require "lesson" (some "first")⟩, ⟨2, .declare (openTheorem "first.u")⟩]

/-- Where the module of `lesson` can be loaded from. -/
def school : Host :=
  ⟨8, .modules [("lesson", lesson)], 0⟩

/-- What a run that ends well knows about a symbol in the end: whether it needs a proof, and whether
it has one. -/
def standing (host : Host) (instrs : List Instruction) (s : Symbol) : Option (Bool × Bool) :=
  match RunState.run host instrs {} with
  | .ok (.ok (), w) => (w.session.signature.entry? s).map fun e => (e.obligation, e.proven)
  | _ => none

theorem entry?_of_standing {instrs : List Instruction} {s : Symbol} {obligation proven : Bool}
    (h : standing host instrs s = some (obligation, proven)) :
    ∃ w e, RunState.run host instrs {} = .ok (.ok (), w) ∧
      w.session.signature.entry? s = some e ∧ e.obligation = obligation ∧ e.proven = proven := by
  unfold standing at h
  split at h
  · next w hrun =>
    obtain ⟨e, he, hpair⟩ := Option.map_eq_some_iff.1 h
    obtain ⟨hobligation, hproven⟩ := Prod.mk.inj hpair
    exact ⟨w, e, hrun, he, hobligation, hproven⟩
  · cases h

/-- When a run ends well, every theorem that needs a proof has one, except for those that were
declared under a name with a dot and live in a space that was not closed since. There is no way
around the exception: the run still ends well with one more such theorem. -/
theorem run_proves_obligations {instrs : List Instruction}
    (h : RunState.run host instrs {} = .ok (.ok (), w)) :
    (∀ s e, w.session.signature.entry? s = some e → e.obligation = true →
      e.proven = true ∨
      ∃ space d later, .declared space d :: later <:+ host.library.history instrs ∧
        d.isOpen = true ∧ s = Symbol.qualify space d.name ∧ '.' ∈ d.name.toList ∧
        Milestone.closed s.space ∉ later) ∧
    ∀ name line, 0 < host.budget → w.session.signature.declares ⟨name⟩ = false →
      Symbol.space ⟨name⟩ ≠ "" →
      ∃ w', RunState.run host (instrs ++ [⟨line, .declare (openTheorem name)⟩]) {} =
        .ok (.ok (), w') ∧ w'.session.signature.Owes ⟨name⟩ := by
  refine ⟨fun s e he hobligation => ?_, fun name line hbudget hfresh hspace =>
    run_append_openTheorem hbudget h hfresh hspace line⟩
  cases hproven : e.proven with
  | true => exact .inl rfl
  | false =>
      right
      refine run_outstanding h ⟨e, he, ?_⟩
      simp [Entry.unproven, hobligation, hproven]

theorem run_proves_obligations_course :
    ∃ w, RunState.run school course {} = .ok (.ok (), w) ∧
      (∃ e, w.session.signature.entry? ⟨"first.t"⟩ = some e ∧ e.obligation = true ∧
        e.proven = true) ∧
      ∃ e, w.session.signature.entry? ⟨"first.u"⟩ = some e ∧ e.obligation = true ∧
        e.proven = false ∧
        ∃ space d later, .declared space d :: later <:+ school.library.history course ∧
          d.isOpen = true ∧ (⟨"first.u"⟩ : Symbol) = Symbol.qualify space d.name ∧
          '.' ∈ d.name.toList ∧ Milestone.closed (Symbol.space ⟨"first.u"⟩) ∉ later := by
  have ht : standing school course ⟨"first.t"⟩ = some (true, true) := by cbv
  have hu : standing school course ⟨"first.u"⟩ = some (true, false) := by cbv
  obtain ⟨w, e, hrun, he, hobligation, hproven⟩ := entry?_of_standing ht
  obtain ⟨w', e', hrun', he', hobligation', hproven'⟩ := entry?_of_standing hu
  obtain rfl : w = w' := (Prod.mk.inj (Except.ok.inj (hrun.symm.trans hrun'))).2
  refine ⟨w, hrun, ⟨e, he, hobligation, hproven⟩, e', he', hobligation', hproven', ?_⟩
  rcases (run_proves_obligations hrun).1 _ e' he' hobligation' with hproven | hescapes
  · rw [hproven'] at hproven
    cases hproven
  · exact hescapes

end Session

end LambdaPi
