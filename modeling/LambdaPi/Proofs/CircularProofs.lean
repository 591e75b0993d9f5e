import Mathlib
import LambdaPi.Proofs.Marks
import LambdaPi.Proofs.Moments
import LambdaPi.Proofs.Obligations
import LambdaPi.Proofs.TypingSound

/-!
# Circular proofs

A proof refers to symbols, and through their definitions and proofs to others. It should not come
back to the theorem it proves. What speaks for it is the order of declarations: a definition that is
given with a declaration was checked before its symbol was declared, so it looks back, to symbols
that were declared before its own. This is the invariant of a run (`Session.Orderly`).

A rule that is added later need not look back. It may refer to symbols that were declared after its
own, and even to its own. As long as the rules that a proof comes to refer only to what was declared
before the theorem, so is everything that it reaches (`Signature.Reaches.precedes`); if one of them
does not, a theorem may be proven by itself.
-/

namespace LambdaPi

/-! ## The order of declarations -/

namespace Signature

/-- The declared symbols, in the order of their declarations. -/
def symbols (σ : Signature) : List Symbol :=
  σ.entries.map (·.1)

/-- The first symbol was declared, and the second was not declared before it. -/
def Precedes (σ : Signature) (s t : Symbol) : Prop :=
  σ.symbols.idxOf s < σ.symbols.idxOf t

variable {σ σ' : Signature} {s t : Symbol}

theorem mem_symbols_iff : s ∈ σ.symbols ↔ σ.declares s = true := by
  constructor
  · intro h
    obtain ⟨⟨s, e⟩, he, rfl⟩ := List.mem_map.1 h
    exact Table.find?_isSome_of_mem he
  · intro h
    obtain ⟨e, he⟩ := Option.isSome_iff_exists.1 h
    exact List.mem_map_of_mem (Table.mem_of_find? he)

theorem symbols_of_declare {A : Term} {obligation : Bool}
    (h : σ.declare s A obligation = .ok σ') : σ'.symbols = σ.symbols ++ [s] ∧ s ∉ σ.symbols := by
  unfold declare at h
  split at h
  · cases h
  · next hfresh =>
    obtain rfl := Except.ok.inj h
    have hnone : σ.entries.find? s = none := by simpa [declares, entry?] using hfresh
    refine ⟨?_, fun hmem => hfresh (mem_symbols_iff.1 hmem)⟩
    simp [symbols, Table.enter_of_find?_none hnone]

/-- What was declared stays where it is in the order. -/
theorem Precedes.mono (h : σ.Precedes s t) (hgrow : σ.symbols <+: σ'.symbols) :
    σ'.Precedes s t := by
  obtain ⟨later, hlater⟩ := hgrow
  have hs : s ∈ σ.symbols := List.idxOf_lt_length_iff.1 (Nat.lt_of_lt_of_le h List.idxOf_le_length)
  have hidx : σ'.symbols.idxOf s = σ.symbols.idxOf s := by
    rw [← hlater, List.idxOf_append_of_mem hs]
  unfold Precedes at *
  rw [hidx, ← hlater]
  by_cases ht : t ∈ σ.symbols
  · rwa [List.idxOf_append_of_mem ht]
  · rw [List.idxOf_append_of_notMem ht]
    have := List.idxOf_lt_length_iff.2 hs
    omega

theorem precedes_of_declare {A : Term} {obligation : Bool}
    (h : σ.declare s A obligation = .ok σ') (ht : σ.declares t = true) : σ'.Precedes t s := by
  obtain ⟨hsymbols, hfresh⟩ := symbols_of_declare h
  have hmem := mem_symbols_iff.2 ht
  rw [Precedes, hsymbols, List.idxOf_append_of_mem hmem, List.idxOf_append_of_notMem hfresh]
  have := List.idxOf_lt_length_iff.2 hmem
  omega

theorem symbols_of_setProven (h : σ.setProven s = .ok σ') : σ'.symbols = σ.symbols := by
  unfold setProven at h
  split at h
  · cases h
  · next e he =>
    obtain rfl := Except.ok.inj h
    exact Table.map_fst_enter he _

/-! ## The rules of a symbol -/

theorem exists_ruleSet_of_mem_rulesOf {r : Rule} (h : r ∈ σ.rulesOf s) :
    ∃ set, (s, set) ∈ σ.ruleSets ∧ r ∈ set.rules := by
  cases hset : σ.ruleSet? s with
  | none =>
      rw [rulesOf, hset] at h
      cases h
  | some set =>
      rw [rulesOf, hset] at h
      exact ⟨set, Table.mem_of_find? hset, h⟩

theorem rulesOf_of_declare {A : Term} {obligation : Bool} (h : σ.declare s A obligation = .ok σ')
    (t : Symbol) : σ'.rulesOf t = σ.rulesOf t := by
  unfold declare at h
  split at h
  · cases h
  · obtain rfl := Except.ok.inj h
    rfl

theorem rulesOf_of_setProven (h : σ.setProven s = .ok σ') (t : Symbol) :
    σ'.rulesOf t = σ.rulesOf t := by
  unfold setProven at h
  split at h
  · cases h
  · obtain rfl := Except.ok.inj h
    rfl

theorem rulesOf_declareConstant (σ : Signature) (s t : Symbol) :
    (σ.declareConstant s).rulesOf t = σ.rulesOf t := by
  unfold rulesOf declareConstant
  rw [ruleSet?_enter]
  split
  · next hts => rw [hts]; rfl
  · rfl

theorem rulesOf_declareInjective (σ : Signature) (s t : Symbol) :
    (σ.declareInjective s).rulesOf t = σ.rulesOf t := by
  unfold rulesOf declareInjective
  rw [ruleSet?_enter]
  split
  · next hts => rw [hts]; rfl
  · rfl

theorem of_addRule {rule : Rule} (h : σ.addRule rule = .ok σ') :
    σ'.entries = σ.entries
      ∧ ∀ t r, r ∈ σ'.rulesOf t ↔ r ∈ σ.rulesOf t ∨ t = rule.head ∧ r = rule := by
  unfold addRule at h
  split at h
  · split at h
    · cases h
    · next set hset =>
      obtain rfl := Except.ok.inj h
      obtain ⟨rfl, -⟩ := RuleSet.addRule_ok hset
      refine ⟨rfl, fun t r => ?_⟩
      unfold rulesOf
      rw [ruleSet?_enter]
      split
      · next hts => subst hts; simp
      · next hts => simp [hts]
  · cases h

theorem entry?_of_addRule {rule : Rule} (h : σ.addRule rule = .ok σ') (t : Symbol) :
    σ'.entry? t = σ.entry? t := by
  unfold Signature.entry?
  rw [(of_addRule h).1]

theorem symbols_of_addRule {rule : Rule} (h : σ.addRule rule = .ok σ') :
    σ'.symbols = σ.symbols := by
  rw [symbols, (of_addRule h).1, symbols]

/-! ## What is typed is declared -/

theorem HasType.declares {Γ : Context} {u A : Term} (h : σ.HasType Γ u A)
    (hs : u.Has (.symb s)) : σ.declares s = true := by
  induction h with
  | type => exact absurd hs Term.has_type
  | symb htype =>
      obtain rfl := Mark.symb.inj ((Term.has_symb _).1 hs)
      obtain ⟨e, he, -⟩ := Option.map_eq_some_iff.1 htype
      exact Option.isSome_iff_exists.2 ⟨e, he⟩
  | bvar => exact absurd hs (Term.has_bvar _ _)
  | prod _ _ _ ihA ihB =>
      rcases (Term.has_prod ..).1 hs with hs | hs
      · exact ihA hs
      · exact ihB hs
  | annotated _ _ _ ihA ihB =>
      rcases (Term.has_abst ..).1 hs with hs | ⟨B, hB, hs⟩ | hs
      · cases hs
      · obtain rfl := Option.some.inj hB
        exact ihA hs
      · exact ihB hs
  | abst _ _ _ ihA ihB =>
      rcases (Term.has_abst ..).1 hs with hmark | ⟨B, rfl, hB⟩ | hbody
      · cases hmark
      · refine ihA B (Term.informative?_some ?_) hB
        cases B with
        | joker => cases Term.has_joker.1 hB
        | _ => rfl
      · exact ihB hbody
  | appl _ _ ihf iha =>
      rcases (Term.has_appl ..).1 hs with hs | hs
      · exact ihf hs
      · exact iha hs
  | conv _ _ ih => exact ih hs

/-- A typed term has no variables but those of its context. -/
theorem HasType.closedUnder {Γ : Context} {u A : Term} (h : σ.HasType Γ u A) :
    u.closedUnder Γ.length = true := by
  have hunder : ∀ {Γ : Context} {x : Option String} {B : Option Term} {u : Term},
      u.closedUnder (Γ.bind x B).length = true → u.allFree (· < Γ.length) 1 = true := by
    intro Γ x B u hu
    refine Term.allFree_imp ?_ hu
    intro n hn
    have hlen : (Γ.bind x B).length = Γ.length + 1 := rfl
    simp only [hlen, decide_eq_true_eq] at hn ⊢
    omega
  unfold Term.closedUnder at *
  induction h with
  | type | symb => rfl
  | bvar hn =>
      have hlt := (List.getElem?_eq_some_iff.1 hn).1
      simpa [Term.allFree] using hlt
  | prod _ _ _ ihA ihB =>
      rw [Term.allFree, Bool.and_eq_true]
      exact ⟨ihA, hunder ihB⟩
  | annotated _ _ _ ihA ihB =>
      rw [Term.allFree, Bool.and_eq_true]
      exact ⟨ihA, hunder ihB⟩
  | @abst _ _ _ ann _ _ _ _ _ _ ihA ihB =>
      rw [Term.allFree, Bool.and_eq_true, Term.allFreeAnn_iff]
      refine ⟨?_, hunder ihB⟩
      rintro B rfl
      cases hB : B.isJoker with
      | false => exact ihA B (Term.informative?_some hB)
      | true =>
          cases B with
          | joker => rfl
          | _ => cases hB
  | appl _ _ ihf iha =>
      rw [Term.allFree, Bool.and_eq_true]
      exact ⟨ihf, iha⟩
  | conv _ _ ih => exact ih

theorem Accepts.hasType {u A : Term} (hσ : σ.Reachable Rule.Admissible) (h : σ.Accepts u A) :
    σ.HasType [] u A := by
  obtain ⟨budget, h | h⟩ := h
  · exact (justified hσ u [] A).1 h
  · exact (justified hσ u [] A).2 h

/-! ## What a proof reaches -/

/-- The symbols of a proof, and those of the definitions and proofs of symbols that are reached. -/
inductive Reaches (σ : Signature) (proof : Term) : Symbol → Prop
  | occurs {s : Symbol} : proof.Has (.symb s) → Reaches σ proof s
  | unfolds {s t : Symbol} {r : Rule} : Reaches σ proof s → r ∈ σ.rulesOf s → r.args = [] →
      r.rhs.Has (.symb t) → Reaches σ proof t

/-- The right-hand side has only symbols that were declared before this one. -/
def LooksBack (σ : Signature) (s : Symbol) (r : Rule) : Prop :=
  ∀ t, r.rhs.Has (.symb t) → σ.Precedes t s

theorem LooksBack.of_precedes {r : Rule} (h : σ.LooksBack t r) (hts : σ.Precedes t s) :
    σ.LooksBack s r :=
  fun u hu => Nat.lt_trans (h u hu) hts

theorem LooksBack.mono {r : Rule} (h : σ.LooksBack s r) (hgrow : σ.symbols <+: σ'.symbols) :
    σ'.LooksBack s r :=
  fun t ht => (h t ht).mono hgrow

/-- What is reached was declared before a symbol, if the proof looks back from there, and so does every
rule on the way, as long as only such symbols were reached. -/
theorem Reaches.precedes {proof : Term} (hproof : ∀ t, proof.Has (.symb t) → σ.Precedes t s)
    (hback : ∀ t r, σ.Reaches proof t → σ.Precedes t s → r ∈ σ.rulesOf t → r.args = [] →
      σ.LooksBack s r)
    (h : σ.Reaches proof t) : σ.Precedes t s := by
  induction h with
  | occurs hs => exact hproof _ hs
  | unfolds hreach hmem hargs ht ih => exact hback _ _ hreach ih hmem hargs _ ht

/-! ## Looking back and commands -/

variable {c : Command}

theorem Effect.reachable (h : Effect σ c σ') (hσ : σ.Reachable Rule.Admissible) :
    σ'.Reachable Rule.Admissible := by
  cases h with
  | declared hdecl => exact hσ.declare hdecl
  | asConstant hdecl => exact (hσ.declare hdecl).declareConstant _
  | defined hdecl _ hrule htyped =>
      refine (hσ.declare hdecl).addRule (.inr ⟨_, _, _, ?_, rfl⟩) hrule
      exact (htyped.hasType hσ).closedUnder
  | constant => exact hσ.declareConstant _
  | injective => exact hσ.declareInjective _
  | rewrites hsides _ hrule => exact hσ.addRule (.inl ⟨_, _, _, hsides⟩) hrule
  | proves hsides _ hrule hproven =>
      exact (hσ.addRule (.inl ⟨_, _, _, hsides⟩) hrule).setProven hproven
  | asks => exact hσ

theorem Effect.symbols_prefix (h : Effect σ c σ') : σ.symbols <+: σ'.symbols := by
  have hdeclare : ∀ {s A obligation σ'}, σ.declare s A obligation = .ok σ' →
      σ.symbols <+: σ'.symbols := by
    intro s A obligation σ' hdecl
    rw [(symbols_of_declare hdecl).1]
    exact List.prefix_append ..
  cases h with
  | declared hdecl => exact hdeclare hdecl
  | asConstant hdecl => exact (hdeclare hdecl).trans List.prefix_rfl
  | defined hdecl _ hrule =>
      rw [symbols_of_addRule hrule]
      exact hdeclare hdecl
  | constant | injective | asks => exact List.prefix_rfl
  | rewrites _ _ hrule => rw [symbols_of_addRule hrule]
  | proves _ _ hrule hproven => rw [symbols_of_setProven hproven, symbols_of_addRule hrule]

/-- A command adds the rule it gives, or one that looks back. -/
theorem Effect.rulesOf_cases (h : Effect σ c σ') (hσ : σ.Reachable Rule.Admissible) {r : Rule}
    (hr : r ∈ σ'.rulesOf s) :
    r ∈ σ.rulesOf s ∨ σ'.LooksBack s r ∨
      ∃ name lhs rhs, c = .rule name lhs rhs ∧ Rule.ofSides name lhs rhs = .ok r := by
  cases h with
  | declared hdecl =>
      rw [rulesOf_of_declare hdecl] at hr
      exact .inl hr
  | asConstant hdecl =>
      rw [rulesOf_declareConstant, rulesOf_of_declare hdecl] at hr
      exact .inl hr
  | defined hdecl _ hrule htyped =>
      rcases ((of_addRule hrule).2 s r).1 hr with hr | ⟨rfl, rfl⟩
      · rw [rulesOf_of_declare hdecl] at hr
        exact .inl hr
      · refine .inr (.inl fun t ht => ?_)
        rw [Precedes, symbols_of_addRule hrule]
        exact precedes_of_declare hdecl ((htyped.hasType hσ).declares ht)
  | constant =>
      rw [rulesOf_declareConstant] at hr
      exact .inl hr
  | injective =>
      rw [rulesOf_declareInjective] at hr
      exact .inl hr
  | rewrites hsides _ hrule =>
      rcases ((of_addRule hrule).2 s r).1 hr with hr | ⟨-, rfl⟩
      · exact .inl hr
      · exact .inr (.inr ⟨_, _, _, rfl, hsides⟩)
  | proves hsides _ hrule hproven =>
      rw [rulesOf_of_setProven hproven] at hr
      rcases ((of_addRule hrule).2 s r).1 hr with hr | ⟨-, rfl⟩
      · exact .inl hr
      · exact .inr (.inr ⟨_, _, _, rfl, hsides⟩)
  | asks => exact .inl hr

/-- A rule that discharges a theorem is a proof of it. -/
theorem Effect.proof {name : String} {lhs rhs : Term} (h : Effect σ (.rule name lhs rhs) σ')
    (howed : σ.Owes s) (hpaid : ¬ σ'.Owes s) :
    ∃ rule, Rule.ofSides name lhs rhs = .ok rule ∧ rule.head = s ∧ rule.args = [] ∧
      rule ∈ σ'.rulesOf s := by
  cases h with
  | rewrites hsides htheorem hrule =>
      obtain ⟨e, he, hunproven⟩ := howed
      refine absurd ⟨e, ?_, hunproven⟩ hpaid
      exact (entry?_of_addRule hrule s).trans he
  | @proves _ _ _ rule A σ₁ _ hsides htheorem hrule hproven =>
      have hargs : rule.args = [] := by
        unfold Session.theoremOf? at htheorem
        split at htheorem
        · split at htheorem
          · next hempty => exact List.isEmpty_iff.1 (Bool.and_eq_true_iff.1 hempty).1
          · cases htheorem
        · cases htheorem
      have hhead : rule.head = s := by
        refine Decidable.byContradiction fun hne => hpaid ?_
        obtain ⟨e, he, hunproven⟩ := howed
        unfold setProven at hproven
        split at hproven
        · cases hproven
        · obtain rfl := Except.ok.inj hproven
          refine ⟨e, (Table.find?_enter_of_ne (Ne.symm hne) _ _).trans ?_, hunproven⟩
          exact (entry?_of_addRule hrule s).trans he
      refine ⟨rule, hsides, hhead, hargs, ?_⟩
      rw [rulesOf_of_setProven hproven]
      exact ((of_addRule hrule).2 s rule).2 (.inr ⟨hhead.symm, rfl⟩)
  | asks hquestion => cases hquestion

end Signature

/-! ## Runs -/

namespace Session

open Attempt Signature

variable {host : Host} {instrs : List Instruction} {w' : RunState} {σ : Signature} {r : Rule}

/-- The rule is given by a command that the run comes to. -/
def Introduced (host : Host) (instrs : List Instruction) (r : Rule) : Prop :=
  ∃ m name lhs rhs, RunComes host instrs m ∧ m.command = .rule name lhs rhs ∧
    Rule.ofSides name lhs rhs = .ok r

/-- Rules without arguments look back, except for those that commands of the run gave. -/
structure Orderly (host : Host) (instrs : List Instruction) (σ : Signature) : Prop where
  reachable : σ.Reachable Rule.Admissible
  looksBack : ∀ {s r}, r ∈ σ.rulesOf s → r.args = [] →
    Introduced host instrs r ∨ σ.LooksBack s r

theorem Orderly.step {m : Moment} (h : Orderly host instrs m.signature)
    (hm : RunComes host instrs m) (heffect : Effect m.signature m.command σ) :
    Orderly host instrs σ := by
  refine ⟨heffect.reachable h.reachable, fun hr hargs => ?_⟩
  rcases heffect.rulesOf_cases h.reachable hr with hold | hback | ⟨name, lhs, rhs, hc, hsides⟩
  · rcases h.looksBack hold hargs with hgiven | hback
    · exact .inl hgiven
    · exact .inr (hback.mono heffect.symbols_prefix)
  · exact .inr hback
  · exact .inl ⟨m, name, lhs, rhs, hm, hc, hsides⟩

theorem RunComes.orderly {m : Moment} (hm : RunComes host instrs m) :
    Orderly host instrs m.signature := by
  refine hm.invariant ⟨.empty, nofun⟩ ?_
  intro m σ hm h heffect
  exact h.step hm heffect

/-- An instruction that is not to enter a module has the effect of its command. -/
theorem Moment.effect {enter : Enter} {m : Moment}
    (h : Ends (instruct host enter m.place m.instruction) m.state (.ok ()) w')
    (hc : ∀ moduleName localName, m.command ≠ .require moduleName localName) :
    Effect m.signature m.command w'.session.signature := by
  rcases instruct_cases h with ⟨moduleName, localName, -, hrequire, -⟩ | heffect
  · refine absurd ?_ (hc moduleName localName)
    rw [Moment.command, hrequire]
    rfl
  · exact heffect

/-- When a rule discharges a theorem, the theorem is not reached from its own proof, provided that
among the rules without arguments of the theorem and of symbols that are reached from the proof, those
that commands of the run gave have only symbols that were declared before the theorem. -/
theorem proof_reaches_only_back {enter : Enter} {m : Moment} {name : String} {lhs rhs : Term}
    {s : Symbol} (hm : RunComes host instrs m) (hc : m.command = .rule name lhs rhs)
    (hends : Ends (instruct host enter m.place m.instruction) m.state (.ok ()) w')
    (howed : m.signature.Owes s) (hpaid : ¬ w'.session.signature.Owes s) :
    ∃ proof, Rule.ofSides name lhs rhs = .ok proof ∧ proof.head = s ∧ proof.args = [] ∧
      proof ∈ w'.session.signature.rulesOf s ∧
      ((∀ t r, t = s ∨ w'.session.signature.Reaches proof.rhs t →
          r ∈ w'.session.signature.rulesOf t → r.args = [] → Introduced host instrs r →
          w'.session.signature.LooksBack s r) →
        ¬ w'.session.signature.Reaches proof.rhs s) := by
  have heffect := Moment.effect hends (by rw [hc]; exact nofun)
  have horderly := hm.orderly.step hm heffect
  rw [hc] at heffect
  obtain ⟨proof, hsides, hhead, hargs, hmem⟩ := heffect.proof howed hpaid
  refine ⟨proof, hsides, hhead, hargs, hmem, ?_⟩
  intro hgiven hcircle
  have hproof : w'.session.signature.LooksBack s proof := by
    rcases horderly.looksBack hmem hargs with hintroduced | hback
    · exact hgiven s proof (.inl rfl) hmem hargs hintroduced
    · exact hback
  have hprecedes := hcircle.precedes hproof fun t r ht hts hr hnone => by
    rcases horderly.looksBack hr hnone with hintroduced | hback
    · exact hgiven t r (.inr ht) hr hnone hintroduced
    · exact hback.of_precedes hts
  exact Nat.lt_irrefl _ hprecedes

/-! ## Two proofs -/

/-- The state in which an attempt ends. -/
def final (x : Attempt LocatedError Unit) (w : RunState) : RunState :=
  match x.run.run w with
  | .ok (_, w') => w'
  | .error _ => w

def endsWell (x : Attempt LocatedError Unit) (w : RunState) : Bool :=
  match x.run.run w with
  | .ok (.ok (), _) => true
  | _ => false

theorem ends_final {x : Attempt LocatedError Unit} {w : RunState} (h : endsWell x w = true) :
    Ends x w (.ok ()) (final x w) := by
  unfold endsWell at h
  split at h
  · next hx => simp [Ends, final, hx]
  · cases h

/-- Carry out an instruction of the outermost space. -/
def carryOut (i : Instruction) : Attempt LocatedError Unit :=
  instruct school (instructAll school (RunState.nesting school {})) {} i

/-- The moment that comes after some instructions of the outermost space. -/
def momentAfter (before : List Instruction) (i : Instruction) : Moment :=
  ⟨{}, i, final (before.forM carryOut) {}⟩

theorem runComes_momentAfter (before : List Instruction) (i : Instruction)
    (h : endsWell (before.forM carryOut) {} = true) :
    RunComes school (before ++ [i]) (momentAfter before i) :=
  Comes.after (ends_final h) i []

theorem owes_iff {s : Symbol} : σ.Owes s ↔ (σ.entry? s).map Entry.unproven = some true :=
  Option.map_eq_some_iff.symm

/-- A symbol is defined by another one, which is then rewritten to a later one, and a theorem is
stated. -/
def premises : List Instruction :=
  [⟨1, .declare ⟨"A", some .type, none, false, false⟩⟩,
   ⟨2, .declare ⟨"a", some (.symb ⟨"A"⟩), none, false, false⟩⟩,
   ⟨3, .declare ⟨"b", none, some (.symb ⟨"a"⟩), false, false⟩⟩,
   ⟨4, .declare ⟨"c", some (.symb ⟨"A"⟩), none, false, false⟩⟩,
   ⟨5, .rule "late" (.symb ⟨"a"⟩) (.symb ⟨"c"⟩)⟩,
   ⟨6, .declare ⟨"t", some (.symb ⟨"A"⟩), none, false, true⟩⟩]

/-- The defined symbol proves the theorem. -/
def conclusion : Instruction :=
  ⟨7, .rule "proof" (.symb ⟨"t"⟩) (.symb ⟨"b"⟩)⟩

/-- What is known when the theorem is proven. -/
def concluded : Signature :=
  (final (carryOut conclusion) (momentAfter premises conclusion).state).session.signature

theorem concluded_looksBack {t : Symbol} (hr : r ∈ concluded.rulesOf t) :
    concluded.LooksBack ⟨"t"⟩ r := by
  have hsets : concluded.ruleSets.map (fun entry => (entry.1, entry.2.rules)) =
      [(⟨"b"⟩, [.ofDefinition "b_def" ⟨"b"⟩ (.symb ⟨"a"⟩)]),
       (⟨"a"⟩, [.ofDefinition "late" ⟨"a"⟩ (.symb ⟨"c"⟩)]),
       (⟨"t"⟩, [.ofDefinition "proof" ⟨"t"⟩ (.symb ⟨"b"⟩)])] := by cbv
  have hsymbols : concluded.symbols = [⟨"A"⟩, ⟨"a"⟩, ⟨"b"⟩, ⟨"c"⟩, ⟨"t"⟩] := by cbv
  obtain ⟨set, hset, hrule⟩ := exists_ruleSet_of_mem_rulesOf hr
  have hmem : (t, set.rules) ∈ concluded.ruleSets.map fun entry => (entry.1, entry.2.rules) :=
    List.mem_map_of_mem hset
  intro u hu
  rw [Precedes, hsymbols]
  simp only [hsets, List.mem_cons, Prod.mk.injEq, List.not_mem_nil, or_false] at hmem
  rcases hmem with ⟨rfl, hrules⟩ | ⟨rfl, hrules⟩ | ⟨rfl, hrules⟩
  all_goals
    rw [hrules, List.mem_singleton] at hrule
    subst hrule
    obtain rfl := Mark.symb.inj ((Term.has_symb _).1 hu)
    decide

theorem proof_reaches_only_back_conclusion :
    ∃ m w', RunComes school (premises ++ [conclusion]) m ∧
      m.command = .rule "proof" (.symb ⟨"t"⟩) (.symb ⟨"b"⟩) ∧
      Ends (carryOut m.instruction) m.state (.ok ()) w' ∧
      m.signature.Owes ⟨"t"⟩ ∧ ¬ w'.session.signature.Owes ⟨"t"⟩ ∧
      w'.session.signature.Reaches (.symb ⟨"b"⟩) ⟨"c"⟩ ∧
      ¬ w'.session.signature.Reaches (.symb ⟨"b"⟩) ⟨"t"⟩ := by
  have hcomes := runComes_momentAfter premises conclusion (by cbv)
  have hcommand : (momentAfter premises conclusion).command =
      .rule "proof" (.symb ⟨"t"⟩) (.symb ⟨"b"⟩) := by cbv
  have hends := ends_final (x := carryOut conclusion)
    (w := (momentAfter premises conclusion).state) (by cbv)
  have howed : (momentAfter premises conclusion).signature.Owes ⟨"t"⟩ := owes_iff.2 (by cbv)
  have hpaid : ¬ concluded.Owes ⟨"t"⟩ := by
    rw [owes_iff]
    have hentry : (concluded.entry? ⟨"t"⟩).map Entry.unproven = some false := by cbv
    simp [hentry]
  refine ⟨_, _, hcomes, hcommand, hends, howed, hpaid, ?_, ?_⟩
  · have hb : concluded.rulesOf ⟨"b"⟩ = [.ofDefinition "b_def" ⟨"b"⟩ (.symb ⟨"a"⟩)] := by cbv
    have ha : concluded.rulesOf ⟨"a"⟩ = [.ofDefinition "late" ⟨"a"⟩ (.symb ⟨"c"⟩)] := by cbv
    have hreach : concluded.Reaches (.symb ⟨"b"⟩) ⟨"a"⟩ :=
      .unfolds (.occurs ((Term.has_symb _).2 rfl)) (hb ▸ List.mem_singleton_self _) rfl
        ((Term.has_symb _).2 rfl)
    exact .unfolds hreach (ha ▸ List.mem_singleton_self _) rfl ((Term.has_symb _).2 rfl)
  · obtain ⟨proof, hsides, -, -, -, hcircle⟩ :=
      proof_reaches_only_back hcomes hcommand hends howed hpaid
    obtain rfl := Except.ok.inj hsides
    exact hcircle fun t r _ hr _ _ => concluded_looksBack hr

/-- A theorem is given as its own proof. -/
def circle : Instruction :=
  ⟨2, .rule "p" (.symb ⟨"t"⟩) (.symb ⟨"t"⟩)⟩

/-- A theorem can be proven by itself. -/
theorem proof_of_itself :
    ∃ m w', RunComes school ([⟨1, .declare (openTheorem "t")⟩] ++ [circle]) m ∧
      m.command = .rule "p" (.symb ⟨"t"⟩) (.symb ⟨"t"⟩) ∧
      Ends (carryOut m.instruction) m.state (.ok ()) w' ∧
      m.signature.Owes ⟨"t"⟩ ∧ ¬ w'.session.signature.Owes ⟨"t"⟩ ∧
      w'.session.signature.Reaches (.symb ⟨"t"⟩) ⟨"t"⟩ := by
  let m := momentAfter [⟨1, .declare (openTheorem "t")⟩] circle
  have hpaid : ¬ (final (carryOut circle) m.state).session.signature.Owes ⟨"t"⟩ := by
    rw [owes_iff]
    have hentry : ((final (carryOut circle) m.state).session.signature.entry? ⟨"t"⟩).map
        Entry.unproven = some false := by cbv
    simp [hentry]
  exact ⟨m, final (carryOut circle) m.state, runComes_momentAfter _ circle (by cbv), by cbv,
    ends_final (by cbv), owes_iff.2 (by cbv), hpaid, .occurs ((Term.has_symb _).2 rfl)⟩

end Session

end LambdaPi
