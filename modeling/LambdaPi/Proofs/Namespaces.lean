import Mathlib
import LambdaPi.Proofs.FailedInstructions
import LambdaPi.Proofs.Likeness.Scopes

/-!
# A module behaves the same in every space

Checked in a space, a module gets the space put in front of the names it introduces, and a reference
is looked up there first. For a module that refers only to what it has declared itself
(`SelfContained`) this is a renaming, and nothing depends on the space: not which instructions end
well, nor what is reported, nor the entries, rules and flags that are left, up to the renaming
(`Session.same_in_every_space`).

Putting a space in front keeps symbols apart and in order, so it is a likeness
(`Likeness.inside`). What ties the two runs together is that their signatures are like each other for
it: then a reference that means a declared symbol in the outermost space means the renamed symbol
inside the space (`Scope.inside`), and each instruction does the same to both
(`Session.instruct_like`). Theorems are looked for by the space read off their names, which is the
right one because the names they are declared under have no dots.
-/

namespace LambdaPi

/-! ## Renaming -/

/-- The symbol of that name inside a space. -/
def Symbol.inside (space : String) (s : Symbol) : Symbol :=
  .qualify space s.text

theorem append_lt_append_iff (a b c : List Char) : c ++ a < c ++ b ↔ a < b := by
  induction c with
  | nil => rfl
  | cons x c ih => simp [ih]

theorem Symbol.inside_inj (space : String) {s t : Symbol} :
    s.inside space = t.inside space ↔ s = t := by
  obtain ⟨a⟩ := s
  obtain ⟨b⟩ := t
  unfold Symbol.inside Symbol.qualify
  split <;> simp

theorem Symbol.before_inside (space : String) (s t : Symbol) :
    (s.inside space).before (t.inside space) = s.before t := by
  unfold Symbol.before Symbol.inside Symbol.qualify
  split
  · rfl
  · rw [decide_eq_decide, String.lt_iff_toList_lt, String.lt_iff_toList_lt]
    simp only [String.toList_append, append_lt_append_iff]

theorem Symbol.text_inside_append (space a b : String) :
    (Symbol.inside space ⟨a⟩).text ++ b = (Symbol.inside space ⟨a ++ b⟩).text := by
  unfold Symbol.inside Symbol.qualify
  split
  · rfl
  · simp [String.append_assoc]

/-- Symbols correspond to those of the same name inside a space. -/
def Likeness.inside (space : String) : Likeness where
  symbol s t := t = s.inside space
  name := Eq
  label a b := b = (Symbol.inside space ⟨a⟩).text
  symbol_inj := by
    rintro s _ s' _ rfl rfl
    exact (Symbol.inside_inj space).symm
  symbol_before := by
    rintro s _ s' _ rfl rfl
    exact (Symbol.before_inside space s s').symm
  unnamed := rfl
  definition := by
    rintro a b h
    rw [← Symbol.text_inside_append, ← h]

namespace Term

mutual

/-- Put all symbols of a term inside a space. -/
def inside (space : String) : Term → Term
  | symb s => symb (s.inside space)
  | appl f a => appl (f.inside space) (a.inside space)
  | prod x A B => prod x (A.inside space) (B.inside space)
  | abst x A t => abst x (insideAnn space A) (t.inside space)
  | mvar m args => mvar m (insideArgs space args)
  | t => t

/-- `Term.inside` for an optional annotation. -/
def insideAnn (space : String) : Option Term → Option Term
  | none => none
  | some A => some (A.inside space)

/-- `Term.inside` for a list of arguments. -/
def insideArgs (space : String) : List Term → List Term
  | [] => []
  | t :: ts => t.inside space :: insideArgs space ts

end

theorem Like.eq_inside {space : String} {t u : Term} (h : t.Like (.inside space) u) :
    u = t.inside space := by
  induction t generalizing u with
  | kind | type | joker =>
      cases h
      rfl
  | symb s =>
      cases h with
      | symb hs => rw [inside, hs]
  | bvar n x =>
      cases h with
      | bvar hx =>
          obtain rfl : x = _ := hx
          rfl
  | appl f a ihf iha =>
      cases h with
      | appl hf ha => rw [inside, ihf hf, iha ha]
  | prod x A B ihA ihB =>
      cases h with
      | prod hx hA hB => rw [inside, hx, ihA hA, ihB hB]
  | abst x A t ihA iht =>
      cases h with
      | abst hx hA ht =>
          cases hA with
          | none => rw [inside, insideAnn, Option.some.inj hx, iht ht]
          | some hA => rw [inside, insideAnn, Option.some.inj hx, ihA _ rfl hA, iht ht]
  | mvar m args ih =>
      cases h with
      | @mvar _ _ args' hargs =>
          have hall : args' = insideArgs space args := by
            induction hargs with
            | nil => rfl
            | cons ha _ ihargs =>
                rw [insideArgs, ih _ (List.mem_cons_self ..) ha,
                  ihargs fun a ha => ih a (List.mem_cons_of_mem _ ha)]
          rw [inside, hall]

end Term

/-- Put a rule inside a space: its label and all symbols of its sides. -/
def Rule.inside (space : String) (r : Rule) : Rule where
  name := (Symbol.inside space ⟨r.name⟩).text
  head := r.head.inside space
  args := r.args.map (Term.inside space)
  rhs := r.rhs.inside space

/-- Put the type of a symbol inside a space. -/
def Entry.inside (space : String) (e : Entry) : Entry :=
  { e with type := e.type.inside space }

theorem forall₂_map_eq {α β γ : Type} {R : α → β → Prop} {f : α → γ} {g : β → γ}
    (hfg : ∀ a b, R a b → g b = f a) {as : List α} {bs : List β} (h : List.Forall₂ R as bs) :
    bs.map g = as.map f := by
  induction h with
  | nil => rfl
  | cons hab _ ih => rw [List.map_cons, List.map_cons, ih, hfg _ _ hab]

theorem forall₂_eq_map {α β : Type} {R : α → β → Prop} {f : α → β} (hf : ∀ a b, R a b → b = f a)
    {as : List α} {bs : List β} (h : List.Forall₂ R as bs) : bs = as.map f := by
  rw [← forall₂_map_eq (g := id) hf h, List.map_id]

theorem Rule.Like.eq_inside {space : String} {r q : Rule} (h : r.Like (.inside space) q) :
    q = r.inside space := by
  have hargs : q.args = r.args.map (Term.inside space) :=
    forall₂_eq_map (fun _ _ hab => hab.eq_inside) h.args
  rw [Rule.inside, ← hargs, ← h.name, ← h.head, ← h.rhs.eq_inside]

theorem Entry.Like.eq_inside {space : String} {e f : Entry} (h : e.Like (.inside space) f) :
    f = e.inside space := by
  rw [Entry.inside, ← h.type.eq_inside, h.obligation, h.proven]

/-- The second state is the first one put inside a space, as far as the entries, the rules and flags
and the kinds of messages go. -/
structure RunState.Mirrored (space : String) (w v : RunState) : Prop where
  entries : v.session.signature.entries =
    w.session.signature.entries.map fun (s, e) => (s.inside space, e.inside space)
  rules : v.session.signature.ruleSets.map (fun (s, r) => (s, r.rules)) =
    w.session.signature.ruleSets.map fun (s, r) => (s.inside space, r.rules.map (Rule.inside space))
  flags : v.session.signature.ruleSets.map (fun (s, r) => (s, r.constant, r.injective)) =
    w.session.signature.ruleSets.map fun (s, r) => (s.inside space, r.constant, r.injective)
  messages : v.messages.map (fun m => (m.severity, m.title, m.trail)) =
    w.messages.map fun m => (m.severity, m.title, m.trail)

theorem RunState.Like.mirrored {space : String} {w v : RunState} (h : w.Like (.inside space) v) :
    w.Mirrored space v := by
  constructor
  · refine forall₂_eq_map ?_ h.signature.entries
    rintro ⟨s, e⟩ ⟨t, f⟩ ⟨hst, hef⟩
    exact Prod.ext hst hef.eq_inside
  · refine forall₂_map_eq ?_ h.signature.ruleSets
    rintro ⟨s, r⟩ ⟨t, q⟩ ⟨hst, hrq⟩
    exact Prod.ext hst (forall₂_eq_map (fun _ _ hab => hab.eq_inside) hrq.rules)
  · refine forall₂_map_eq ?_ h.signature.ruleSets
    rintro ⟨s, r⟩ ⟨t, q⟩ ⟨hst, hrq⟩
    exact Prod.ext hst (Prod.ext hrq.constant.symm hrq.injective.symm)
  · refine forall₂_map_eq ?_ h.messages
    intro m n hmn
    rw [hmn.severity, hmn.title, hmn.trail]

/-! ## Self-contained instructions -/

/-- The symbol that a command declares. -/
def Command.declared : Command → List Symbol
  | .declare d => [⟨d.name⟩]
  | _ => []

/-- The terms of a command, and the types in its context. -/
def Command.terms : Command → List Term
  | .declare d => d.type.toList ++ d.body.toList
  | .rule _ lhs rhs => [lhs, rhs]
  | .eval Γ t | .infer Γ t => t :: Γ.filterMap (·.type)
  | .check Γ t A => t :: A :: Γ.filterMap (·.type)
  | .compare Γ t u _ => t :: u :: Γ.filterMap (·.type)
  | .print t => [t]
  | _ => []

/-- The symbol occurs in a term of the command or in its context. -/
def Command.Mentions (c : Command) (s : Symbol) : Prop :=
  ∃ t ∈ c.terms, t.Has (.symb s)

/-- Instructions that ask for no module, declare names without dots, and mention only symbols that
are known or that an earlier instruction declares. -/
structure SelfContained (known : List Symbol) (instrs : List Instruction) : Prop where
  noRequire : ∀ i ∈ instrs, ∀ moduleName localName, i.command ≠ .require moduleName localName
  undotted : ∀ i ∈ instrs, ∀ s ∈ i.command.declared, '.' ∉ s.text.toList
  declaredBefore : ∀ before i rest, instrs = before ++ i :: rest → ∀ s, i.command.Mentions s →
    s ∈ known ∨ ∃ j ∈ before, s ∈ j.command.declared

theorem selfContained_nil {known : List Symbol} : SelfContained known [] :=
  ⟨nofun, nofun, fun before _ _ h => by cases before <;> cases h⟩

/-- Whether instructions are self-contained can be read off one after the other. -/
theorem selfContained_cons {known : List Symbol} {i : Instruction} {rest : List Instruction} :
    SelfContained known (i :: rest) ↔
      (∀ moduleName localName, i.command ≠ .require moduleName localName) ∧
      (∀ s ∈ i.command.declared, '.' ∉ s.text.toList) ∧
      (∀ s, i.command.Mentions s → s ∈ known) ∧
      SelfContained (known ++ i.command.declared) rest := by
  constructor
  · rintro ⟨hno, hdots, hbefore⟩
    rw [List.forall_mem_cons] at hno hdots
    refine ⟨hno.1, hdots.1, ?_, hno.2, hdots.2, ?_⟩
    · intro s hs
      rcases hbefore [] i rest rfl s hs with hknown | ⟨j, hj, -⟩
      · exact hknown
      · cases hj
    · rintro before j after rfl s hs
      rcases hbefore (i :: before) j after rfl s hs with hknown | ⟨k, hk, hdeclared⟩
      · exact .inl (List.mem_append_left _ hknown)
      · rcases List.mem_cons.1 hk with rfl | hk
        · exact .inl (List.mem_append_right _ hdeclared)
        · exact .inr ⟨k, hk, hdeclared⟩
  · rintro ⟨hno, hdots, hmentions, hrest⟩
    refine ⟨?_, ?_, ?_⟩
    · exact List.forall_mem_cons.2 ⟨hno, hrest.noRequire⟩
    · exact List.forall_mem_cons.2 ⟨hdots, hrest.undotted⟩
    · intro before j after h s hs
      cases before with
      | nil =>
          obtain ⟨rfl, rfl⟩ := List.cons.inj h
          exact .inl (hmentions s hs)
      | cons k before =>
          obtain ⟨rfl, rfl⟩ := List.cons.inj h
          rcases hrest.declaredBefore before j after rfl s hs with hknown | ⟨k, hk, hdeclared⟩
          · rcases List.mem_append.1 hknown with hknown | hdeclared
            · exact .inl hknown
            · exact .inr ⟨i, List.mem_cons_self .., hdeclared⟩
          · exact .inr ⟨k, List.mem_cons_of_mem _ hk, hdeclared⟩

/-- The same symbols, if they are among the given ones, and the same names. -/
def Likeness.within (P : Symbol → Prop) : Likeness where
  symbol s t := s = t ∧ P s
  name := Eq
  label := Eq
  symbol_inj := by
    rintro s _ s' _ ⟨rfl, -⟩ ⟨rfl, -⟩
    rfl
  symbol_before := by
    rintro s _ s' _ ⟨rfl, -⟩ ⟨rfl, -⟩
    rfl
  unnamed := rfl
  definition := by
    rintro a _ ⟨⟨⟩, -⟩
    rfl

theorem Term.like_within {P : Symbol → Prop} {t : Term} (h : ∀ s, t.Has (.symb s) → P s) :
    t.Like (.within P) t := by
  induction t with
  | kind | type | joker => constructor
  | symb s => exact .symb ⟨rfl, h s (by simp)⟩
  | bvar n x => exact .bvar rfl
  | appl f a ihf iha =>
      exact .appl (ihf fun s hs => h s (by simp [hs])) (iha fun s hs => h s (by simp [hs]))
  | prod x A B ihA ihB =>
      exact .prod rfl (ihA fun s hs => h s (by simp [hs])) (ihB fun s hs => h s (by simp [hs]))
  | abst x A t ihA iht =>
      refine .abst rfl ?_ (iht fun s hs => h s (by simp [hs]))
      cases A with
      | none => exact .none
      | some A => exact .some (ihA A rfl fun s hs => h s (by simp [hs]))
  | mvar m args ih =>
      refine .mvar (List.forall₂_same.2 fun a ha => ih a ha fun s hs => h s ?_)
      exact (has_mvar m args).2 (.inr ⟨a, ha, hs⟩)

theorem Context.like_within {P : Symbol → Prop} {Γ : Context}
    (h : ∀ t ∈ Γ.filterMap (·.type), t.Like (.within P) t) : Context.Like (.within P) Γ Γ := by
  refine List.forall₂_same.2 fun g hg => ⟨rfl, ?_⟩
  cases hA : g.type with
  | none => exact .none
  | some A => exact .some (h A (List.mem_filterMap.2 ⟨g, hg, hA⟩))

theorem Term.like_within_option {P : Symbol → Prop} {A : Option Term}
    (h : ∀ t ∈ A.toList, t.Like (.within P) t) : Option.Rel (Term.Like (.within P)) A A := by
  cases A with
  | none => exact .none
  | some A => exact .some (h A (List.mem_singleton.2 rfl))

/-- A command is like itself, as long as it mentions only the given symbols. -/
theorem Command.like_within {P : Symbol → Prop} {c : Command} (h : ∀ s, c.Mentions s → P s) :
    c.Like (.within P) Eq Eq c := by
  have hterms : ∀ t ∈ c.terms, t.Like (.within P) t :=
    fun t ht => Term.like_within fun s hs => h s ⟨t, ht, hs⟩
  cases c with
  | declare d =>
      refine .declare ⟨rfl, Term.like_within_option ?_, Term.like_within_option ?_, rfl, rfl⟩
      · exact fun t ht => hterms t (List.mem_append_left _ ht)
      · exact fun t ht => hterms t (List.mem_append_right _ ht)
  | constant name => exact .constant rfl
  | injective name => exact .injective rfl
  | rule name lhs rhs =>
      obtain ⟨hlhs, hrhs, -⟩ := (List.forall_mem_cons.1 hterms).imp_right List.forall_mem_cons.1
      exact .rule rfl hlhs hrhs
  | eval Γ t =>
      obtain ⟨ht, hΓ⟩ := List.forall_mem_cons.1 hterms
      exact .eval (Context.like_within hΓ) ht
  | infer Γ t =>
      obtain ⟨ht, hΓ⟩ := List.forall_mem_cons.1 hterms
      exact .infer (Context.like_within hΓ) ht
  | check Γ t A =>
      obtain ⟨ht, hA, hΓ⟩ := (List.forall_mem_cons.1 hterms).imp_right List.forall_mem_cons.1
      exact .check (Context.like_within hΓ) ht hA
  | compare Γ t u expected =>
      obtain ⟨ht, hu, hΓ⟩ := (List.forall_mem_cons.1 hterms).imp_right List.forall_mem_cons.1
      exact .compare (Context.like_within hΓ) ht hu
  | print t => exact .print (hterms t (List.mem_singleton.2 rfl))
  | trees name => exact .trees rfl
  | clock => exact .clock
  | require moduleName localName => exact .require
  | debugOn => exact .debugOn
  | debugOff => exact .debugOff

/-! ## Reading in a space -/

/-- Where the signatures correspond, a reference to a declared symbol means corresponding symbols in
the outermost space and inside another one. -/
theorem Scope.inside {space : String} {σ τ : Signature} (h : σ.Aligned (.inside space) τ) :
    Scope.Like (.within (σ.declares · = true)) (.inside space) ⟨σ, ""⟩ ⟨τ, space⟩ := by
  constructor
  · rintro s _ ⟨rfl, hs⟩
    have hdeclared : τ.declares (s.inside space) = true := (h.like.declares rfl).symm.trans hs
    change Scope.resolve ⟨τ, space⟩ s = (Scope.resolve ⟨σ, ""⟩ s).inside space
    -- in the outermost space nothing is looked up; inside, the look-up finds the renamed symbol
    have houtside : Scope.resolve ⟨σ, ""⟩ s = s := if_pos rfl
    rw [houtside, Scope.resolve]
    split
    · next hspace => rw [Symbol.inside, Symbol.qualify, if_pos hspace]
    · exact if_pos hdeclared
  · exact id
  · intro a
    rfl
  · intro a
    rfl

/-! ## One instruction -/

namespace Signature

variable {σ σ' : Signature}

/-- A command that ends well declares its own symbol and no other. -/
theorem Effect.symbols_eq {c : Command} (h : Effect σ c σ') :
    σ'.symbols = σ.symbols ++ c.declared := by
  cases h with
  | declared hdecl _ => exact (symbols_of_declare hdecl).1
  | asConstant hdecl => exact (symbols_of_declare hdecl).1
  | defined hdecl _ hrule _ =>
      rw [symbols_of_addRule hrule]
      exact (symbols_of_declare hdecl).1
  | constant | injective => exact (List.append_nil _).symm
  | rewrites _ _ hrule =>
      rw [symbols_of_addRule hrule]
      exact (List.append_nil _).symm
  | proves _ _ hrule hproven =>
      rw [symbols_of_setProven hproven, symbols_of_addRule hrule]
      exact (List.append_nil _).symm
  | asks hc =>
      cases ‹Command› with
      | declare d => cases hc
      | _ => exact (List.append_nil _).symm

end Signature

namespace Session

open Attempt Signature

variable {space : String} {host : Host} {enter enter' : Enter} {trail : Trail} {w v : RunState}
  {i : Instruction}

theorem report_like {L : Likeness} {S : Signature → Signature → Prop}
    (hS : Signature.Correspondence L S) {c c' : Command} (h : c.LikeIn L c') :
    Attempt.Related S (LocatedError.Like L) Eq (report host trail c) (report host trail c') := by
  refine .bind (.outcome (command_like host hS h)) fun p q hpq => ?_
  cases hpq with
  | error he => exact .fail ⟨he, rfl⟩
  | ok hm =>
      cases hm with
      | none => exact .pure rfl
      | some hm => exact .lift (.update fun w v hw => hw.send ⟨hm.severity, hm.title, rfl⟩)

/-- An instruction that mentions only declared symbols does the same inside a space. -/
theorem instruct_like (hw : w.Like (.inside space) v)
    (hi : ∀ moduleName localName, i.command ≠ .require moduleName localName)
    (hmentions : ∀ s, i.command.Mentions s → s ∈ w.session.signature.symbols) :
    EndedLike (.inside space) (ExceptRel (LocatedError.Like (.inside space)) Eq)
      ((instruct host enter ⟨"", trail⟩ i).run.run w)
      ((instruct host enter' ⟨space, trail⟩ i).run.run v) := by
  have hcommand : Command.LikeIn (.inside space) (Moment.command ⟨⟨"", trail⟩, i, w⟩)
      (Moment.command ⟨⟨space, trail⟩, i, v⟩) := by
    refine (Scope.inside hw.signature).command (Command.like_within ?_) 0
    exact fun s hs => mem_symbols_iff.1 (hmentions s hs)
  rw [instruct_eq_report hi, instruct_eq_report hi]
  refine report_like (.aligned _) hcommand ?_
  exact hw.withJournal (Journal.level_observe ..) (Journal.level_observe ..)

theorem symbols_of_instruct {w' : RunState}
    (hi : ∀ moduleName localName, i.command ≠ .require moduleName localName)
    (h : Ends (instruct host enter ⟨"", trail⟩ i) w (.ok ()) w') :
    w'.session.signature.symbols = w.session.signature.symbols ++ i.command.declared := by
  rcases instruct_cases h with ⟨moduleName, localName, -, hc, -⟩ | heffect
  · exact absurd hc (hi _ _)
  · rw [heffect.symbols_eq]
    congr 1
    cases i.command <;> rfl

/-! ## The whole run -/

theorem instructs_like {instrs : List Instruction} (hw : w.Like (.inside space) v)
    (h : SelfContained w.session.signature.symbols instrs) :
    EndedLike (.inside space) (ExceptRel (LocatedError.Like (.inside space)) Eq)
      ((instrs.forM (instruct host enter ⟨"", trail⟩)).run.run w)
      ((instrs.forM (instruct host enter' ⟨space, trail⟩)).run.run v) := by
  induction instrs generalizing w v with
  | nil => exact .ok ⟨.ok rfl, hw⟩
  | cons i rest ih =>
      obtain ⟨hi, -, hmentions, hrest⟩ := selfContained_cons.1 h
      refine endedBy_bind (instruct_like hw hi hmentions) fun _ _ w' v' hends _ _ hw' => ?_
      refine ih hw' ?_
      rwa [symbols_of_instruct hi hends]

/-- Only declared names come to be among the symbols. -/
theorem undotted_of_instructs {instrs : List Instruction} {w' : RunState}
    (h : SelfContained w.session.signature.symbols instrs)
    (hw : ∀ s ∈ w.session.signature.symbols, '.' ∉ s.text.toList)
    (hends : Ends (instrs.forM (instruct host enter ⟨"", trail⟩)) w (.ok ()) w') :
    ∀ s ∈ w'.session.signature.symbols, '.' ∉ s.text.toList := by
  induction instrs generalizing w with
  | nil =>
      obtain ⟨-, rfl⟩ := ends_pure.1 hends
      exact hw
  | cons i rest ih =>
      obtain ⟨hno, hdots, -, hrest⟩ := selfContained_cons.1 h
      obtain ⟨_, w₁, hi, hends⟩ := hends.bind
      have hsymbols := symbols_of_instruct hno hi
      refine ih (hsymbols ▸ hrest) ?_ hends
      intro s hs
      rw [hsymbols] at hs
      rcases List.mem_append.1 hs with hs | hs
      · exact hw s hs
      · exact hdots s hs

/-- Symbols with names without dots live in the outermost space, and those they correspond to live
in the other one. -/
theorem placed_of_undotted (space : String) {σ : Signature}
    (h : ∀ s ∈ σ.symbols, '.' ∉ s.text.toList) : Placed (.inside space) σ "" space := by
  rintro ⟨s, e⟩ hmem _ rfl
  have hs := h s (List.mem_map_of_mem hmem)
  have houtside := Symbol.space_qualify hs ""
  have hinside := Symbol.space_qualify hs space
  exact ⟨fun _ => hinside, fun _ => houtside⟩

theorem instructAll_like {instrs : List Instruction} (hw : w.Like (.inside space) v)
    (h : SelfContained w.session.signature.symbols instrs)
    (hdots : ∀ s ∈ w.session.signature.symbols, '.' ∉ s.text.toList) (n n' : Nat) :
    EndedLike (.inside space) (ExceptRel (LocatedError.Like (.inside space)) Eq)
      ((instructAll host (n + 1) ⟨"", trail⟩ instrs).run.run w)
      ((instructAll host (n' + 1) ⟨space, trail⟩ instrs).run.run v) := by
  refine endedBy_bind (instructs_like hw h) fun _ _ w' v' hends _ _ hw' => ?_
  have hproven := hw'.signature.allProven
    (placed_of_undotted space (undotted_of_instructs h hdots hends))
  rw [run_bind_signature, run_bind_signature]
  dsimp only
  generalize w'.session.signature.allProven "" = p, v'.session.signature.allProven space = q
    at hproven
  cases hproven with
  | error he => exact .ok ⟨.error ⟨.signature he, rfl⟩, hw'.say _ _⟩
  | ok _ => exact .ok ⟨.ok rfl, hw'⟩

/-! ## Where a run stops -/

/-- The number of instructions that end well, from the first one on. -/
def carriedThrough (host : Host) (place : Place) : List Instruction → RunState → Nat
  | [], _ => 0
  | i :: rest, w =>
    match w.checkInstruction host place i with
    | .ok (.ok (), w') => carriedThrough host place rest w' + 1
    | _ => 0

theorem carriedThrough_like {instrs : List Instruction} (hw : w.Like (.inside space) v)
    (h : SelfContained w.session.signature.symbols instrs) :
    carriedThrough host ⟨"", trail⟩ instrs w = carriedThrough host ⟨space, trail⟩ instrs v := by
  induction instrs generalizing w v with
  | nil => rfl
  | cons i rest ih =>
      obtain ⟨hi, -, hmentions, hrest⟩ := selfContained_cons.1 h
      have hstep : EndedLike (.inside space) (ExceptRel (LocatedError.Like (.inside space)) Eq)
          (w.checkInstruction host ⟨"", trail⟩ i) (v.checkInstruction host ⟨space, trail⟩ i) :=
        instruct_like hw hi hmentions
      rw [carriedThrough, carriedThrough]
      generalize hx : w.checkInstruction host ⟨"", trail⟩ i = p,
        v.checkInstruction host ⟨space, trail⟩ i = q at hstep
      cases hstep with
      | error => rfl
      | @ok p q hpq =>
          obtain ⟨r, w'⟩ := p
          obtain ⟨r', v'⟩ := q
          obtain ⟨hr, hw'⟩ := hpq
          cases hr with
          | error => rfl
          | ok _ =>
              refine congrArg (· + 1) (ih hw' ?_)
              rwa [symbols_of_instruct hi hx]

theorem trail_of_report {c : Command} {e : LocatedError} {w' : RunState}
    (h : Ends (report host trail c) w (.error e) w') : e.trail = trail := by
  obtain ⟨q, v, -, ⟨e', -, he, -⟩ | ⟨-, hr, -⟩ | ⟨m, -, hr, -⟩⟩ := report_cases h
  · rw [Except.error.inj he]
  · cases hr
  · cases hr

/-- The way to the instruction with a number, or only to the place if there are not so many. -/
def Place.wayTo (place : Place) (instrs : List Instruction) (n : Nat) : Trail :=
  place.trail ++ (instrs[n]?.map fun i => ⟨i.line, none⟩).toList

section

variable {place : Place} {instrs : List Instruction} {w' : RunState}
  (hno : ∀ i ∈ instrs, ∀ moduleName localName, i.command ≠ .require moduleName localName)

include hno

theorem carriedThrough_of_ok (h : Ends (instrs.forM (instruct host enter place)) w (.ok ()) w') :
    carriedThrough host place instrs w = instrs.length := by
  induction instrs generalizing w with
  | nil => rfl
  | cons i rest ih =>
      obtain ⟨_, w₁, hi, hrest⟩ := h.bind
      have hcheck : w.checkInstruction host place i = .ok (.ok (), w₁) := by
        rw [checkInstruction_eq (hno i (List.mem_cons_self ..))]
        exact hi
      rw [carriedThrough, hcheck, List.length_cons]
      exact congrArg (· + 1) (ih (fun j hj => hno j (List.mem_cons_of_mem _ hj)) hrest)

theorem trail_of_instructs {e : LocatedError}
    (h : Ends (instrs.forM (instruct host enter place)) w (.error e) w') :
    e.trail = place.wayTo instrs (carriedThrough host place instrs w) := by
  induction instrs generalizing w with
  | nil => cases (ends_pure.1 h).1
  | cons i rest ih =>
      have hi := hno i (List.mem_cons_self ..)
      rcases ends_bind.1 h with ⟨_, w₁, hend, hrest⟩ | ⟨e', hend, he⟩
      · have hcheck : w.checkInstruction host place i = .ok (.ok (), w₁) :=
          (checkInstruction_eq hi).trans hend
        rw [carriedThrough, hcheck]
        exact ih (fun j hj => hno j (List.mem_cons_of_mem _ hj)) hrest
      · obtain rfl := Except.error.inj he
        have hcheck : w.checkInstruction host place i = .ok (.error e, w') :=
          (checkInstruction_eq hi).trans hend
        rw [carriedThrough, hcheck]
        exact trail_of_report ((instruct_eq_report hi).symm.trans hend)

/-- A run that fails does so at the first instruction that is not carried through, or at the end. -/
theorem trail_of_checkInstructions {e : LocatedError}
    (h : w.checkInstructions host place instrs = .ok (.error e, w')) :
    e.trail = place.wayTo instrs (carriedThrough host place instrs w) := by
  rcases ends_bind.1 h with ⟨_, w₁, hinstrs, hclose⟩ | ⟨e', hinstrs, he⟩
  · have hclose := ends_bind_signature.1 hclose
    split at hclose
    · cases (ends_pure.1 hclose).1
    · obtain rfl := Except.error.inj (ends_fail.1 hclose).1
      rw [carriedThrough_of_ok hno hinstrs, Place.wayTo, List.getElem?_length]
      exact (List.append_nil _).symm
  · obtain rfl := Except.error.inj he
    exact trail_of_instructs hno hinstrs

end

/-- In every space self-contained instructions are carried through as far as in the outermost one,
and no further, from a fresh session. The two runs end well, or fail with the same kind of error at
the same instruction, or at the end, where all theorems must be proven; they send messages of the
same kinds; and the entries, rules and flags they leave behind are those of the run in the outermost
space, put inside the space. If one run exhausts its budget, the other one does. -/
theorem same_in_every_space (host : Host) (space : String) (trail : Trail) (eta : Bool)
    (journal : Journal) {instrs : List Instruction} (h : SelfContained [] instrs) :
    let w : RunState := { session := { signature := { eta } }, journal }
    let outermost := w.checkInstructions host ⟨"", trail⟩ instrs
    let inner := w.checkInstructions host ⟨space, trail⟩ instrs
    let n := carriedThrough host ⟨"", trail⟩ instrs w
    ExceptRel Eq
      (fun p q => ExceptRel (LocatedError.Like (.inside space)) Eq p.1 q.1 ∧ p.2.Mirrored space q.2)
      outermost inner ∧
    carriedThrough host ⟨space, trail⟩ instrs w = n ∧
    ∀ e w', outermost = .ok (.error e, w') → e.trail = Place.wayTo ⟨"", trail⟩ instrs n := by
  intro w outermost inner n
  have hw : w.Like (.inside space) w := ⟨⟨.nil, .nil, rfl⟩, rfl, rfl, rfl, .nil⟩
  have hruns : EndedLike (.inside space) (ExceptRel (LocatedError.Like (.inside space)) Eq)
      outermost inner := instructAll_like hw h nofun _ _
  refine ⟨?_, (carriedThrough_like hw h).symm, ?_⟩
  · exact hruns.imp fun p q hpq => ⟨hpq.1, hpq.2.mirrored⟩
  · intro e w' hends
    exact trail_of_checkInstructions h.noRequire hends

/-- Numbers with an addition, and a theorem about them that is never proven. -/
def arithmetic : List Instruction :=
  [⟨1, .declare ⟨"nat", some .type, none, true, false⟩⟩,
   ⟨2, .declare ⟨"zero", some (.symb ⟨"nat"⟩), none, false, false⟩⟩,
   ⟨3, .declare ⟨"plus", some (.prod none (.symb ⟨"nat"⟩) (.prod none (.symb ⟨"nat"⟩)
     (.symb ⟨"nat"⟩))), none, false, false⟩⟩,
   ⟨4, .rule "plus_zero"
     (.appl (.appl (.symb ⟨"plus"⟩) (.symb ⟨"zero"⟩)) (.mvar (some (.named "n")) []))
     (.mvar (some (.named "n")) [])⟩,
   ⟨5, .compare [] (.appl (.appl (.symb ⟨"plus"⟩) (.symb ⟨"zero"⟩)) (.symb ⟨"zero"⟩))
     (.symb ⟨"zero"⟩) true⟩,
   ⟨6, .declare ⟨"one", some (.symb ⟨"nat"⟩), none, false, true⟩⟩]

/-- Inside `math` the run fails where it does outside: at the end, for want of a proof. -/
theorem same_in_every_space_arithmetic :
    SelfContained [] arithmetic ∧
    carriedThrough ⟨9, .unsupported, 0⟩ {} arithmetic {} = 6 ∧
    carriedThrough ⟨9, .unsupported, 0⟩ ⟨"math", []⟩ arithmetic {} = 6 ∧
    ExceptRel Eq
      (fun p q =>
        ExceptRel (LocatedError.Like (.inside "math")) Eq p.1 q.1 ∧ p.2.Mirrored "math" q.2)
      (RunState.checkInstructions ⟨9, .unsupported, 0⟩ {} arithmetic {})
      (RunState.checkInstructions ⟨9, .unsupported, 0⟩ ⟨"math", []⟩ arithmetic {}) := by
  have hself : SelfContained [] arithmetic := by
    simp [arithmetic, selfContained_cons, selfContained_nil, Command.declared, Command.Mentions,
      Command.terms]
  have hsix : carriedThrough ⟨9, .unsupported, 0⟩ {} arithmetic {} = 6 := by cbv
  obtain ⟨hruns, hsame, -⟩ := same_in_every_space ⟨9, .unsupported, 0⟩ "math" [] false {} hself
  exact ⟨hself, hsix, hsame.trans hsix, hruns⟩

end Session

end LambdaPi
