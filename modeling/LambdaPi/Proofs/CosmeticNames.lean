import Mathlib
import LambdaPi.Proofs.FreshSymbols
import LambdaPi.Proofs.NameBlindness

/-!
# Names are for display only

Signatures, contexts, terms and instructions that are the same once all names on products,
abstractions, variables and hypotheses are erased are treated the same (`names_cosmetic`): reduction,
comparison, typing and matching give the same results up to names, and instructions are accepted or
refused for the same reason, whatever modules they ask for.

Differing in names is a likeness, so most of this is what like things have in common. Two things are
left. Signatures are compared by what they say about each symbol, not by the order in which they say
it, and their decision trees are not compared at all: those are made of the rules
(`Signature.Alike.like`). And for whole instructions the theorems of a space have to be looked for,
where the order of the tables would show; but the smallest symbol without a proof is the same for all
orders (`Signature.Twins.allProven`).
-/

namespace LambdaPi

/-! ## Erasing names -/

/-- The hypothesis without display names. -/
def Hypothesis.nameless (h : Hypothesis) : Hypothesis :=
  ⟨none, h.type.map Term.nameless⟩

/-- The context without display names. -/
def Context.nameless (Γ : Context) : Context :=
  Γ.map Hypothesis.nameless

/-- The rule without display names. -/
def Rule.nameless (r : Rule) : Rule :=
  { r with args := r.args.map Term.nameless, rhs := r.rhs.nameless }

/-- The entry without display names. -/
def Entry.nameless (e : Entry) : Entry :=
  { e with type := e.type.nameless }

/-- The declaration without display names. -/
def Declaration.nameless (d : Declaration) : Declaration :=
  { d with type := d.type.map Term.nameless, body := d.body.map Term.nameless }

/-- The command without display names. -/
def Command.nameless : Command → Command
  | declare d => declare d.nameless
  | rule name lhs rhs => rule name lhs.nameless rhs.nameless
  | eval Γ t => eval Γ.nameless t.nameless
  | infer Γ t => infer Γ.nameless t.nameless
  | check Γ t A => check Γ.nameless t.nameless A.nameless
  | compare Γ t u expected => compare Γ.nameless t.nameless u.nameless expected
  | print t => print t.nameless
  | c => c

/-- The instruction without display names. -/
def Instruction.nameless (i : Instruction) : Instruction :=
  { i with command := i.command.nameless }

/-- The library without display names. -/
def Library.nameless : Library → Library
  | unsupported => unsupported
  | modules named => modules (named.map fun (m, instrs) => (m, instrs.map Instruction.nameless))

/-- The signatures say the same about each symbol, up to names: its entry, its rules in their order,
and its flags. -/
structure Signature.Alike (σ τ : Signature) : Prop where
  entry : ∀ s, (σ.entry? s).map Entry.nameless = (τ.entry? s).map Entry.nameless
  rules : ∀ s, (σ.ruleSet? s).map (fun r => (r.rules.map Rule.nameless, r.constant, r.injective)) =
    (τ.ruleSet? s).map fun r => (r.rules.map Rule.nameless, r.constant, r.injective)
  eta : σ.eta = τ.eta

/-! ## Erasing and likeness -/

theorem Term.like_names_iff {t u : Term} : t.Like .names u ↔ t.nameless = u.nameless :=
  alike_iff_like.symm.trans alike_iff

theorem like_names_option {A B : Option Term} (h : A.map Term.nameless = B.map Term.nameless) :
    Option.Rel (Term.Like .names) A B :=
  rel_mono (fun _ _ => Term.like_names_iff.2) (option_map_eq_map_iff.1 h)

theorem like_names_list {as bs : List Term} (h : as.map Term.nameless = bs.map Term.nameless) :
    List.Forall₂ (Term.Like .names) as bs :=
  (map_eq_map_iff.1 h).imp fun _ _ => Term.like_names_iff.2

theorem Context.like_names {Γ Δ : Context} (h : Γ.nameless = Δ.nameless) :
    Context.Like .names Γ Δ := by
  refine (map_eq_map_iff.1 h).imp fun g d hgd => ⟨trivial, ?_⟩
  exact like_names_option (congrArg Hypothesis.type hgd)

theorem Rule.like_names_iff {r q : Rule} : r.Like .names q ↔ r.nameless = q.nameless := by
  obtain ⟨name, head, args, rhs⟩ := r
  obtain ⟨name', head', args', rhs'⟩ := q
  constructor
  · rintro ⟨hname, hhead, hargs, hrhs⟩
    obtain rfl : name = name' := hname
    obtain rfl : head = head' := hhead
    have hargs : args.map Term.nameless = args'.map Term.nameless :=
      map_eq_map_iff.2 (hargs.imp fun _ _ => Term.like_names_iff.1)
    simp only [nameless, hargs, Term.like_names_iff.1 hrhs]
  · intro h
    simp only [nameless, Rule.mk.injEq] at h
    obtain ⟨rfl, rfl, hargs, hrhs⟩ := h
    exact ⟨rfl, rfl, like_names_list hargs, Term.like_names_iff.2 hrhs⟩

theorem like_names_rules {rules rules' : List Rule}
    (h : rules.map Rule.nameless = rules'.map Rule.nameless) :
    List.Forall₂ (Rule.Like .names) rules rules' :=
  (map_eq_map_iff.1 h).imp fun _ _ => Rule.like_names_iff.2

theorem Command.like_names {c c' : Command} (h : c.nameless = c'.nameless) :
    c.Like .names Eq Eq c' := by
  cases c <;> cases c' <;>
    simp only [nameless, reduceCtorEq, declare.injEq, constant.injEq, injective.injEq, rule.injEq,
      eval.injEq, infer.injEq, check.injEq, compare.injEq, print.injEq, trees.injEq,
      require.injEq] at h
  case declare.declare d d' =>
    simp only [Declaration.nameless, Declaration.mk.injEq] at h
    obtain ⟨hname, htype, hbody, hconstant, htheorem⟩ := h
    exact .declare ⟨hname, like_names_option htype, like_names_option hbody, hconstant, htheorem⟩
  case constant.constant => exact .constant h
  case injective.injective => exact .injective h
  case rule.rule =>
    exact .rule h.1 (Term.like_names_iff.2 h.2.1) (Term.like_names_iff.2 h.2.2)
  case eval.eval => exact .eval (Context.like_names h.1) (Term.like_names_iff.2 h.2)
  case infer.infer => exact .infer (Context.like_names h.1) (Term.like_names_iff.2 h.2)
  case check.check =>
    exact .check (Context.like_names h.1) (Term.like_names_iff.2 h.2.1)
      (Term.like_names_iff.2 h.2.2)
  case compare.compare =>
    obtain ⟨hΓ, ht, hu, rfl⟩ := h
    exact .compare (Context.like_names hΓ) (Term.like_names_iff.2 ht) (Term.like_names_iff.2 hu)
  case print.print => exact .print (Term.like_names_iff.2 h)
  case trees.trees => exact .trees h
  case clock.clock => exact .clock
  case require.require =>
    obtain ⟨rfl, rfl⟩ := h
    exact .require
  case debugOn.debugOn => exact .debugOn
  case debugOff.debugOff => exact .debugOff

/-! ## Tables in another order -/

theorem Table.find?_of_mem {α : Type} {table : Table α} (h : (table.map (·.1)).Nodup)
    {s : Symbol} {a : α} (hmem : (s, a) ∈ table) : table.find? s = some a := by
  induction table with
  | nil => cases hmem
  | cons entry rest ih =>
      obtain ⟨t, b⟩ := entry
      rw [List.map_cons, List.nodup_cons] at h
      rw [Table.find?]
      rcases List.mem_cons.1 hmem with heq | hrest
      · obtain ⟨rfl, rfl⟩ := Prod.mk.inj heq
        exact if_pos rfl
      · have hne : s ≠ t := by
          rintro rfl
          exact h.1 (List.mem_map.2 ⟨(s, a), hrest, rfl⟩)
        rw [if_neg hne, ih h.2 hrest]

namespace Symbol

theorem before_smallest? {symbols : List Symbol} {m : Symbol} (h : smallest? symbols = some m) :
    m ∈ symbols ∧ ∀ s ∈ symbols, ¬ s.text < m.text := by
  induction symbols generalizing m with
  | nil => cases h
  | cons u rest ih =>
      rw [smallest?] at h
      split at h
      · next hnone =>
        obtain rfl := Option.some.inj h
        have hrest : rest = [] := by
          cases rest with
          | nil => rfl
          | cons v rest =>
              obtain ⟨t, -, ht⟩ := exists_smallest? (List.mem_cons_self (a := v) (l := rest))
              cases hnone.symm.trans ht
        rw [hrest]
        exact ⟨List.mem_singleton.2 rfl, List.forall_mem_singleton.2 (lt_irrefl _)⟩
      · next t ht =>
        obtain ⟨hmem, hleast⟩ := ih ht
        unfold before at h
        simp only [decide_eq_true_eq] at h
        split at h
        · next hlt =>
          obtain rfl := Option.some.inj h
          exact ⟨List.mem_cons_of_mem _ hmem,
            List.forall_mem_cons.2 ⟨not_lt.2 hlt.le, hleast⟩⟩
        · next hlt =>
          obtain rfl := Option.some.inj h
          refine ⟨List.mem_cons_self .., List.forall_mem_cons.2 ⟨lt_irrefl _, fun s hs => ?_⟩⟩
          exact not_lt.2 ((not_lt.1 hlt).trans (not_lt.1 (hleast s hs)))

/-- The smallest symbol does not depend on the order. -/
theorem smallest?_congr {as bs : List Symbol} (h : ∀ s, s ∈ as ↔ s ∈ bs) :
    smallest? as = smallest? bs := by
  cases as with
  | nil =>
      obtain rfl : bs = [] :=
        List.eq_nil_iff_forall_not_mem.2 fun s hs => absurd ((h s).2 hs) List.not_mem_nil
      rfl
  | cons a as =>
      have ha : a ∈ a :: as := List.mem_cons_self ..
      obtain ⟨⟨m⟩, -, hm⟩ := exists_smallest? ha
      obtain ⟨⟨n⟩, -, hn⟩ := exists_smallest? ((h a).1 ha)
      obtain ⟨hmem, hleast⟩ := before_smallest? hm
      obtain ⟨hmem', hleast'⟩ := before_smallest? hn
      have hmn : m ≤ n := not_lt.1 (hleast ⟨n⟩ ((h _).2 hmem'))
      have hnm : n ≤ m := not_lt.1 (hleast' ⟨m⟩ ((h _).1 hmem))
      rw [hm, hn, le_antisymm hmn hnm]

end Symbol

namespace Signature

variable {P Q : Rule → Prop} {σ τ : Signature}

/-- Trees are made of the rules, so nothing about them needs to be assumed. -/
theorem Alike.like (h : σ.Alike τ) (hσ : σ.Reachable P) (hτ : τ.Reachable Q) :
    σ.Like .names τ := by
  refine ⟨?_, ?_, h.eta⟩
  · rintro s _ rfl
    refine rel_mono (fun e f hef => ?_) (option_map_eq_map_iff.1 (h.entry s))
    simp only [Entry.nameless, Entry.mk.injEq] at hef
    exact ⟨Term.like_names_iff.2 hef.1, hef.2.1, hef.2.2⟩
  · rintro s _ rfl
    have htrees := hσ.trees_eq s
    have htrees' := hτ.trees_eq s
    have hrules := option_map_eq_map_iff.1 (h.rules s)
    unfold rulesOf trees at htrees htrees'
    generalize σ.ruleSet? s = r, τ.ruleSet? s = q at *
    cases hrules with
    | none => exact .none
    | @some r q hrq =>
        simp only [Prod.mk.injEq] at hrq
        obtain ⟨hrules, hconstant, hinjective⟩ := hrq
        have hlike := like_names_rules hrules
        have hnil : r.rules = [] ↔ q.rules = [] := by
          rw [← List.map_eq_nil_iff, hrules, List.map_eq_nil_iff]
        refine .some ⟨hlike, hconstant, hinjective, ?_⟩
        simp only [Option.getD_some, hnil] at htrees htrees'
        rw [htrees, htrees']
        split
        · exact .nil
        · exact treesOf_like hlike

theorem Reachable.nodup_symbols (hσ : σ.Reachable P) : σ.symbols.Nodup := by
  induction hσ with
  | empty => exact List.nodup_nil
  | eta _ _ ih | declareConstant _ _ ih | declareInjective _ _ ih => exact ih
  | declare _ hdecl ih =>
      obtain ⟨hsymbols, hfresh⟩ := symbols_of_declare hdecl
      rw [hsymbols]
      exact List.nodup_append.2 ⟨ih, List.nodup_singleton _, fun s hs t ht => by grind⟩
  | setProven _ hset ih => rwa [symbols_of_setProven hset]
  | addRule _ _ hadd ih => rwa [symbols_of_addRule hadd]

/-- The signatures are alike up to names, and neither has two entries for one symbol. -/
structure Twins (σ τ : Signature) : Prop where
  like : σ.Like .names τ
  left : σ.symbols.Nodup
  right : τ.symbols.Nodup

theorem nodup_enter (h : σ.symbols.Nodup) (s : Symbol) (e : Entry) :
    ({ σ with entries := σ.entries.enter s e } : Signature).symbols.Nodup := by
  unfold symbols at *
  cases hs : σ.entries.find? s with
  | none =>
      have hfresh : s ∉ σ.symbols := by
        rw [mem_symbols_iff, declares, entry?, hs]
        simp
      rw [Table.enter_of_find?_none hs, List.map_append]
      exact List.nodup_append.2 ⟨h, List.nodup_singleton _, fun t ht u hu => by grind [symbols]⟩
  | some b => rwa [Table.map_fst_enter hs]

theorem Correspondence.twins : Correspondence .names Twins where
  like h := h.like
  enterEntry h hst hef :=
    ⟨(Correspondence.lookUps .names).enterEntry h.like hst hef, nodup_enter h.left _ _,
      nodup_enter h.right _ _⟩
  enterRuleSet h hst hrq :=
    ⟨(Correspondence.lookUps .names).enterRuleSet h.like hst hrq, h.left, h.right⟩

theorem mem_unprovenIn_iff (h : σ.symbols.Nodup) {s : Symbol} {space : String} :
    s ∈ σ.unprovenIn space ↔ σ.Owes s ∧ s.space = space := by
  constructor
  · intro hs
    obtain ⟨⟨t, e⟩, hmem, rfl⟩ := List.mem_map.1 hs
    obtain ⟨hmem, he⟩ := List.mem_filter.1 hmem
    simp only [Bool.and_eq_true, beq_iff_eq] at he
    exact ⟨⟨e, Table.find?_of_mem h hmem, he.1⟩, he.2⟩
  · rintro ⟨howes, rfl⟩
    exact howes.mem_unprovenIn

theorem Like.owes_iff (h : σ.Like .names τ) {s : Symbol} : σ.Owes s ↔ τ.Owes s := by
  have hentry := h.entry (s := s) (t := s) rfl
  unfold Owes
  generalize σ.entry? s = e, τ.entry? s = f at hentry
  cases hentry with
  | none => rfl
  | some hef => simp [hef.unproven]

theorem Twins.allProven (h : σ.Twins τ) (space : String) :
    ExceptRel (SignatureError.Like .names) Eq (σ.allProven space) (τ.allProven space) := by
  have hsmallest : Symbol.smallest? (σ.unprovenIn space) = Symbol.smallest? (τ.unprovenIn space) := by
    refine Symbol.smallest?_congr fun s => ?_
    rw [mem_unprovenIn_iff h.left, mem_unprovenIn_iff h.right, h.like.owes_iff]
  unfold Signature.allProven
  rw [hsmallest]
  generalize Symbol.smallest? (τ.unprovenIn space) = s
  cases s with
  | none => exact .ok rfl
  | some s =>
      have htype := h.like.typeOf? (s := s) (t := s) rfl
      dsimp only
      generalize σ.typeOf? s = A, τ.typeOf? s = B at htype
      cases htype with
      | none => exact .ok rfl
      | some hAB => exact .error (.unproven rfl hAB)

end Signature

/-! ## Instructions -/

namespace Library

theorem load_nameless (lib : Library) (moduleName : String) :
    lib.nameless.load moduleName =
      (lib.load moduleName).map (List.map Instruction.nameless) := by
  cases lib with
  | unsupported => rfl
  | modules named =>
      have hlookup : (named.map fun (m, instrs) => (m, instrs.map Instruction.nameless)).lookup
          moduleName = (named.lookup moduleName).map (List.map Instruction.nameless) := by
        induction named with
        | nil => rfl
        | cons entry rest ih =>
            obtain ⟨m, instrs⟩ := entry
            rw [List.map_cons, List.lookup_cons, List.lookup_cons, ih]
            split <;> rfl
      unfold nameless load
      dsimp only
      rw [hlookup]
      cases named.lookup moduleName <;> rfl

theorem unloaded_nameless (lib : Library) (loading : List String) :
    lib.nameless.unloaded loading = lib.unloaded loading := by
  cases lib with
  | unsupported => rfl
  | modules named =>
      unfold nameless unloaded
      dsimp only
      rw [List.filter_map, List.length_map]
      rfl

/-- Libraries that are the same up to names have the same modules up to names. -/
theorem load_names {lib lib' : Library} (h : lib.nameless = lib'.nameless) (moduleName : String) :
    ExceptRel Eq (fun is js => is.map Instruction.nameless = js.map Instruction.nameless)
      (lib.load moduleName) (lib'.load moduleName) := by
  have hload := congrArg (·.load moduleName) h
  simp only [load_nameless] at hload
  generalize lib.load moduleName = p, lib'.load moduleName = q at hload
  cases p with
  | error e =>
      cases q with
      | error d => exact .error (Except.error.inj hload)
      | ok js => cases hload
  | ok is =>
      cases q with
      | error d => cases hload
      | ok js => exact .ok (Except.ok.inj hload)

end Library

theorem RunState.LikeBy.beginModule {S : Signature → Signature → Prop} {w v : RunState}
    (h : w.LikeBy S v) (moduleName : String) :
    (w.beginModule moduleName).LikeBy S (v.beginModule moduleName) :=
  ⟨h.signature, congrArg (· ++ [moduleName]) h.loading, h.savedLevel, h.level, h.messages⟩

theorem RunState.LikeBy.endModule {S : Signature → Signature → Prop} {w v : RunState}
    (h : w.LikeBy S v) : w.endModule.LikeBy S v.endModule :=
  ⟨h.signature, congrArg List.dropLast h.loading, h.savedLevel, h.level, h.messages⟩

theorem Scope.like_names {σ τ : Signature} (h : σ.Like .names τ) (space : String) :
    Scope.Like .names .names ⟨σ, space⟩ ⟨τ, space⟩ := by
  refine ⟨?_, fun h => h, fun _ => rfl, fun _ => rfl⟩
  rintro s _ rfl
  change Scope.resolve ⟨σ, space⟩ s = Scope.resolve ⟨τ, space⟩ s
  have hdeclares : σ.declares (.qualify space s.text) = τ.declares (.qualify space s.text) :=
    h.declares rfl
  unfold Scope.resolve
  dsimp only
  rw [hdeclares]

namespace Session

open Attempt Signature

/-- Attempts that do the same up to names. -/
abbrev SameUpToNames : Attempt LocatedError Unit → Attempt LocatedError Unit → Prop :=
  Attempt.Related Twins (LocatedError.Like .names) Eq

/-- Modules are entered the same up to names. -/
def EnterSame (enter enter' : Enter) : Prop :=
  ∀ place instrs instrs', instrs.map Instruction.nameless = instrs'.map Instruction.nameless →
    SameUpToNames (enter place instrs) (enter' place instrs')

variable {host : Host} {lib : Library} {enter enter' : Enter}

theorem report_names {trail : Trail} {c c' : Command} (h : c.LikeIn .names c') :
    SameUpToNames (report host trail c) (report { host with library := lib } trail c') := by
  have hhost : command { host with library := lib } c' = command host c' := by
    cases c' <;> rfl
  have hreport : SameUpToNames (report host trail c) (report host trail c') :=
    report_like Correspondence.twins h
  unfold report at *
  rwa [hhost]

section

variable (hlib : host.library.nameless = lib.nameless) (henter : EnterSame enter enter')

include hlib henter

theorem require_names (place : Place) (moduleName : String) (localName : Option String) :
    SameUpToNames (require host enter place moduleName localName)
      (require { host with library := lib } enter' place moduleName localName) := by
  refine .get fun w v hw => ?_
  dsimp only
  rw [hw.loading]
  split
  · exact .fail ⟨.load, rfl⟩
  · have hload := Library.load_names hlib moduleName
    generalize host.library.load moduleName = p, lib.load moduleName = q at hload
    cases hload with
    | error he =>
        subst he
        exact .fail ⟨.load, rfl⟩
    | ok hinstrs =>
        refine .bind (.lift (.tell ..)) fun _ _ _ => ?_
        refine .bind (.lift (.update fun w v hw => hw.beginModule _)) fun _ _ _ => ?_
        refine .bind (.outcome (henter _ _ _ hinstrs)) fun p q hpq => ?_
        refine .bind (.lift (.update fun w v hw => hw.endModule)) fun _ _ _ => ?_
        cases hpq with
        | error he => exact .throw he
        | ok _ => exact .lift (.update fun w v hw => hw.send ⟨rfl, rfl, rfl⟩)

theorem instruct_names (place : Place) {i i' : Instruction} (hi : i.nameless = i'.nameless) :
    SameUpToNames (instruct host enter place i)
      (instruct { host with library := lib } enter' place i') := by
  have hline : i.nameless.line = i'.nameless.line := congrArg Instruction.line hi
  change i.line = i'.line at hline
  have hcommand := Command.like_names (congrArg Instruction.command hi)
  refine .bind (.lift (.tell ..)) fun _ _ _ => .bind (.lift .signature) fun σ τ hσ => ?_
  have hscoped := (Scope.like_names hσ.like place.space).command hcommand 0
  dsimp only
  rw [hline]
  generalize ((Scope.command ⟨σ, place.space⟩ i.command).run 0).1 = c,
    ((Scope.command ⟨τ, place.space⟩ i'.command).run 0).1 = c' at hscoped
  have hreport : SameUpToNames (report host (place.trail ++ [⟨i'.line, none⟩]) c)
      (report { host with library := lib } (place.trail ++ [⟨i'.line, none⟩]) c') :=
    report_names hscoped
  cases hscoped with
  | require => exact require_names hlib henter _ _ _
  | _ => exact hreport

theorem instructs_names (place : Place) {instrs instrs' : List Instruction}
    (h : instrs.map Instruction.nameless = instrs'.map Instruction.nameless) :
    SameUpToNames (instrs.forM (instruct host enter place))
      (instrs'.forM (instruct { host with library := lib } enter' place)) := by
  have hinstrs := map_eq_map_iff.1 h
  clear h
  induction hinstrs with
  | nil => exact Related.pure rfl
  | cons hi _ ih => exact Related.bind (instruct_names hlib henter place hi) fun _ _ _ => ih

end

/-- Nothing in instructions depends on names, however deeply modules require each other. -/
theorem instructAll_names (hlib : host.library.nameless = lib.nameless) (nesting : Nat) :
    EnterSame (instructAll host nesting) (instructAll { host with library := lib } nesting) := by
  induction nesting with
  | zero => exact fun place instrs instrs' h w v hw => .error rfl
  | succ nesting ih =>
      intro place instrs instrs' h
      refine .bind (instructs_names hlib ih place h) fun _ _ _ => ?_
      refine .bind (.lift .signature) fun σ τ hσ => ?_
      have hproven := hσ.allProven place.space
      generalize σ.allProven place.space = p, τ.allProven place.space = q at hproven
      cases hproven with
      | error he => exact .fail ⟨.signature he, rfl⟩
      | ok _ => exact .pure rfl

theorem checkInstruction_names (hlib : host.library.nameless = lib.nameless) (place : Place)
    {i i' : Instruction} (hi : i.nameless = i'.nameless) {w v : RunState}
    (hw : w.LikeBy Twins v) :
    EndedBy Twins (ExceptRel (LocatedError.Like .names) Eq) (w.checkInstruction host place i)
      (v.checkInstruction { host with library := lib } place i') := by
  have hnesting : v.nesting { host with library := lib } = w.nesting host := by
    unfold RunState.nesting
    rw [← hw.loading, ← Library.unloaded_nameless, ← hlib, Library.unloaded_nameless]
  unfold RunState.checkInstruction
  rw [hnesting]
  exact instruct_names hlib (instructAll_names hlib _) place hi hw

end Session

/-! ## The whole program -/

variable {σ τ : Signature}

namespace Signature

theorem reachable_after (hσ : σ.Reachable fun _ => True) (changes : List Change) :
    (σ.after changes).Reachable fun _ => True := by
  induction changes generalizing σ with
  | nil => exact hσ
  | cons c changes ih =>
      refine ih ?_
      dsimp only
      cases happly : c.apply σ with
      | error e => exact hσ
      | ok σ' => exact c.reachable hσ happly

theorem find?_eq_none {α : Type} {table : Table α} {s : Symbol}
    (h : s ∉ table.map (·.1)) : table.find? s = none := by
  cases hs : table.find? s with
  | none => rfl
  | some a => exact absurd (List.mem_map_of_mem (Table.mem_of_find? hs)) h

/-- Whether signatures are the same up to names can be read off the tables. -/
theorem alike_of_tables
    (hentry : ∀ s ∈ σ.symbols ++ τ.symbols,
      (σ.entry? s).map Entry.nameless = (τ.entry? s).map Entry.nameless)
    (hrules : ∀ s ∈ σ.ruleSets.map (·.1) ++ τ.ruleSets.map (·.1),
      (σ.ruleSet? s).map (fun r => (r.rules.map Rule.nameless, r.constant, r.injective)) =
        (τ.ruleSet? s).map fun r => (r.rules.map Rule.nameless, r.constant, r.injective))
    (heta : σ.eta = τ.eta) : σ.Alike τ := by
  refine ⟨fun s => ?_, fun s => ?_, heta⟩
  · by_cases hs : s ∈ σ.symbols ++ τ.symbols
    · exact hentry s hs
    · rw [List.mem_append, not_or] at hs
      unfold Signature.entry?
      rw [find?_eq_none hs.1, find?_eq_none hs.2]
  · by_cases hs : s ∈ σ.ruleSets.map (·.1) ++ τ.ruleSets.map (·.1)
    · exact hrules s hs
    · rw [List.mem_append, not_or] at hs
      rw [ruleSet?, ruleSet?, find?_eq_none hs.1, find?_eq_none hs.2]

end Signature

/-- The state with another signature. -/
def RunState.withSignature (w : RunState) (σ : Signature) : RunState :=
  { w with session := { w.session with signature := σ } }

theorem RunState.likeBy_withSignature {S : Signature → Signature → Prop} (w : RunState)
    {σ τ : Signature} (h : S σ τ) : (w.withSignature σ).LikeBy S (w.withSignature τ) :=
  ⟨h, rfl, rfl, rfl, List.forall₂_same.2 fun _ _ => ⟨rfl, rfl, rfl⟩⟩

theorem map_nameless_of_related {x y : Traced Term} (h : x.Related (Term.Like .names) y) :
    x.value.map Term.nameless = y.value.map Term.nameless :=
  option_map_eq_map_iff.2 (rel_mono (fun _ _ => Term.like_names_iff.1) h)

theorem map_nameless_of_found {x y : Traced (Option (Rule × Bindings))}
    (h : x.Related (FoundLike .names) y) :
    x.value.map (Option.map (·.1.nameless)) = y.value.map (Option.map (·.1.nameless)) := by
  refine option_map_eq_map_iff.2 (rel_mono (fun p q hpq => ?_) h)
  exact option_map_eq_map_iff.2 (rel_mono (fun _ _ hrule => Rule.like_names_iff.1 hrule.1) hpq)

/-- Names are for display only. In signatures that are the same up to names, terms, types, contexts,
rules and instructions that are the same up to names are treated the same, within any budget: weak
head normal forms, normal forms and inferred types are the same up to names, if there are any, and
the same terms are convertible and pass the same checks; a tree that is compiled from the rules finds
the same rule; and an instruction ends well for both or fails for both. What fails does so for the
same reason. -/
theorem names_cosmetic (hσ : σ.Reachable fun _ => True) (hτ : τ.Reachable fun _ => True)
    (h : σ.Alike τ) (budget : Nat) :
    (∀ t u, t.nameless = u.nameless →
      (σ.whnf budget t).value.map Term.nameless = (τ.whnf budget u).value.map Term.nameless ∧
      (σ.nf budget t).value.map Term.nameless = (τ.nf budget u).value.map Term.nameless) ∧
    (∀ t u t' u', t.nameless = u.nameless → t'.nameless = u'.nameless →
      (σ.convertible budget t t').value = (τ.convertible budget u u').value) ∧
    (∀ Γ Δ t u, Γ.nameless = Δ.nameless → t.nameless = u.nameless →
      Option.Rel (ExceptRel (TypingError.Like .names) fun A B => A.nameless = B.nameless)
        (σ.infer budget Γ t).run.value (τ.infer budget Δ u).run.value ∧
      ∀ A B, A.nameless = B.nameless →
        Option.Rel (ExceptRel (TypingError.Like .names) Eq)
          (σ.check budget Γ t A).run.value (τ.check budget Δ u B).run.value) ∧
    (∀ rules rules' arity, rules.map Rule.nameless = rules'.map Rule.nameless →
      ExceptRel (TreeError.Like .names)
        (fun tree tree' => ∀ ts us, ts.map Term.nameless = us.map Term.nameless →
          (tree.find (σ.reducer budget) ts).value.map (Option.map (·.1.nameless)) =
            (tree'.find (τ.reducer budget) us).value.map (Option.map (·.1.nameless)))
        (DecisionTree.compile rules arity) (DecisionTree.compile rules' arity)) ∧
    ∀ (host : Host) (lib : Library) place i i' (w : RunState),
      host.library.nameless = lib.nameless → i.nameless = i'.nameless →
      ExceptRel Eq (fun p q => ExceptRel (LocatedError.Like .names) Eq p.1 q.1)
        ((w.withSignature σ).checkInstruction host place i)
        ((w.withSignature τ).checkInstruction { host with library := lib } place i') := by
  have hlike := h.like hσ hτ
  have heval := hlike.evaluation budget
  refine ⟨fun t u htu => ?_, fun t u t' u' htu htu' => ?_, fun Γ Δ t u hΓ htu => ?_,
    fun rules rules' arity hrules => ?_, fun host lib place i i' w hlib hi => ?_⟩
  · have htu := Term.like_names_iff.2 htu
    exact ⟨map_nameless_of_related (heval.whnf htu), map_nameless_of_related (heval.nf htu)⟩
  · have hsame := heval.convertible (Term.like_names_iff.2 htu) (Term.like_names_iff.2 htu')
    exact eq_of_rel (fun _ _ h => h) hsame
  · have hΓ := Context.like_names hΓ
    have htu := Term.like_names_iff.2 htu
    refine ⟨rel_mono (fun p q hpq => ?_) (hlike.infer budget htu hΓ), fun A B hAB => ?_⟩
    · exact hpq.imp fun _ _ hAB => Term.like_names_iff.1 hAB
    · exact hlike.check budget htu hΓ (Term.like_names_iff.2 hAB)
  · refine (DecisionTree.compile_like (like_names_rules hrules) arity).imp ?_
    intro tree tree' htree ts us htus
    exact map_nameless_of_found (heval.reducer.find htree.root (unseen_like (like_names_list htus)))
  · have htwins : σ.Twins τ := ⟨hlike, hσ.nodup_symbols, hτ.nodup_symbols⟩
    have hends := Session.checkInstruction_names hlib place hi (w.likeBy_withSignature htwins)
    exact hends.imp fun _ _ hpq => hpq.1

namespace Signature

/-- The type of natural numbers. -/
def nat : Term :=
  .symb ⟨"nat"⟩

/-- A symbol `f` with the rule `f X X (x => Y[x]) --> Y[X]`, where the variables are called `x`. -/
def diagonalChanges (x : String) : List Change :=
  [.declare ⟨"f"⟩ (.prod (some x) nat (.prod (some x) nat
      (.prod none (.prod (some x) nat nat) nat))) false,
   .addRule { diagonalRule with
      args := [.mvar (some (.named "X")) [], .mvar (some (.named "X")) [],
        .abst x none (.mvar (some (.named "Y")) [.bvar 0 (some x)])] }]

/-- Numbers, and `f` at the end. -/
def numbersFirst (x : String) : Signature :=
  ({} : Signature).after ([.declare ⟨"nat"⟩ .type false, .declare ⟨"zero"⟩ nat false] ++
    diagonalChanges x)

/-- Numbers, and `f` before zero. -/
def numbersLast (x : String) : Signature :=
  ({} : Signature).after (.declare ⟨"nat"⟩ .type false :: diagonalChanges x ++
    [.declare ⟨"zero"⟩ nat false])

theorem numbers_alike : (numbersFirst "x").Alike (numbersLast "y") := by
  refine alike_of_tables ?_ ?_ (by cbv)
  · have hsymbols : (numbersFirst "x").symbols ++ (numbersLast "y").symbols =
        [⟨"nat"⟩, ⟨"zero"⟩, ⟨"f"⟩, ⟨"nat"⟩, ⟨"f"⟩, ⟨"zero"⟩] := by cbv
    rw [hsymbols]
    simp only [List.forall_mem_cons]
    refine ⟨?_, ?_, ?_, ?_, ?_, ?_, List.forall_mem_nil _⟩ <;> cbv
  · have hsymbols : (numbersFirst "x").ruleSets.map (·.1) ++ (numbersLast "y").ruleSets.map (·.1) =
        [⟨"f"⟩, ⟨"f"⟩] := by cbv
    rw [hsymbols]
    simp only [List.forall_mem_cons]
    refine ⟨?_, ?_, List.forall_mem_nil _⟩ <;> cbv

/-- The term `f zero zero (x => x)`. -/
def diagonalTerm (x : String) : Term :=
  (Term.symb ⟨"f"⟩).apply [.symb ⟨"zero"⟩, .symb ⟨"zero"⟩, .abst x (some nat) (.bvar 0 (some x))]

/-- A module that checks the type of that term. -/
def diagonalLibrary (x : String) : Library :=
  .modules [("m", [⟨1, .check [] (diagonalTerm x) nat⟩])]

/-- Ask for that module. -/
def requireDiagonal (σ : Signature) (x : String) :
    Except Exhausted (Except LocatedError Unit × RunState) :=
  (RunState.withSignature {} σ).checkInstruction ⟨9, diagonalLibrary x, 0⟩ {} ⟨1, .require "m" none⟩

end Signature

open Signature in
/-- Signatures in another order and with other names give the same answers. -/
theorem names_cosmetic_numbers :
    (diagonalTerm "x").nameless = (diagonalTerm "z").nameless ∧
    ((numbersLast "y").nf 9 (diagonalTerm "z")).value.map Term.nameless =
      some (.symb ⟨"zero"⟩) ∧
    ∃ w v, requireDiagonal (numbersFirst "x") "x" = .ok (.ok (), w) ∧
      requireDiagonal (numbersLast "y") "z" = .ok (.ok (), v) := by
  have hterm : (diagonalTerm "x").nameless = (diagonalTerm "z").nameless := rfl
  have hfirst : (numbersFirst "x").Reachable fun _ => True := reachable_after .empty _
  have hlast : (numbersLast "y").Reachable fun _ => True := reachable_after .empty _
  obtain ⟨hreduce, -, -, -, hinstruct⟩ := names_cosmetic hfirst hlast numbers_alike 9
  refine ⟨hterm, (hreduce _ _ hterm).2.symm.trans (by cbv), ?_⟩
  have hends : ExceptRel Eq (fun p q => ExceptRel (LocatedError.Like .names) Eq p.1 q.1)
      (requireDiagonal (numbersFirst "x") "x") (requireDiagonal (numbersLast "y") "z") :=
    hinstruct ⟨9, diagonalLibrary "x", 0⟩ (diagonalLibrary "z") {} _ _ {} rfl rfl
  obtain ⟨w, hw⟩ : ∃ w, requireDiagonal (numbersFirst "x") "x" = .ok (.ok (), w) := ⟨_, by cbv⟩
  rw [hw] at hends
  generalize requireDiagonal (numbersLast "y") "z" = q at hends
  cases hends with
  | @ok _ q hq =>
      obtain ⟨r, v⟩ := q
      cases hq with
      | ok _ => exact ⟨w, v, hw, rfl⟩

end LambdaPi
