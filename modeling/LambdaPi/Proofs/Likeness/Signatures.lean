import LambdaPi.Proofs.Likeness.Evaluation

/-!
# Changing signatures that are alike

What commands do to signatures is done alike to signatures that are alike. How much the signatures
have in common is left open (`Signature.Correspondence`): they may say like things about corresponding
symbols, or the whole tables may correspond, row by row (`Signature.Aligned`), so that nothing is left
out of account when the theorems of a space are looked for.

A change that is refused is refused in both signatures, and for the same reason.
-/

namespace LambdaPi

/-! ## Tables -/

/-- Corresponding symbols, in the same order, with related values. -/
def Table.Like {α β : Type} (L : Likeness) (R : α → β → Prop) : Table α → Table β → Prop :=
  List.Forall₂ fun p q => L.symbol p.1 q.1 ∧ R p.2 q.2

section

variable {α β : Type} {L : Likeness} {R : α → β → Prop} {T : Table α} {U : Table β}
  {s t : Symbol}

theorem Table.Like.find? (h : Table.Like L R T U) (hst : L.symbol s t) :
    Option.Rel R (T.find? s) (U.find? t) := by
  induction h with
  | nil => exact .none
  | @cons p q _ _ hpq _ ih =>
      obtain ⟨s', a⟩ := p
      obtain ⟨t', b⟩ := q
      rw [Table.find?, Table.find?]
      simp only [L.symbol_inj hst hpq.1]
      split
      · exact .some hpq.2
      · exact ih

theorem Table.Like.enter (h : Table.Like L R T U) (hst : L.symbol s t) {a : α} {b : β}
    (hab : R a b) : Table.Like L R (T.enter s a) (U.enter t b) := by
  induction h with
  | nil => exact .cons ⟨hst, hab⟩ .nil
  | @cons p q _ _ hpq hrest ih =>
      obtain ⟨s', a'⟩ := p
      obtain ⟨t', b'⟩ := q
      rw [Table.enter, Table.enter]
      simp only [L.symbol_inj hst hpq.1]
      split
      · exact .cons ⟨hpq.1, hab⟩ hrest
      · exact .cons hpq ih

/-- For tables that agree on what is found it is enough to look at corresponding symbols. -/
theorem Table.rel_find?_enter
    (h : ∀ {s t}, L.symbol s t → Option.Rel R (T.find? s) (U.find? t)) (hst : L.symbol s t)
    {a : α} {b : β} (hab : R a b) {s' t' : Symbol} (hst' : L.symbol s' t') :
    Option.Rel R ((T.enter s a).find? s') ((U.enter t b).find? t') := by
  have hinj := L.symbol_inj hst' hst
  by_cases hs : s' = s
  · obtain rfl := hs
    obtain rfl := hinj.1 rfl
    rw [Table.find?_enter_self, Table.find?_enter_self]
    exact .some hab
  · rw [Table.find?_enter_of_ne hs, Table.find?_enter_of_ne (mt hinj.2 hs)]
    exact h hst'

end

/-! ## Signatures -/

/-- The signatures say like things, symbol by symbol. -/
structure Signature.Aligned (L : Likeness) (σ τ : Signature) : Prop where
  entries : Table.Like L (Entry.Like L) σ.entries τ.entries
  ruleSets : Table.Like L (RuleSet.Like L) σ.ruleSets τ.ruleSets
  eta : σ.eta = τ.eta

/-- The same reason to refuse like changes. -/
inductive SignatureError.Like (L : Likeness) : SignatureError → SignatureError → Prop
  | reintroduction {s t} : L.symbol s t → Like L (.reintroduction s) (.reintroduction t)
  | undefined {s t} : L.symbol s t → Like L (.undefined s) (.undefined t)
  | unproven {s t A B} : L.symbol s t → A.Like L B → Like L (.unproven s A) (.unproven t B)
  | tree {e d} : e.Like L d → Like L (.tree e) (.tree d)

/-- Changes that are made alike or refused alike. -/
abbrev ChangeLike (L : Likeness) (S : Signature → Signature → Prop) :
    Except SignatureError Signature → Except SignatureError Signature → Prop :=
  ExceptRel (SignatureError.Like L) S

theorem treesOf_like {L : Likeness} {rules rules' : List Rule}
    (h : List.Forall₂ (Rule.Like L) rules rules') :
    List.Forall₂ (fun a b => TreeCell.Like L a.get b.get) (treesOf rules) (treesOf rules') := by
  unfold treesOf
  rw [longestArity_like h, List.forall₂_map_left_iff, List.forall₂_map_right_iff]
  exact List.forall₂_same.2 fun arity _ => treeUpTo_like h arity

theorem RuleSet.Like.addRule {L : Likeness} {r q : RuleSet} (h : r.Like L q) {rule rule' : Rule}
    (hrule : rule.Like L rule') :
    ExceptRel (TreeError.Like L) (RuleSet.Like L) (r.addRule rule) (q.addRule rule') := by
  have hrules := List.rel_append h.rules (.cons hrule .nil)
  rw [RuleSet.addRule_eq, RuleSet.addRule_eq, hrule.arity]
  refine (treeUpTo_like hrules rule'.arity).map fun _ _ _ => ?_
  exact ⟨hrules, h.constant, h.injective, treesOf_like hrules⟩

namespace Signature

/-- A relation between signatures for which they are alike, and which lasts when like things are
entered. -/
structure Correspondence (L : Likeness) (S : Signature → Signature → Prop) : Prop where
  like : ∀ {σ τ}, S σ τ → σ.Like L τ
  enterEntry : ∀ {σ τ s t e f}, S σ τ → L.symbol s t → Entry.Like L e f →
    S { σ with entries := σ.entries.enter s e } { τ with entries := τ.entries.enter t f }
  enterRuleSet : ∀ {σ τ s t r q}, S σ τ → L.symbol s t → RuleSet.Like L r q →
    S { σ with ruleSets := σ.ruleSets.enter s r } { τ with ruleSets := τ.ruleSets.enter t q }

variable {L : Likeness} {S : Signature → Signature → Prop} {σ τ : Signature} {s t : Symbol}

theorem Like.declares (h : σ.Like L τ) (hst : L.symbol s t) : σ.declares s = τ.declares t := by
  have hentry := h.entry hst
  unfold Signature.declares
  generalize σ.entry? s = e, τ.entry? t = f at hentry
  cases hentry <;> rfl

theorem Aligned.like (h : σ.Aligned L τ) : σ.Like L τ :=
  ⟨fun hst => h.entries.find? hst, fun hst => h.ruleSets.find? hst, h.eta⟩

/-- Tables that correspond row by row go on doing so. -/
theorem Correspondence.aligned (L : Likeness) : Correspondence L (Aligned L) where
  like h := h.like
  enterEntry h hst hef := ⟨h.entries.enter hst hef, h.ruleSets, h.eta⟩
  enterRuleSet h hst hrq := ⟨h.entries, h.ruleSets.enter hst hrq, h.eta⟩

/-- So do signatures that say like things, in whatever order. -/
theorem Correspondence.lookUps (L : Likeness) : Correspondence L (Signature.Like L) where
  like h := h
  enterEntry h hst hef := ⟨fun hst' => Table.rel_find?_enter h.entry hst hef hst', h.ruleSet, h.eta⟩
  enterRuleSet h hst hrq := ⟨h.entry, fun hst' => Table.rel_find?_enter h.ruleSet hst hrq hst', h.eta⟩

namespace Correspondence

variable (hS : Correspondence L S) (h : S σ τ)

include hS h

theorem declare (hst : L.symbol s t) {A B : Term} (hAB : A.Like L B) (obligation : Bool) :
    ChangeLike L S (σ.declare s A obligation) (τ.declare t B obligation) := by
  unfold Signature.declare
  rw [(hS.like h).declares hst]
  split
  · exact .error (.reintroduction hst)
  · exact .ok (hS.enterEntry h hst ⟨hAB, rfl, rfl⟩)

theorem setProven (hst : L.symbol s t) : ChangeLike L S (σ.setProven s) (τ.setProven t) := by
  have hentry := (hS.like h).entry hst
  unfold Signature.setProven
  generalize σ.entry? s = e, τ.entry? t = f at hentry
  cases hentry with
  | none => exact .error (.undefined hst)
  | some hef => exact .ok (hS.enterEntry h hst ⟨hef.type, hef.obligation, rfl⟩)

theorem declareConstant (hst : L.symbol s t) : S (σ.declareConstant s) (τ.declareConstant t) := by
  have hset := (hS.like h).ruleSet_getD hst
  exact hS.enterRuleSet h hst ⟨hset.rules, rfl, hset.injective, hset.trees⟩

theorem declareInjective (hst : L.symbol s t) :
    S (σ.declareInjective s) (τ.declareInjective t) := by
  have hset := (hS.like h).ruleSet_getD hst
  exact hS.enterRuleSet h hst ⟨hset.rules, hset.constant, rfl, hset.trees⟩

theorem addRule {rule rule' : Rule} (hrule : rule.Like L rule') :
    ChangeLike L S (σ.addRule rule) (τ.addRule rule') := by
  have hset := ((hS.like h).ruleSet_getD hrule.head).addRule hrule
  unfold Signature.addRule
  rw [(hS.like h).declares hrule.head]
  split
  · generalize ((σ.ruleSet? rule.head).getD {}).addRule rule = r,
      ((τ.ruleSet? rule'.head).getD {}).addRule rule' = q at hset
    cases hset with
    | error he => exact .error (.tree he)
    | ok hrq => exact .ok (hS.enterRuleSet h hrule.head hrq)
  · exact .error (.undefined hrule.head)

end Correspondence

end Signature

/-! ## Theorems without a proof -/

theorem Entry.Like.unproven {L : Likeness} {e f : Entry} (h : e.Like L f) :
    e.unproven = f.unproven := by
  rw [Entry.unproven, Entry.unproven, h.obligation, h.proven]

theorem smallest?_like {L : Likeness} {as bs : List Symbol} (h : List.Forall₂ L.symbol as bs) :
    Option.Rel L.symbol (Symbol.smallest? as) (Symbol.smallest? bs) := by
  induction h with
  | nil => exact .none
  | @cons a b as bs hab _ ih =>
      rw [Symbol.smallest?, Symbol.smallest?]
      generalize Symbol.smallest? as = s, Symbol.smallest? bs = t at ih
      cases ih with
      | none => exact .some hab
      | some hst =>
          dsimp only
          rw [L.symbol_before hst hab]
          split
          · exact .some hst
          · exact .some hab

namespace Signature

variable {L : Likeness} {σ τ : Signature}

/-- The declared symbols that live in one space correspond to those that live in the other. -/
def Placed (L : Likeness) (σ : Signature) (space space' : String) : Prop :=
  ∀ p ∈ σ.entries, ∀ t, L.symbol p.1 t → (p.1.space = space ↔ t.space = space')

theorem Aligned.unprovenIn (h : σ.Aligned L τ) {space space' : String}
    (hplaced : Placed L σ space space') :
    List.Forall₂ L.symbol (σ.unprovenIn space) (τ.unprovenIn space') := by
  have hentries := h.entries
  unfold Signature.unprovenIn Placed at *
  generalize σ.entries = T, τ.entries = U at *
  induction hentries with
  | nil => exact .nil
  | @cons p q _ _ hpq _ ih =>
      obtain ⟨s, e⟩ := p
      obtain ⟨t, f⟩ := q
      have hrest := ih fun p hp => hplaced p (List.mem_cons_of_mem _ hp)
      have hspace : (s.space == space) = (t.space == space') := by
        rw [Bool.eq_iff_iff, beq_iff_eq, beq_iff_eq]
        exact hplaced (s, e) (List.mem_cons_self ..) t hpq.1
      have hunproven : e.unproven = f.unproven := hpq.2.unproven
      simp only [List.filter_cons, hunproven, hspace]
      split
      · exact .cons hpq.1 hrest
      · exact hrest

theorem Aligned.allProven (h : σ.Aligned L τ) {space space' : String}
    (hplaced : Placed L σ space space') :
    ExceptRel (SignatureError.Like L) Eq (σ.allProven space) (τ.allProven space') := by
  have hsmallest := smallest?_like (h.unprovenIn hplaced)
  unfold Signature.allProven
  generalize Symbol.smallest? (σ.unprovenIn space) = s,
    Symbol.smallest? (τ.unprovenIn space') = t at hsmallest
  cases hsmallest with
  | none => exact .ok rfl
  | @some s t hst =>
      have htype := h.like.typeOf? hst
      dsimp only
      generalize σ.typeOf? s = A, τ.typeOf? t = B at htype
      cases htype with
      | none => exact .ok rfl
      | some hAB => exact .error (.unproven hst hAB)

end Signature

/-! ## Making rules -/

/-- The same reason to refuse like sides. -/
inductive RuleError.Like (L : Likeness) : RuleError → RuleError → Prop
  | notSymbolHeaded {t u} : t.Like L u → Like L (.notSymbolHeaded t) (.notSymbolHeaded u)
  | openSide {t u} : t.Like L u → Like L (.openSide t) (.openSide u)
  | unbound {t u} : t.Like L u → Like L (.unbound t) (.unbound u)
  | arityMismatch {m expected actual} :
      Like L (.arityMismatch m expected actual) (.arityMismatch m expected actual)

namespace Term

variable {L : Likeness} {t u : Term}

theorem Like.subterms (h : t.Like L u) : List.Forall₂ (Like L) t.subterms u.subterms := by
  induction t generalizing u with
  | kind | type | symb | bvar | joker =>
      cases h
      exact .cons (by constructor <;> assumption) .nil
  | appl f a ihf iha =>
      cases h with
      | appl hf ha => exact .cons (.appl hf ha) (List.rel_append (ihf hf) (iha ha))
  | prod x A B ihA ihB =>
      cases h with
      | prod hx hA hB => exact .cons (.prod hx hA hB) (List.rel_append (ihA hA) (ihB hB))
  | abst x A t ihA iht =>
      cases h with
      | @abst _ _ _ B _ _ hx hA ht =>
          refine .cons (.abst hx hA ht) (List.rel_append ?_ (iht ht))
          cases hA with
          | none => exact .nil
          | some hA => exact ihA _ rfl hA
  | mvar m args ih =>
      cases h with
      | @mvar _ _ args' hargs =>
          refine .cons (.mvar hargs) ?_
          induction hargs with
          | nil => exact .nil
          | cons ha _ ihargs =>
              refine List.rel_append (ih _ (List.mem_cons_self ..) ha) (ihargs ?_)
              exact fun a ha => ih a (List.mem_cons_of_mem _ ha)

theorem Like.metaVariables (h : t.Like L u) : t.metaVariables = u.metaVariables := by
  rw [← List.forall₂_eq_eq_eq]
  refine List.rel_filterMap ?_ h.subterms
  intro a b hab
  cases hab with
  | mvar hargs =>
      dsimp only
      rw [hargs.length_eq]
      exact .some rfl
  | _ => exact .none

theorem Like.closed (h : t.Like L u) : t.closed = u.closed :=
  h.allFree _ 0

end Term

namespace Rule

variable {L : Likeness}

theorem closedSide_like {t u : Term} (h : t.Like L u) :
    ExceptRel (RuleError.Like L) Eq (closedSide t) (closedSide u) := by
  unfold closedSide
  rw [h.closed]
  split
  · exact .ok rfl
  · exact .error (.openSide h)

theorem ofTerm_like {t u : Term} (h : t.Like L u) :
    ExceptRel (RuleError.Like L) Eq (MetaArities.ofTerm t) (MetaArities.ofTerm u) := by
  unfold MetaArities.ofTerm
  rw [h.metaVariables]
  generalize u.metaVariables = occurrences
  have hfold : ∀ known : MetaArities, ExceptRel (RuleError.Like L) Eq
      (occurrences.foldlM MetaArities.note known) (occurrences.foldlM MetaArities.note known) := by
    induction occurrences with
    | nil => exact fun known => .ok rfl
    | cons occurrence rest ih =>
        intro known
        rw [List.foldlM_cons]
        have hnote : ExceptRel (RuleError.Like L) Eq (known.note occurrence)
            (known.note occurrence) := by
          unfold MetaArities.note
          split
          · exact .ok rfl
          · split
            · exact .ok rfl
            · split
              · exact .ok rfl
              · exact .error .arityMismatch
        refine hnote.bind ?_
        rintro known _ rfl
        exact ih known
  exact hfold []

theorem allows_like (known : MetaArities) {t u : Term} (h : t.Like L u) :
    ExceptRel (RuleError.Like L) Eq (known.allows t) (known.allows u) := by
  cases h with
  | @mvar m as bs hargs =>
      cases m with
      | none => exact .error (.unbound (.mvar hargs))
      | some X =>
          unfold MetaArities.allows
          dsimp only
          rw [hargs.length_eq]
          split
          · exact .error (.unbound (.mvar hargs))
          · split
            · exact .ok rfl
            · exact .error .arityMismatch
  | joker => exact .error (.unbound .joker)
  | _ => exact .ok rfl

theorem ofSides_like {name name' : String} (hname : L.label name name') {lhs lhs' rhs rhs' : Term}
    (hlhs : lhs.Like L lhs') (hrhs : rhs.Like L rhs') :
    ExceptRel (RuleError.Like L) (Rule.Like L) (ofSides name lhs rhs)
      (ofSides name' lhs' rhs') := by
  obtain ⟨hhead, hargs⟩ := hlhs.unapply
  have hrefused := RuleError.Like.notSymbolHeaded hlhs
  unfold ofSides
  generalize lhs.unapply = p, lhs'.unapply = q at hhead hargs
  obtain ⟨f, as⟩ := p
  obtain ⟨g, bs⟩ := q
  dsimp only at hhead hargs
  cases hhead with
  | symb hs =>
      refine (closedSide_like hlhs).bind fun _ _ _ => ?_
      refine (closedSide_like hrhs).bind fun _ _ _ => ?_
      refine (ofTerm_like hlhs).bind ?_
      rintro known _ rfl
      refine (ExceptRel.forM (hrhs.subterms.imp fun _ _ => allows_like known)).bind fun _ _ _ => ?_
      exact .ok ⟨hname, hs, hargs, hrhs⟩
  | _ => exact .error hrefused

end Rule

end LambdaPi
