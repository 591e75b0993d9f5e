import LambdaPi.Proofs.Spines
import LambdaPi.Rules.Rule

/-!
# Rules with closed sides

The rules that a signature is given come from two terms that were accepted as the sides of a rule,
or unfold a closed definition (`Rule.Admissible`). Which sides are accepted is
`Rule.ofSides_ok_iff`. What later arguments need of them is that both sides are closed and that a
meta-variable of the left-hand side has one number of arguments, wherever it occurs
(`Rule.Regular`).
-/

namespace LambdaPi

/-! ## Errors -/

theorem bind_eq_ok {ε α β : Type} {x : Except ε α} {f : α → Except ε β} {b : β}
    (h : (x >>= f) = .ok b) : ∃ a, x = .ok a ∧ f a = .ok b := by
  cases x with
  | error e => cases h
  | ok a => exact ⟨a, rfl, h⟩

theorem forM_ok {ε α : Type} {f : α → Except ε Unit} {l : List α} (h : l.forM f = .ok ()) :
    ∀ a ∈ l, f a = .ok () := by
  induction l with
  | nil => exact nofun
  | cons a l ih =>
      obtain ⟨⟨⟩, ha, hl⟩ := bind_eq_ok h
      intro b hb
      rcases List.mem_cons.mp hb with rfl | hb
      · exact ha
      · exact ih hl b hb

theorem forM_of_forall {ε α : Type} {f : α → Except ε Unit} {l : List α}
    (h : ∀ a ∈ l, f a = .ok ()) : l.forM f = .ok () := by
  induction l with
  | nil => rfl
  | cons a l ih =>
      obtain ⟨ha, hl⟩ := List.forall_mem_cons.mp h
      show (f a >>= fun _ => l.forM f) = .ok ()
      rw [ha]
      exact ih hl

/-! ## Numbers of arguments -/

namespace MetaArities

theorem note_lookup {known known' : MetaArities} {m : Option MetaName} {n : Nat}
    (h : known.note (m, n) = .ok known') :
    (∀ X k, known.lookup X = some k → known'.lookup X = some k)
      ∧ ∀ X, m = some X → known'.lookup X = some n := by
  cases m with
  | none =>
      obtain rfl := Except.ok.inj h
      exact ⟨fun X k hX => hX, nofun⟩
  | some Y =>
      simp only [note] at h
      split at h
      · next hnone =>
        obtain rfl := Except.ok.inj h
        constructor
        · intro X k hX
          simp [List.lookup_append, hX]
        · intro X hX
          obtain rfl := Option.some.inj hX
          simp [List.lookup_append, hnone]
      · next k hk =>
        split at h
        · next hkn =>
          obtain rfl := Except.ok.inj h
          refine ⟨fun X k hX => hX, fun X hX => ?_⟩
          obtain rfl := Option.some.inj hX
          rw [hk, hkn]
        · cases h

/-- In the end every named meta-variable is known with the number of arguments of each of its
occurrences. -/
theorem foldlM_note_lookup {occurrences : List (Option MetaName × Nat)}
    {known known' : MetaArities} (h : occurrences.foldlM note known = .ok known') :
    (∀ X k, known.lookup X = some k → known'.lookup X = some k)
      ∧ ∀ X n, (some X, n) ∈ occurrences → known'.lookup X = some n := by
  induction occurrences generalizing known with
  | nil =>
      obtain rfl := Except.ok.inj h
      exact ⟨fun X k hX => hX, nofun⟩
  | cons occurrence rest ih =>
      obtain ⟨m, n⟩ := occurrence
      rw [List.foldlM_cons] at h
      obtain ⟨next, hfirst, hrest⟩ := bind_eq_ok h
      obtain ⟨hold, hnew⟩ := note_lookup hfirst
      obtain ⟨hkeep, hmem⟩ := ih hrest
      refine ⟨fun X k hX => hkeep X k (hold X k hX), fun X k hX => ?_⟩
      rcases List.mem_cons.mp hX with heq | hX
      · obtain ⟨rfl, rfl⟩ := Prod.mk.inj heq
        exact hkeep X k (hnew X rfl)
      · exact hmem X k hX

variable {known known' : MetaArities} {occurrences : List (Option MetaName × Nat)} {X : MetaName}
  {n : Nat}

/-- What is known after an occurrence was known before, or is this occurrence. -/
theorem eq_of_note {occurrence : Option MetaName × Nat} (h : known.note occurrence = .ok known')
    (hX : known'.lookup X = some n) : known.lookup X = some n ∨ (some X, n) = occurrence := by
  obtain ⟨m, k⟩ := occurrence
  cases m with
  | none =>
      obtain rfl := Except.ok.inj h
      exact Or.inl hX
  | some Y =>
      simp only [note] at h
      split at h
      · obtain rfl := Except.ok.inj h
        rw [List.lookup_append] at hX
        rcases Option.or_eq_some_iff.mp hX with hold | ⟨-, hnew⟩
        · exact Or.inl hold
        · obtain ⟨l, l', hsplit, -⟩ := List.lookup_eq_some_iff.mp hnew
          have hpair : (X, n) ∈ [(Y, k)] := hsplit ▸ by simp
          obtain ⟨rfl, rfl⟩ := Prod.mk.inj (List.mem_singleton.mp hpair)
          exact Or.inr rfl
      · split at h
        · obtain rfl := Except.ok.inj h
          exact Or.inl hX
        · cases h

/-- Only meta-variables that occur are known in the end. -/
theorem mem_of_foldlM_note (h : occurrences.foldlM note known = .ok known')
    (hX : known'.lookup X = some n) : known.lookup X = some n ∨ (some X, n) ∈ occurrences := by
  induction occurrences generalizing known with
  | nil =>
      obtain rfl := Except.ok.inj h
      exact Or.inl hX
  | cons occurrence rest ih =>
      rw [List.foldlM_cons] at h
      obtain ⟨next, hfirst, hrest⟩ := bind_eq_ok h
      rcases ih hrest with hnext | hmem
      · rcases eq_of_note hfirst hnext with hold | heq
        · exact Or.inl hold
        · exact Or.inr (heq ▸ List.mem_cons_self ..)
      · exact Or.inr (List.mem_cons_of_mem _ hmem)

/-- Occurrences are taken note of as long as none contradicts what is known or another one. -/
theorem exists_foldlM_note
    (h : ∀ X m n, (some X, m) ∈ occurrences →
      known.lookup X = some n ∨ (some X, n) ∈ occurrences → m = n) :
    ∃ known', occurrences.foldlM note known = .ok known' := by
  induction occurrences generalizing known with
  | nil => exact ⟨known, rfl⟩
  | cons occurrence rest ih =>
      obtain ⟨next, hnext⟩ : ∃ next, known.note occurrence = .ok next := by
        obtain ⟨m, k⟩ := occurrence
        cases m with
        | none => exact ⟨known, rfl⟩
        | some Y =>
            simp only [note]
            split
            · exact ⟨_, rfl⟩
            · next j hj =>
              rw [if_pos (h Y k j (List.mem_cons_self ..) (Or.inl hj)).symm]
              exact ⟨known, rfl⟩
      have hconsistent : ∀ X m n, (some X, m) ∈ rest →
          next.lookup X = some n ∨ (some X, n) ∈ rest → m = n := by
        intro X m n hm hn
        refine h X m n (List.mem_cons_of_mem _ hm) ?_
        rcases hn with hn | hn
        · rcases eq_of_note hnext hn with hold | heq
          · exact Or.inl hold
          · exact Or.inr (heq ▸ List.mem_cons_self ..)
        · exact Or.inr (List.mem_cons_of_mem _ hn)
      obtain ⟨known', hknown'⟩ := ih hconsistent
      exact ⟨known', by rw [List.foldlM_cons, hnext]; exact hknown'⟩

/-- Each named meta-variable has as many arguments at one occurrence as at any other. -/
def Consistent (occurrences : List (Option MetaName × Nat)) : Prop :=
  ∀ X m n, (some X, m) ∈ occurrences → (some X, n) ∈ occurrences → m = n

/-- There are no jokers on the right, and each meta-variable there has a name and occurs with as
many arguments on the left. -/
def Cover (occurrences : List (Option MetaName × Nat)) (rhs : Term) : Prop :=
  ∀ u ∈ rhs.subterms, u ≠ .joker
    ∧ ∀ m args, u = .mvar m args → ∃ X, m = some X ∧ (some X, args.length) ∈ occurrences

theorem ofTerm_ok_iff {t : Term} :
    (∃ known, ofTerm t = .ok known) ↔ Consistent t.metaVariables := by
  constructor
  · rintro ⟨known, h⟩ X m n hm hn
    have hknown := (foldlM_note_lookup h).2
    exact Option.some.inj ((hknown X m hm).symm.trans (hknown X n hn))
  · intro h
    refine exists_foldlM_note fun X m n hm hn => h X m n hm (hn.resolve_left ?_)
    exact Option.some_ne_none n ∘ Eq.symm

theorem lookup_ofTerm_iff {t : Term} (h : ofTerm t = .ok known) :
    known.lookup X = some n ↔ (some X, n) ∈ t.metaVariables := by
  constructor
  · intro hX
    exact (mem_of_foldlM_note h hX).resolve_left (Option.some_ne_none n ∘ Eq.symm)
  · exact (foldlM_note_lookup h).2 X n

theorem allows_ok_iff {u : Term} :
    known.allows u = .ok () ↔ u ≠ .joker
      ∧ ∀ m args, u = .mvar m args → ∃ X, m = some X ∧ known.lookup X = some args.length := by
  cases u with
  | mvar m args =>
      cases m with
      | none => simp [allows]
      | some X =>
          constructor
          · rintro h
            refine ⟨Term.noConfusion, ?_⟩
            rintro _ _ ⟨rfl, rfl⟩
            simp only [allows] at h
            split at h
            · cases h
            · next k hk =>
              split at h
              · next hlen => exact ⟨X, rfl, hlen ▸ hk⟩
              · cases h
          · rintro ⟨-, h⟩
            obtain ⟨_, ⟨⟩, hX⟩ := h (some X) args rfl
            simp only [allows, hX, if_pos]
  | _ => simp [allows]

end MetaArities

/-! ## Rules -/

namespace Rule

/-- Made of two sides that were accepted, or the unfolding of a closed definition. -/
def Admissible (r : Rule) : Prop :=
  (∃ name lhs rhs, Rule.ofSides name lhs rhs = .ok r)
    ∨ ∃ name head body, body.closed = true ∧ r = Rule.ofDefinition name head body

/-- Both sides are closed, and a meta-variable of the left-hand side has as many arguments at one
occurrence as at any other, on either side. -/
structure Regular (r : Rule) : Prop where
  lhs_closed : r.lhs.closed = true
  rhs_closed : r.rhs.closed = true
  lhs_arity : ∀ {X as bs}, .mvar (some X) as ∈ r.lhs.subterms →
    .mvar (some X) bs ∈ r.lhs.subterms → as.length = bs.length
  rhs_arity : ∀ {X as bs}, .mvar (some X) as ∈ r.lhs.subterms →
    .mvar (some X) bs ∈ r.rhs.subterms → as.length = bs.length

theorem closedSide_ok_iff {side : Term} : closedSide side = .ok () ↔ side.closed = true := by
  unfold closedSide
  split <;> simp_all

/-- Which two terms are the sides of a rule. -/
theorem ofSides_ok_iff {name : String} {lhs rhs : Term} {rule : Rule} :
    Rule.ofSides name lhs rhs = .ok rule
      ↔ lhs.unapply = (.symb rule.head, rule.args) ∧ rule.name = name ∧ rule.rhs = rhs
        ∧ lhs.closed = true ∧ rhs.closed = true ∧ MetaArities.Consistent lhs.metaVariables
        ∧ MetaArities.Cover lhs.metaVariables rhs := by
  constructor
  · intro h
    unfold ofSides at h
    split at h
    · next head args hlhs =>
      obtain ⟨⟨⟩, hl, h⟩ := bind_eq_ok h
      obtain ⟨⟨⟩, hr, h⟩ := bind_eq_ok h
      obtain ⟨known, hknown, h⟩ := bind_eq_ok h
      obtain ⟨⟨⟩, hallowed, h⟩ := bind_eq_ok h
      obtain rfl := Except.ok.inj h
      refine ⟨hlhs, rfl, rfl, closedSide_ok_iff.mp hl, closedSide_ok_iff.mp hr,
        MetaArities.ofTerm_ok_iff.mp ⟨known, hknown⟩, fun u hu => ?_⟩
      have hu := MetaArities.allows_ok_iff.mp (forM_ok hallowed u hu)
      simpa only [MetaArities.lookup_ofTerm_iff hknown] using hu
    · cases h
  · obtain ⟨name', head, args, rhs'⟩ := rule
    rintro ⟨hlhs, rfl, rfl, hl, hr, hconsistent, hrhs⟩
    obtain ⟨known, hknown⟩ := MetaArities.ofTerm_ok_iff.mpr hconsistent
    have hallowed : rhs'.subterms.forM known.allows = .ok () := forM_of_forall fun u hu => by
      rw [MetaArities.allows_ok_iff]
      simpa only [MetaArities.lookup_ofTerm_iff hknown] using hrhs u hu
    simp only [ofSides, hlhs, closedSide_ok_iff.mpr hl, closedSide_ok_iff.mpr hr, hknown]
    show (rhs'.subterms.forM known.allows >>= fun _ => _) = _
    rw [hallowed]
    rfl

theorem exists_ofSides_iff {name : String} {lhs rhs : Term} :
    (∃ rule, Rule.ofSides name lhs rhs = .ok rule)
      ↔ (∃ s, lhs.unapply.1 = .symb s) ∧ lhs.closed = true ∧ rhs.closed = true
        ∧ MetaArities.Consistent lhs.metaVariables ∧ MetaArities.Cover lhs.metaVariables rhs := by
  constructor
  · rintro ⟨rule, h⟩
    obtain ⟨hlhs, -, -, hrest⟩ := ofSides_ok_iff.mp h
    exact ⟨⟨rule.head, by rw [hlhs]⟩, hrest⟩
  · rintro ⟨⟨s, hs⟩, hrest⟩
    refine ⟨⟨name, s, lhs.unapply.2, rhs⟩, ofSides_ok_iff.mpr ⟨?_, rfl, rfl, hrest⟩⟩
    rw [← hs]

theorem regular_of_ofSides {name : String} {lhs rhs : Term} {r : Rule}
    (h : Rule.ofSides name lhs rhs = .ok r) : r.Regular := by
  obtain ⟨hlhs, -, rfl, hl, hr, hconsistent, hcover⟩ := ofSides_ok_iff.mp h
  have hside : r.lhs = lhs := (Term.eq_apply_of_unapply hlhs).symm
  have hmem : ∀ {X as}, .mvar (some X) as ∈ lhs.subterms →
      (some X, as.length) ∈ lhs.metaVariables :=
    fun hX => List.mem_filterMap.mpr ⟨_, hX, rfl⟩
  refine ⟨hside ▸ hl, hr, fun has hbs => ?_, fun has hbs => ?_⟩
  · rw [hside] at has hbs
    exact hconsistent _ _ _ (hmem has) (hmem hbs)
  · rw [hside] at has
    obtain ⟨_, ⟨⟩, hX⟩ := (hcover _ hbs).2 _ _ rfl
    exact hconsistent _ _ _ (hmem has) hX

theorem Admissible.regular {r : Rule} (h : r.Admissible) : r.Regular := by
  rcases h with ⟨name, lhs, rhs, h⟩ | ⟨name, head, body, hbody, rfl⟩
  · exact regular_of_ofSides h
  · have hnone : ∀ {X as}, .mvar (some X) as ∉ (Rule.ofDefinition name head body).lhs.subterms := by
      intro X as h
      cases List.mem_singleton.mp h
    exact ⟨rfl, hbody, fun h => absurd h hnone, fun h => absurd h hnone⟩

end Rule

end LambdaPi
