import CanonicalLR.First.Basic
import CanonicalLR.First.Nullability
import CanonicalLR.Proofs.Declarations
import CanonicalLR.Proofs.Derivations
import CanonicalLR.TerminalSet.FlowSolution

/-!
# FIRST sets are exact

In a well-formed grammar the FIRST set of a nonterminal has the terminals that begin what it
derives, no more and no fewer. It has no more, for each flow follows an expanded production, which
the grammar derives. It has no fewer: a derivation is followed backwards from the string that begins
with the terminal, and each of its steps keeps the terminal in the FIRST set of the whole string.
-/
namespace CanonicalLR

namespace FirstSets

variable {f : FirstSets}

theorem mem_leadingTerminals {expansions : List (NonterminalId × List Symbol)} {n : NonterminalId}
    {t : TerminalId} :
    t ∈ leadingTerminals expansions n ↔ ∃ ys, (n, .terminal t :: ys) ∈ expansions := by
  simp only [leadingTerminals, OrderedSet.mem_ofList, List.mem_filterMap]
  constructor
  · rintro ⟨⟨left, right⟩, member, selected⟩
    split at selected
    next left' u ys equal =>
      cases equal
      split at selected
      next same =>
        cases selected
        exact ⟨ys, same ▸ member⟩
      next => cases selected
    next => cases selected
  · rintro ⟨ys, member⟩
    exact ⟨_, member, by simp⟩

theorem mem_leadingFlows {expansions : List (NonterminalId × List Symbol)} {flow : Flow} :
    flow ∈ expansions.filterMap leadingFlow? ↔
      ∃ left n ys, (left, .nonterminal n :: ys) ∈ expansions ∧ flow = ⟨n, left, ∅, true⟩ := by
  simp only [List.mem_filterMap]
  constructor
  · rintro ⟨⟨left, right⟩, member, selected⟩
    simp only [leadingFlow?] at selected
    split at selected
    next left' n ys equal =>
      cases equal
      cases selected
      exact ⟨left, n, ys, member, rfl⟩
    next => cases selected
  · rintro ⟨left, n, ys, member, rfl⟩
    exact ⟨_, member, rfl⟩

/-- Some symbol has the terminal in its FIRST set, and those before it are nullable. -/
def Leads (f : FirstSets) : List Symbol → TerminalId → Prop
  | [], _ => False
  | x :: xs, t => t ∈ f.first x ∨ x.isIn f.nullable = true ∧ f.Leads xs t

theorem leads_append {xs ys : List Symbol} {t : TerminalId} :
    f.Leads (xs ++ ys) t ↔
      f.Leads xs t ∨ (∀ x ∈ xs, x.isIn f.nullable = true) ∧ f.Leads ys t := by
  induction xs with
  | nil => simp [Leads]
  | cons x xs ih =>
    simp only [List.cons_append, Leads, ih, List.forall_mem_cons]
    constructor
    · rintro (head | ⟨vanishes, tail | ⟨all_vanish, later⟩⟩)
      · exact .inl (.inl head)
      · exact .inl (.inr ⟨vanishes, tail⟩)
      · exact .inr ⟨⟨vanishes, all_vanish⟩, later⟩
    · rintro ((head | ⟨vanishes, tail⟩) | ⟨⟨vanishes, all_vanish⟩, later⟩)
      · exact .inl head
      · exact .inr ⟨vanishes, .inl tail⟩
      · exact .inr ⟨vanishes, .inr ⟨all_vanish, later⟩⟩

theorem mem_first_terminal {t u : TerminalId} : t ∈ f.first (.terminal u) ↔ t = u := by
  simp [first]

theorem mem_first_nonterminal {n : NonterminalId} {t : TerminalId} :
    t ∈ f.first (.nonterminal n) ↔ t ∈ Flow.setOf f.sets n ∨ t = .epsilon ∧ n ∈ f.nullable := by
  simp only [first, isNullable, decide_eq_true_eq]
  split
  next nullable => simp [nullable, or_comm]
  next not_nullable => simp [not_nullable]

/-- If no nonterminal's own set has the marker for the empty string, FIRST sets have it for what is
nullable. -/
theorem epsilon_mem_first (clean : ∀ n, .epsilon ∉ Flow.setOf f.sets n) {x : Symbol}
    (marked : x ≠ .terminal .epsilon) : .epsilon ∈ f.first x ↔ x.isIn f.nullable = true := by
  cases x with
  | terminal t =>
    have other : t ≠ .epsilon := fun equal => marked (congrArg _ equal)
    simp [mem_first_terminal, other.symm]
  | nonterminal n => simp [mem_first_nonterminal, clean n]

theorem epsilon_mem_firstOf_iff_isIn (clean : ∀ n, .epsilon ∉ Flow.setOf f.sets n)
    {xs : List Symbol} (marked : .terminal .epsilon ∉ xs) :
    .epsilon ∈ f.firstOf xs ↔ ∀ x ∈ xs, x.isIn f.nullable = true := by
  induction xs with
  | nil => simp [firstOf]
  | cons x xs ih =>
    have xs_marked := List.not_mem_of_not_mem_cons marked
    have head := epsilon_mem_first clean (x := x) (List.ne_of_not_mem_cons marked).symm
    simp only [firstOf, OrderedSet.contains_iff, List.forall_mem_cons]
    split
    next vanishes => simp [ih xs_marked, head.mp vanishes]
    next stays =>
      have not_nullable := mt head.mpr stays
      simp [stays, not_nullable]

theorem mem_firstOf_iff_leads (clean : ∀ n, .epsilon ∉ Flow.setOf f.sets n) {xs : List Symbol}
    (marked : .terminal .epsilon ∉ xs) {t : TerminalId} (proper : t ≠ .epsilon) :
    t ∈ f.firstOf xs ↔ f.Leads xs t := by
  induction xs with
  | nil => simp [firstOf, Leads, proper]
  | cons x xs ih =>
    have xs_marked := List.not_mem_of_not_mem_cons marked
    have head := epsilon_mem_first clean (x := x) (List.ne_of_not_mem_cons marked).symm
    simp only [firstOf, OrderedSet.contains_iff, Leads]
    split
    next vanishes => simp [ih xs_marked, head.mp vanishes, proper]
    next stays =>
      have not_nullable := mt head.mpr stays
      simp [not_nullable]

theorem mem_lookaheads_iff {xs : List Symbol} {a t : TerminalId} :
    t ∈ f.lookaheads xs a ↔
      t ≠ .epsilon ∧ t ∈ f.firstOf xs ∨ .epsilon ∈ f.firstOf xs ∧ t = a := by
  simp only [lookaheads, OrderedSet.contains_iff]
  split
  next vanishes => simp [vanishes, or_comm, and_comm]
  next stays =>
    simp only [stays, false_and, or_false]
    refine ⟨fun member => ⟨?_, member⟩, And.right⟩
    rintro rfl
    exact stays member

end FirstSets

namespace Grammar

variable {g : Grammar}

/-- No rule mentions the marker for the empty string. -/
theorem WellFormed.epsilon_not_mem (wf : g.WellFormed) {r : Rule} (rule : r ∈ g.rules) :
    .terminal .epsilon ∉ r.right :=
  fun member => ((wf.rules_known r rule).right _ member).2.1 rfl

theorem WellFormed.epsilon_not_mem_of_derives (wf : g.WellFormed) {u v : List Symbol}
    (derivation : Derives g.rules u v) (marked : .terminal .epsilon ∉ u) :
    .terminal .epsilon ∉ v := by
  intro member
  rcases derivation.symbol_mem member with given | ⟨r, rule, mentioned⟩
  · exact marked given
  · exact wf.epsilon_not_mem rule mentioned

theorem derives_nil_iff_isIn {xs : List Symbol} :
    Derives g.rules xs [] ↔ ∀ x ∈ xs, x.isIn g.nullable = true :=
  ⟨g.isIn_nullable_of_derives_nil,
    g.derives_nil_of_isIn fun _ member => g.derives_nil_of_mem_nullable member⟩

/-- The grammar derives its expanded productions. -/
theorem derives_of_mem_expansions {n : NonterminalId} {ys : List Symbol}
    (member : (n, ys) ∈ g.expansions g.nullable) : Derives g.rules [.nonterminal n] ys := by
  obtain ⟨r, rule, rfl, struck, right, vanish⟩ := mem_expansions.mp member
  have vanishes := derives_nil_iff_isIn.mpr vanish
  have derived : Derives g.rules r.right ys := by
    rw [right]
    exact vanishes.append (.refl ys)
  exact (Derives.of_rule rule).trans derived

/-- No FIRST set has too many terminals. -/
theorem begins_of_mem_first (g : Grammar) :
    ∀ n t, t ∈ Flow.setOf (FirstSets.ofGrammar g).sets n → Begins g.rules [.nonterminal n] t := by
  apply Flow.solve_induction
  · intro n t member
    simp only [Flow.setOf, List.getD_eq_getElem?_getD, List.getElem?_map] at member
    by_cases known : n < g.nonterminals.length
    · rw [List.getElem?_range known] at member
      obtain ⟨ys, expanded⟩ := FirstSets.mem_leadingTerminals.mp member
      exact ⟨ys, derives_of_mem_expansions expanded⟩
    · -- There is no set for a nonterminal that the grammar lacks.
      rw [List.getElem?_eq_none (by simpa using known)] at member
      exact absurd member (OrderedSet.not_mem_empty t)
  · intro flow member u _ t emitted
    obtain ⟨left, n, ys, _, rfl⟩ := FirstSets.mem_leadingFlows.mp member
    exact absurd emitted (OrderedSet.not_mem_empty t)
  · intro flow member _ t begins
    obtain ⟨left, n, ys, expanded, rfl⟩ := FirstSets.mem_leadingFlows.mp member
    exact Begins.of_derives (derives_of_mem_expansions expanded)
      (begins_append (x := [.nonterminal n]).mpr (.inl begins))

theorem WellFormed.epsilon_not_mem_sets (wf : g.WellFormed) (n : NonterminalId) :
    .epsilon ∉ Flow.setOf (FirstSets.ofGrammar g).sets n := by
  intro member
  obtain ⟨rest, derivation⟩ := g.begins_of_mem_first n _ member
  exact wf.epsilon_not_mem_of_derives derivation (by simp) (by simp)

/-- The sets satisfy what the expanded productions demand. -/
theorem mem_first_of_expansion {n m : NonterminalId} {ys : List Symbol} {t : TerminalId}
    (known : n < g.nonterminals.length)
    (expanded : (n, .nonterminal m :: ys) ∈ g.expansions g.nullable)
    (member : t ∈ Flow.setOf (FirstSets.ofGrammar g).sets m) :
    t ∈ Flow.setOf (FirstSets.ofGrammar g).sets n := by
  have flow := FirstSets.mem_leadingFlows.mpr ⟨n, m, ys, expanded, rfl⟩
  refine Flow.solution_solve _ _ _ flow ?_ t ?_
  · simpa using known
  · exact Flow.mem_delivers.mpr ⟨⟨t, member⟩, .inr ⟨rfl, member⟩⟩

theorem mem_first_of_leading_terminal {n : NonterminalId} {ys : List Symbol} {t : TerminalId}
    (known : n < g.nonterminals.length)
    (expanded : (n, .terminal t :: ys) ∈ g.expansions g.nullable) :
    t ∈ Flow.setOf (FirstSets.ofGrammar g).sets n := by
  refine Flow.below_solve _ _ n t ?_
  rw [Flow.setOf_eq_getElem (by simpa using known), List.getElem_map, List.getElem_range]
  exact FirstSets.mem_leadingTerminals.mpr ⟨ys, expanded⟩

/-- What leads a part of a right side, all before it being nullable, is in the set of the left
side. -/
theorem WellFormed.mem_first_of_leads (wf : g.WellFormed) {r : Rule} (rule : r ∈ g.rules)
    {struck ys : List Symbol} {t : TerminalId} (proper : t ≠ .epsilon)
    (right : r.right = struck ++ ys) (vanish : ∀ x ∈ struck, x.isIn g.nullable = true)
    (leads : (FirstSets.ofGrammar g).Leads ys t) :
    t ∈ Flow.setOf (FirstSets.ofGrammar g).sets r.left := by
  -- The part that has been struck off grows by each symbol that only leads by vanishing.
  induction ys generalizing struck with
  | nil => exact absurd leads id
  | cons y ys ih =>
    have known := (wf.rules_known r rule).left
    have expanded : (r.left, y :: ys) ∈ g.expansions g.nullable :=
      mem_expansions.mpr ⟨r, rule, rfl, struck, right, vanish⟩
    rcases leads with head | ⟨vanishes, tail⟩
    · cases y with
      | terminal u =>
        obtain rfl := FirstSets.mem_first_terminal.mp head
        exact mem_first_of_leading_terminal known expanded
      | nonterminal m =>
        rcases FirstSets.mem_first_nonterminal.mp head with member | ⟨marker, _⟩
        · exact mem_first_of_expansion known expanded member
        · exact absurd marker proper
    · have longer : r.right = (struck ++ [y]) ++ ys := by simpa using right
      refine ih longer (fun x member => ?_) tail
      rcases List.mem_append.mp member with old | last
      · exact vanish x old
      · exact List.mem_singleton.mp last ▸ vanishes

/-- Going back a step of a derivation keeps a terminal in front. -/
theorem WellFormed.leads_of_yields (wf : g.WellFormed) {u v : List Symbol} {t : TerminalId}
    (proper : t ≠ .epsilon) (step : Yields g.rules u v)
    (leads : (FirstSets.ofGrammar g).Leads v t) : (FirstSets.ofGrammar g).Leads u t := by
  -- The terminal comes from before the right side, from the right side, or from after it.
  obtain @⟨r, rule, before, after⟩ := step
  rw [List.append_assoc] at leads
  rw [FirstSets.leads_append] at leads ⊢
  rcases leads with in_before | ⟨before_vanishes, later⟩
  · exact .inl in_before
  · refine .inr ⟨before_vanishes, ?_⟩
    rcases FirstSets.leads_append.mp later with in_right | ⟨right_vanishes, in_after⟩
    · have member := wf.mem_first_of_leads rule proper (List.nil_append _).symm (by simp) in_right
      exact .inl (FirstSets.mem_first_nonterminal.mpr (.inl member))
    · have vanishes := (Derives.of_rule rule).trans (derives_nil_iff_isIn.mpr right_vanishes)
      exact .inr ⟨derives_nil_iff_isIn.mp vanishes _ (by simp), in_after⟩

theorem WellFormed.leads_iff_begins (wf : g.WellFormed) {xs : List Symbol} {t : TerminalId}
    (proper : t ≠ .epsilon) : (FirstSets.ofGrammar g).Leads xs t ↔ Begins g.rules xs t := by
  constructor
  · intro leads
    induction xs with
    | nil => exact absurd leads id
    | cons x xs ih =>
      rw [← List.singleton_append, begins_append]
      rcases leads with head | ⟨vanishes, tail⟩
      · refine .inl ?_
        cases x with
        | terminal u => exact begins_terminal.mpr (FirstSets.mem_first_terminal.mp head)
        | nonterminal n =>
          rcases FirstSets.mem_first_nonterminal.mp head with member | ⟨marker, _⟩
          · exact g.begins_of_mem_first n t member
          · exact absurd marker proper
      · have all_vanish : ∀ y ∈ [x], y.isIn g.nullable = true := by
          intro y member
          exact List.mem_singleton.mp member ▸ vanishes
        exact .inr ⟨derives_nil_iff_isIn.mpr all_vanish, ih tail⟩
  · -- The terminal leads the last string of a derivation, and so each one before it.
    rintro ⟨rest, derivation⟩
    induction derivation using Relation.ReflTransGen.head_induction_on with
    | refl => exact .inl (FirstSets.mem_first_terminal.mpr rfl)
    | head step _ ih => exact wf.leads_of_yields proper step ih

/-! ### FIRST sets of strings -/

theorem WellFormed.mem_firstOf (wf : g.WellFormed) {xs : List Symbol}
    (marked : .terminal .epsilon ∉ xs) {t : TerminalId} (proper : t ≠ .epsilon) :
    t ∈ (FirstSets.ofGrammar g).firstOf xs ↔ Begins g.rules xs t := by
  rw [FirstSets.mem_firstOf_iff_leads wf.epsilon_not_mem_sets marked proper,
    wf.leads_iff_begins proper]

theorem WellFormed.epsilon_mem_firstOf (wf : g.WellFormed) {xs : List Symbol}
    (marked : .terminal .epsilon ∉ xs) :
    .epsilon ∈ (FirstSets.ofGrammar g).firstOf xs ↔ Derives g.rules xs [] := by
  rw [FirstSets.epsilon_mem_firstOf_iff_isIn wf.epsilon_not_mem_sets marked]
  exact derives_nil_iff_isIn.symm

/-- The lookaheads of a string are the terminals that begin what it derives with the given terminal
behind it. -/
theorem WellFormed.mem_lookaheads (wf : g.WellFormed) {xs : List Symbol}
    (marked : .terminal .epsilon ∉ xs) {a t : TerminalId} :
    t ∈ (FirstSets.ofGrammar g).lookaheads xs a ↔ Begins g.rules (xs ++ [.terminal a]) t := by
  rw [FirstSets.mem_lookaheads_iff, wf.epsilon_mem_firstOf marked, begins_append, begins_terminal]
  refine or_congr_left ?_
  constructor
  · rintro ⟨proper, member⟩
    exact (wf.mem_firstOf marked proper).mp member
  · rintro ⟨rest, derivation⟩
    -- The marker cannot be what a derived string begins with.
    have proper : t ≠ .epsilon := by
      rintro rfl
      exact wf.epsilon_not_mem_of_derives derivation marked (by simp)
    exact ⟨proper, (wf.mem_firstOf marked proper).mpr ⟨rest, derivation⟩⟩

end Grammar

end CanonicalLR
