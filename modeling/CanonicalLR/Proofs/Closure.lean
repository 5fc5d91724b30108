import CanonicalLR.Item.Closure
import CanonicalLR.Proofs.First

/-!
# Closures are least

The closure of an item set has the given items and those that they predict, directly or through
other predicted items, and nothing else. The lookaheads that the flows hand on are exactly those
of predicted items: a flow leads from the left side of a rule to the nonterminal in front of its
right side, which an item of that rule with its marker at the front predicts.
-/
namespace CanonicalLR

/-- What must be in a closure of the given items. -/
inductive InClosure (g : Grammar) (items : ItemSet) : Item → Prop where
  | given {i : Item} (member : i ∈ items) : InClosure g items i
  | predict {i : Item} {q : RuleId} {b : TerminalId} (closed : InClosure g items i)
      (known : q < g.rules.length) (next : i.next? g = some (.nonterminal (g.rule q).left))
      (begins : Begins g.rules (i.afterNext g ++ [.terminal i.lookahead]) b) :
      InClosure g items { rule := q, marker := 0, lookahead := b }

namespace Predictor

theorem mem_flows {g : Grammar} {flow : Flow} :
    flow ∈ (ofGrammar g).flows ↔
      ∃ r ∈ g.rules, ∃ n rest, r.right = .nonterminal n :: rest ∧
        flow = {
          source := r.left
          target := n
          emits := ((FirstSets.ofGrammar g).firstOf rest).erase .epsilon
          passes := ((FirstSets.ofGrammar g).firstOf rest).contains .epsilon } := by
  simp only [ofGrammar, List.mem_filterMap]
  constructor
  · rintro ⟨r, member, selected⟩
    simp only [flow?] at selected
    split at selected
    next n rest right =>
      cases selected
      exact ⟨r, member, n, rest, right, rfl⟩
    next => cases selected
  · rintro ⟨r, member, n, rest, right, rfl⟩
    exact ⟨r, member, by simp only [flow?, right]⟩

variable (p : Predictor)

@[simp] theorem length_predictFrom (sets : List TerminalSet) (i : Item) :
    (p.predictFrom sets i).length = sets.length := by
  simp only [predictFrom, predictOn]
  split <;> simp

theorem mem_predictFrom {sets : List TerminalSet} {i : Item} {n : NonterminalId} {t : TerminalId} :
    t ∈ Flow.setOf (p.predictFrom sets i) n ↔ t ∈ Flow.setOf sets n ∨
      n < sets.length ∧ i.next? p.grammar = some (.nonterminal n) ∧
        t ∈ p.first.lookaheads (i.afterNext p.grammar) i.lookahead := by
  simp only [predictFrom, predictOn]
  split
  next m next =>
    rw [Flow.mem_setOf_addTo, next, Option.some.injEq, Symbol.nonterminal.injEq]
    exact or_congr_right and_left_comm
  next other =>
    refine ⟨.inl, ?_⟩
    rintro (old | ⟨_, next, _⟩)
    · exact old
    · exact absurd next (other n)

theorem mem_foldl_predictFrom {items : List Item} {sets : List TerminalSet} {n : NonterminalId}
    {t : TerminalId} :
    t ∈ Flow.setOf (items.foldl p.predictFrom sets) n ↔ t ∈ Flow.setOf sets n ∨
      n < sets.length ∧ ∃ i ∈ items, i.next? p.grammar = some (.nonterminal n) ∧
        t ∈ p.first.lookaheads (i.afterNext p.grammar) i.lookahead := by
  induction items generalizing sets with
  | nil => simp
  | cons i items ih =>
    rw [List.foldl_cons, ih, mem_predictFrom, length_predictFrom, or_assoc, ← and_or_left]
    simp only [List.mem_cons, exists_eq_or_imp]

theorem length_foldl_predictFrom (items : List Item) (sets : List TerminalSet) :
    (items.foldl p.predictFrom sets).length = sets.length := by
  induction items generalizing sets with
  | nil => rfl
  | cons i items ih => rw [List.foldl_cons, ih, length_predictFrom]

theorem length_predictions (items : ItemSet) :
    (p.predictions items).length = p.grammar.nonterminals.length := by
  simp only [predictions, Flow.length_solve, length_foldl_predictFrom, List.length_replicate]

end Predictor

namespace Grammar

variable {g : Grammar}

theorem WellFormed.epsilon_not_mem_afterNext (wf : g.WellFormed) {i : Item} {x : Symbol}
    (next : i.next? g = some x) : .terminal .epsilon ∉ i.afterNext g := by
  intro member
  refine wf.epsilon_not_mem (rule_mem (Item.rule_known_of_next? next)) ?_
  exact List.mem_of_mem_drop member

/-- The symbol after a marker is one of the grammar's. -/
theorem WellFormed.knows_next (wf : g.WellFormed) {i : Item} {x : Symbol}
    (next : i.next? g = some x) : g.Knows x :=
  (wf.rules_known _ (rule_mem (Item.rule_known_of_next? next))).right x (Item.next?_mem next)

/-- A lookahead with which the rules of a nonterminal are predicted. -/
def Predicted (g : Grammar) (items : ItemSet) (n : NonterminalId) (t : TerminalId) : Prop :=
  ∃ i, InClosure g items i ∧ i.next? g = some (.nonterminal n) ∧
    Begins g.rules (i.afterNext g ++ [.terminal i.lookahead]) t

/-- A rule's item with its marker at the front is predicted with what predicts the rule's left
side. -/
theorem inClosure_of_predicted {items : ItemSet} {r : Rule} {q : RuleId} {t : TerminalId}
    (found : g.rules[q]? = some r) (predicted : g.Predicted items r.left t) :
    InClosure g items { rule := q, marker := 0, lookahead := t } := by
  obtain ⟨i, closed, next, begins⟩ := predicted
  have known := (List.getElem?_eq_some_iff.mp found).1
  exact .predict closed known (by rw [rule_of_getElem? found]; exact next) begins

/-- What the item of a rule has after its marker when some part of the right side has been read. -/
theorem next?_of_right {r : Rule} {q : RuleId} {t : TerminalId} {s : Symbol} {x y : List Symbol}
    (found : g.rules[q]? = some r) (right : r.right = x ++ s :: y) :
    let i : Item := { rule := q, marker := x.length, lookahead := t }
    i.next? g = some s ∧ i.afterNext g = y := by
  simp [Item.next?, Item.afterNext, Item.right, rule_of_getElem? found, right]

/-- Prediction is handed on from the left side of a rule to the nonterminal in front of its right
side. -/
theorem predicted_of_front {items : ItemSet} {r : Rule} {n : NonterminalId} {rest : List Symbol}
    {u t : TerminalId} (rule : r ∈ g.rules) (right : r.right = .nonterminal n :: rest)
    (predicted : g.Predicted items r.left u) (begins : Begins g.rules (rest ++ [.terminal u]) t) :
    g.Predicted items n t := by
  obtain ⟨q, found⟩ := List.getElem?_of_mem rule
  obtain ⟨next, after⟩ := next?_of_right (t := u) (x := []) found right
  exact ⟨_, inClosure_of_predicted found predicted, next, after.symm ▸ begins⟩

theorem WellFormed.epsilon_not_mem_rest (wf : g.WellFormed) {r : Rule} {x : Symbol}
    {rest : List Symbol} (rule : r ∈ g.rules) (right : r.right = x :: rest) :
    .terminal .epsilon ∉ rest :=
  fun member => wf.epsilon_not_mem rule (right ▸ List.mem_cons_of_mem x member)

/-- The flows hand on nothing but predictions. -/
theorem WellFormed.predicted_of_mem (wf : g.WellFormed) (items : ItemSet) :
    ∀ n t, t ∈ Flow.setOf ((Predictor.ofGrammar g).predictions items) n →
      g.Predicted items n t := by
  apply Flow.solve_induction
  · -- In the beginning the sets have what the given items predict.
    intro n t member
    rcases (Predictor.mem_foldl_predictFrom _).mp member with none_in | ⟨_, i, given, next, looked⟩
    · simp only [Flow.setOf, List.getD_eq_getElem?_getD, List.getElem?_replicate] at none_in
      split at none_in <;> exact absurd none_in (OrderedSet.not_mem_empty t)
    · have marked := wf.epsilon_not_mem_afterNext next
      exact ⟨i, .given given, next, (wf.mem_lookaheads marked).mp looked⟩
  · -- A flow emits what begins the rest of a right side.
    intro flow member u predicted t emitted
    obtain ⟨r, rule, n, rest, right, rfl⟩ := Predictor.mem_flows.mp member
    obtain ⟨in_first, proper⟩ := OrderedSet.mem_erase.mp emitted
    have begins := (wf.mem_firstOf (wf.epsilon_not_mem_rest rule right) proper).mp in_first
    exact predicted_of_front rule right predicted (begins_append.mpr (.inl begins))
  · -- It passes on the lookaheads of the left side if that rest may be empty.
    intro flow member passes t predicted
    obtain ⟨r, rule, n, rest, right, rfl⟩ := Predictor.mem_flows.mp member
    have marker := OrderedSet.contains_iff.mp passes
    have vanishes := (wf.epsilon_mem_firstOf (wf.epsilon_not_mem_rest rule right)).mp marker
    exact predicted_of_front rule right predicted
      (begins_append.mpr (.inr ⟨vanishes, begins_terminal.mpr rfl⟩))

/-- The given items start the flows off with what they predict. -/
theorem WellFormed.mem_predictions_of_given (wf : g.WellFormed) {items : ItemSet} {i : Item}
    {n : NonterminalId} {t : TerminalId} (given : i ∈ items)
    (next : i.next? g = some (.nonterminal n))
    (begins : Begins g.rules (i.afterNext g ++ [.terminal i.lookahead]) t) :
    t ∈ Flow.setOf ((Predictor.ofGrammar g).predictions items) n := by
  refine Flow.below_solve _ _ n t ((Predictor.mem_foldl_predictFrom _).mpr (.inr ?_))
  refine ⟨?_, i, given, ?_⟩
  · rw [List.length_replicate]
    exact wf.knows_next next
  · exact ⟨next, (wf.mem_lookaheads (wf.epsilon_not_mem_afterNext next)).mpr begins⟩

/-- What a rule's left side is predicted with reaches the nonterminal in front of its right side. -/
theorem WellFormed.mem_predictions_of_front (wf : g.WellFormed) {items : ItemSet} {r : Rule}
    {n : NonterminalId} {rest : List Symbol} {u t : TerminalId} (rule : r ∈ g.rules)
    (right : r.right = .nonterminal n :: rest)
    (predicted : u ∈ Flow.setOf ((Predictor.ofGrammar g).predictions items) r.left)
    (begins : Begins g.rules (rest ++ [.terminal u]) t) :
    t ∈ Flow.setOf ((Predictor.ofGrammar g).predictions items) n := by
  have marked := wf.epsilon_not_mem_rest rule right
  have known : n < g.nonterminals.length :=
    (wf.rules_known r rule).right (.nonterminal n) (by simp [right])
  have flow := Predictor.mem_flows.mpr ⟨r, rule, n, rest, right, rfl⟩
  refine Flow.solution_solve _ _ _ flow ?_ t (Flow.mem_delivers.mpr ⟨⟨u, predicted⟩, ?_⟩)
  · exact Nat.lt_of_lt_of_eq known ((Predictor.ofGrammar g).length_predictions items).symm
  · rcases begins_append.mp begins with in_rest | ⟨vanishes, last⟩
    · obtain ⟨v, derivation⟩ := in_rest
      have proper : t ≠ .epsilon := by
        rintro rfl
        exact wf.epsilon_not_mem_of_derives derivation marked (by simp)
      have in_first := (wf.mem_firstOf marked proper).mpr ⟨v, derivation⟩
      exact .inl (OrderedSet.mem_erase.mpr ⟨in_first, proper⟩)
    · obtain rfl := begins_terminal.mp last
      exact .inr ⟨OrderedSet.contains_iff.mpr ((wf.epsilon_mem_firstOf marked).mpr vanishes),
        predicted⟩

theorem WellFormed.mem_closure_iff (wf : g.WellFormed) {items : ItemSet} {i : Item} :
    i ∈ g.closure items ↔ InClosure g items i := by
  constructor
  · intro member
    rcases (Predictor.mem_closure _).mp member with given | ⟨r, found, front, predicted⟩
    · exact .given given
    · have closed := inClosure_of_predicted found (wf.predicted_of_mem items _ _ predicted)
      rwa [← front] at closed
  · intro closed
    induction closed with
    | given member => exact (Predictor.mem_closure _).mpr (.inl member)
    | @predict i q b _ known next begins ih =>
      -- The item that predicts is given, or it has its marker at the front of a predicted rule.
      refine (Predictor.mem_closure _).mpr (.inr ⟨g.rule q, getElem?_rule known, rfl, ?_⟩)
      rcases (Predictor.mem_closure _).mp ih with given | ⟨r, found, front, predicted⟩
      · exact wf.mem_predictions_of_given given next begins
      · have right : r.right = .nonterminal (g.rule q).left :: i.afterNext g := by
          have split := Item.right_eq_of_next? next
          rw [Item.right, Item.before, front, List.take_zero, List.nil_append] at split
          exact (rule_of_getElem? found) ▸ split
        exact wf.mem_predictions_of_front (List.mem_of_getElem? found) right predicted begins

end Grammar

end CanonicalLR
