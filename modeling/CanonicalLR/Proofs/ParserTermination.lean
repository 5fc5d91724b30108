import CanonicalLR.Proofs.CorrectPrefixes
import CanonicalLR.Proofs.StateNumbering

/-!
# Runs come to an end

A parser may reduce empty right sides and single symbols any number of times before it shifts, so no
measure of the stack gets smaller. If no cell has competing candidates and no nonterminal is
unproductive, the next terminal bounds the reductions all the same. It is the lookahead of a valid
item because some derivation has it there: either it begins what an item of the uppermost state has
still to read, and a finite rightmost derivation gives the reductions up to its shift, or the rest
of that item vanishes and the item is reduced, which leads back to the item that predicted it. A
valid item is predicted in finitely many steps, so the next terminal is shifted or the run stops,
whether or not the input is a sentence.
-/
namespace CanonicalLR

variable {g : Grammar}

/-! ### Competing candidates -/

namespace Automaton.ConflictFree

variable {u : List Symbol} {i j : Item}

/-- Valid items that are complete with the same lookahead have the same rule. -/
theorem rule_eq (free : (ofGrammar g).ConflictFree g) (wf : g.WellFormed) (valid : Valid g u i)
    (complete : i.next? g = none) (valid' : Valid g u j) (complete' : j.next? g = none)
    (same : j.lookahead = i.lookahead) : i.rule = j.rule := by
  obtain ⟨s, walked⟩ := wf.exists_walk_of_valid valid
  obtain ⟨state, found, items⟩ := wf.state_of_walk walked
  have completes : state.Completes g i.lookahead i.rule :=
    ⟨i, (items i).mpr valid, complete, rfl, rfl⟩
  have completes' : state.Completes g i.lookahead j.rule :=
    ⟨j, (items j).mpr valid', complete', same, rfl⟩
  by_contra different
  exact free state (List.mem_of_getElem? found) _ (.inr ⟨_, _, different, completes, completes'⟩)

/-- The lookahead of a valid complete item is not what another valid item has next. -/
theorem next_ne (free : (ofGrammar g).ConflictFree g) (wf : g.WellFormed) (valid : Valid g u i)
    (complete : i.next? g = none) (valid' : Valid g u j) :
    j.next? g ≠ some (.terminal i.lookahead) := by
  intro next
  obtain ⟨s, walked⟩ := wf.exists_walk_of_valid valid
  obtain ⟨state, found, items⟩ := wf.state_of_walk walked
  have completes : state.Completes g i.lookahead i.rule :=
    ⟨i, (items i).mpr valid, complete, rfl, rfl⟩
  have shifts : state.Shifts g i.lookahead := ⟨j, (items j).mpr valid', next⟩
  exact free state (List.mem_of_getElem? found) _ (.inl ⟨_, shifts, completes⟩)

end Automaton.ConflictFree

/-- Nothing is up against a rule that a table reduces by: valid items are complete with one rule
only, and where one of them has a terminal next, the table does not reduce. -/
structure Table.ReducesUnopposed (g : Grammar) (table : Table) : Prop where
  one_rule : ∀ u i j, Valid g u i → i.next? g = none → Valid g u j → j.next? g = none →
    j.lookahead = i.lookahead → i.rule = j.rule
  no_shift : ∀ u i s t, Valid g u i → i.next? g = some (.terminal t) →
    (Automaton.ofGrammar g).walk? .initial u = some s → ∀ id, table.action s t ≠ some (.reduce id)

theorem Automaton.ConflictFree.reducesUnopposed {built : Construction}
    (free : (ofGrammar g).ConflictFree g) (wf : g.WellFormed)
    (constructed : g.construct = .ok built) : built.table.ReducesUnopposed g where
  one_rule _ _ _ valid complete valid' := free.rule_eq wf valid complete valid'
  no_shift u i s t valid next walked id action := by
    obtain ⟨state, found, j, member, complete, lookahead, _⟩ :=
      wf.reduces_of_reduce constructed action
    obtain ⟨state', found', items⟩ := wf.state_of_walk walked
    obtain rfl := Option.some.inj (found.symm.trans found')
    rw [← lookahead] at next
    exact free.next_ne wf ((items j).mp member) complete valid next

/-- Before a nonterminal the rules for it are predicted with what may follow it. -/
theorem Valid.of_rest {u : List Symbol} {i : Item} {q : RuleId} {r : Rule} {y : List Symbol}
    {b : TerminalId} (valid : Valid g u i) (found : g.rules[q]? = some r)
    (rest : i.rest g = .nonterminal r.left :: y)
    (begins : Begins g.rules (y ++ [.terminal i.lookahead]) b) : Valid g u ⟨q, 0, b⟩ := by
  obtain ⟨next, after⟩ := Item.next_of_rest rest
  refine .predict valid (List.getElem?_eq_some_iff.mp found).1 ?_ (after ▸ begins)
  rw [next, Grammar.rule_of_getElem? found]

/-! ### Runs -/

namespace Parser

/-- The run from a configuration has an outcome. -/
def Halts (g : Grammar) (t : Table) (c : Config) : Prop :=
  ∃ fuel outcome, run g t fuel c = some outcome

/-- Runs on the input come to an end wherever the stack spells the string. -/
def HaltsAt (g : Grammar) (t : Table) (input : List TerminalId) (u : List Symbol) : Prop :=
  ∀ stack, Spells (.ofGrammar g) u stack → Halts g t ⟨stack, input⟩

variable {built : Construction} {u : List Symbol} {input : List TerminalId}
  {c c' : Config} {i : Item} {id : RuleId}

/-- A run halts if it does so after its first move, should there be one. -/
theorem halts_of_step {t : Table}
    (onward : ∀ move c', step g t c = .next move c' → Halts g t c') : Halts g t c := by
  cases stepped : step g t c with
  | accept => exact ⟨1, .ok [.accept], by simp [run, stepped]⟩
  | fail e => exact ⟨1, .error e, by simp [run, stepped]⟩
  | next move c' =>
    obtain ⟨fuel, outcome, finished⟩ := onward move c' stepped
    exact ⟨fuel + 1, outcome.map (move :: ·), by simp [run, stepped, finished]⟩

theorem action_of_reduce_step {t : Table} (stepped : step g t c = .next (.reduce id) c') :
    ∃ s below, c.stack = s :: below ∧ t.action s c.lookahead = some (.reduce id) := by
  -- Of all that a step may do only a reduction makes this move, and it names its own rule.
  simp only [step] at stepped
  split at stepped
  next => cases stepped
  next s below stack =>
    split at stepped
    next => cases stepped
    next rule action =>
      obtain ⟨_, _, _, _, _, same, _⟩ := reduce_eq_next_iff.mp stepped
      exact ⟨s, below, stack, (Move.reduce.inj same).symm ▸ action⟩
    next => cases stepped
    next => cases stepped

/-- A parser reduces by a rule other than 0 that a valid item completes. -/
theorem valid_of_reduce_step (wf : g.WellFormed) (constructed : g.construct = .ok built)
    (spells : Spells (.ofGrammar g) u c.stack)
    (stepped : step g built.table c = .next (.reduce id) c') :
    ∃ i, Valid g u i ∧ i.next? g = none ∧ i.lookahead = c.lookahead ∧ i.rule = id ∧
      id ≠ .accept := by
  obtain ⟨s, below, stack, action⟩ := action_of_reduce_step stepped
  obtain ⟨state, found, reduces⟩ := wf.reduces_of_reduce constructed action
  obtain ⟨i, valid, complete, lookahead, same⟩ := valid_of_reduces wf (stack ▸ spells) found reduces
  exact ⟨i, valid, complete, lookahead, same, wf.ne_accept_of_reduce constructed action⟩

/-! ### Reductions on one lookahead -/

section Lookahead

variable (wf : g.WellFormed) (fits : g.MarkersFit) (constructed : g.construct = .ok built)
  (unopposed : built.table.ReducesUnopposed g)
  (shifted : ∀ t rest, input = t :: rest → ∀ u, HaltsAt g built.table rest u)

include wf constructed shifted in
/-- A parser halts if it does so after each reduction by a valid item, for what is shifted makes the
input shorter. -/
theorem haltsAt_of_reductions
    (onward : ∀ i r v, Valid g u i → i.next? g = none → i.lookahead = input.headD .eoi →
      i.rule ≠ .accept → g.rules[i.rule]? = some r → u = v ++ r.right →
        HaltsAt g built.table input (v ++ [.nonterminal r.left])) :
    HaltsAt g built.table input u := by
  intro stack spells
  refine halts_of_step fun move c' stepped => ?_
  rcases step_cases wf constructed (c := ⟨stack, input⟩) spells stepped with
    ⟨t, _, _, consumed, spells'⟩ | ⟨id, r, v, rfl, found, whole, same, spells'⟩
  · exact shifted t c'.input consumed _ _ spells'
  · obtain ⟨i, valid, complete, lookahead, rfl, proper⟩ :=
      valid_of_reduce_step wf constructed (c := ⟨stack, input⟩) spells stepped
    obtain ⟨stack', input'⟩ := c'
    obtain rfl : input' = input := same
    exact onward i r v valid complete lookahead proper found whole stack' spells'

include wf constructed unopposed shifted in
/-- Where an item has the next terminal after its marker, nothing is reduced. -/
theorem haltsAt_of_next (valid : Valid g u i)
    (next : i.next? g = some (.terminal (input.headD .eoi))) : HaltsAt g built.table input u := by
  intro stack spells
  refine halts_of_step fun move c' stepped => ?_
  rcases step_cases wf constructed (c := ⟨stack, input⟩) spells stepped with
    ⟨t, _, _, consumed, spells'⟩ | ⟨id, r, v, rfl, _, _, _, _⟩
  · exact shifted t c'.input consumed _ _ spells'
  · obtain ⟨s, below, same, action⟩ := action_of_reduce_step stepped
    obtain rfl : stack = s :: below := same
    exact absurd action (unopposed.no_shift u i s _ valid next spells.walk id)

include wf fits constructed unopposed shifted in
/-- A right side that was predicted with the next terminal is reduced by its rule, if at all. -/
theorem haltsAt_of_right {q : RuleId} {r : Rule} (found : g.rules[q]? = some r)
    (valid : Valid g u ⟨q, 0, input.headD .eoi⟩)
    (onward : q ≠ .accept → HaltsAt g built.table input (u ++ [.nonterminal r.left])) :
    HaltsAt g built.table input (u ++ r.right) := by
  refine haltsAt_of_reductions wf constructed shifted ?_
  intro j r' v reduced complete lookahead proper found' whole
  -- The complete item of the rule is valid here, so no other rule is reduced.
  have read := fits.valid_of_read found (List.append_nil r.right).symm valid
  have read_complete : Item.next? g ⟨q, r.right.length, input.headD .eoi⟩ = none := by
    simp [Item.next?, Item.right, Grammar.rule_of_getElem? found]
  obtain rfl : j.rule = q :=
    unopposed.one_rule _ _ _ reduced complete read read_complete lookahead.symm
  obtain rfl : r = r' := Option.some.inj (found.symm.trans found')
  obtain rfl : u = v := List.append_cancel_right whole
  exact onward proper

include wf fits constructed unopposed shifted in
/-- If the parser halts when it has read something that vanishes, it halts before it. -/
theorem haltsAt_of_vanishing {ids : List RuleId} {x y : List Symbol} (valid : Valid g u i)
    (rest : i.rest g = x ++ y)
    (vanishes : RightmostDerivation g.rules ids x (([] : List TerminalId).map .terminal))
    (begins : Begins g.rules (y ++ [.terminal i.lookahead]) (input.headD .eoi))
    (onward : HaltsAt g built.table input (u ++ x)) : HaltsAt g built.table input u := by
  -- By the length of the derivation, which is split at the first symbol.
  induction length : ids.length using Nat.strongRecOn generalizing ids u i x y with
  | ind _ ih =>
    subst length
    cases x with
    | nil => simpa using onward
    | cons s x =>
      obtain ⟨front_ids, back_ids, w₁, w₂, rfl, nothing, front, back⟩ :=
        RightmostDerivation.split (x := [s]) vanishes
      obtain ⟨rfl, rfl⟩ := List.append_eq_nil_iff.mp nothing.symm
      cases s with
      | terminal t => exact absurd (front.of_terminals (w := [t])).2 (by simp)
      | nonterminal n =>
        obtain ⟨q, r, ids, rfl, found, rfl, right⟩ := front.of_nonterminal
        -- What the rule derives is reduced first, then what comes after the nonterminal.
        have after_begins := begins_append.mpr (.inr ⟨back.derives, begins⟩)
        rw [← List.append_assoc] at after_begins
        have predicted := valid.of_rest found rest after_begins
        have later : HaltsAt g built.table input (u ++ [.nonterminal r.left]) := by
          obtain ⟨next, after⟩ := Item.next_of_rest rest
          refine ih back_ids.length ?_ (valid.advance next) (Item.rest_advance fits next ▸ after)
            back begins ?_ rfl
          · simp
          · simpa using onward
        have reduced := haltsAt_of_right wf fits constructed unopposed shifted found predicted
          fun _ => later
        refine ih ids.length ?_ (y := []) predicted ?_ right (begins_terminal.mpr rfl) reduced rfl
        · rw [List.length_append, List.length_cons]
          omega
        · rw [Item.rest_front found, List.append_nil]

include wf fits constructed unopposed shifted in
/-- The parser halts where a valid item has still to read something that begins with the next
terminal. -/
theorem haltsAt_of_reading (productive : g.AllProductive) {ids : List RuleId} {x y : List Symbol}
    {z : List TerminalId} (valid : Valid g u i) (rest : i.rest g = x ++ y)
    (reads : RightmostDerivation g.rules ids x ((input.headD .eoi :: z).map .terminal)) :
    HaltsAt g built.table input u := by
  -- Again by the length of the derivation; its first symbol may vanish or begin with the terminal.
  induction length : ids.length using Nat.strongRecOn generalizing ids u i x y z with
  | ind _ ih =>
    subst length
    cases x with
    | nil => exact absurd (reads.of_terminals (w := [])).2 (by simp)
    | cons s x =>
      obtain ⟨front_ids, back_ids, w₁, w₂, rfl, whole, front, back⟩ :=
        RightmostDerivation.split (x := [s]) reads
      obtain ⟨next, after⟩ := Item.next_of_rest rest
      cases s with
      | terminal t =>
        -- The terminal itself is the next one.
        obtain rfl : w₁ = [t] := eq_of_map_terminal (front.of_terminals (w := [t])).2
        obtain ⟨rfl, _⟩ := List.cons.inj whole
        exact haltsAt_of_next wf constructed unopposed shifted valid next
      | nonterminal n =>
        obtain ⟨q, r, ids, same_ids, found, left, right⟩ := front.of_nonterminal
        rcases List.cons_eq_append_iff.mp whole with ⟨rfl, rfl⟩ | ⟨w₁, rfl, _⟩
        · -- The nonterminal vanishes, and the terminal begins what comes after it.
          have begins : Begins g.rules (x ++ y ++ [.terminal i.lookahead]) (input.headD .eoi) := by
            rw [List.append_assoc]
            exact begins_append.mpr (.inl ⟨_, back.derives⟩)
          refine haltsAt_of_vanishing wf fits constructed unopposed shifted valid
            (x := [.nonterminal n]) rest front begins ?_
          refine ih back_ids.length ?_ (valid.advance next)
            (Item.rest_advance fits next ▸ after) back rfl
          rw [same_ids, List.length_append, List.length_cons]
          omega
        · -- The terminal begins what a rule for the nonterminal derives.
          subst left
          obtain ⟨z', derived⟩ := Grammar.exists_terminals_of_rest productive
            (valid.rule_known wf) (u := x ++ y) (rest ▸ List.subset_cons_self _ _)
          have predicted := valid.of_rest found rest (Grammar.begins_headD derived [] i.lookahead)
          refine ih ids.length ?_ (y := []) predicted ?_ right rfl
          · rw [same_ids, List.length_append, List.length_cons]
            omega
          · rw [Item.rest_front found, List.append_nil]

include wf fits constructed unopposed shifted in
/-- With the next terminal to follow, the parser reads the rest of a right side, or it reduces it
and goes on behind its left side. -/
theorem haltsAt_of_front (productive : g.AllProductive) {q : RuleId} {r : Rule} {b : TerminalId}
    {x y : List Symbol} (found : g.rules[q]? = some r) (valid : Valid g u ⟨q, 0, b⟩)
    (right : r.right = x ++ y) (begins : Begins g.rules (y ++ [.terminal b]) (input.headD .eoi))
    (onward : b = input.headD .eoi → q ≠ .accept →
      HaltsAt g built.table input (u ++ [.nonterminal r.left])) :
    HaltsAt g built.table input (u ++ x) := by
  have read := fits.valid_of_read found right valid
  have rest : Item.rest g ⟨q, x.length, b⟩ = y ++ [] := by
    simp [Item.rest, Item.right, Grammar.rule_of_getElem? found, right]
  have known : ∀ s ∈ y, ∃ r ∈ g.rules, s ∈ r.right := fun s member =>
    ⟨r, List.mem_of_getElem? found, right ▸ List.mem_append_right x member⟩
  -- The rest derives terminals that begin with the next one, or it vanishes before it.
  obtain ⟨z, derived, first⟩ :=
    Grammar.exists_terminals_of_begins productive known (z := [b]) begins
  obtain ⟨ids, rightmost⟩ := derived.exists_rightmost
  cases z with
  | nil =>
    obtain rfl : b = input.headD .eoi := first
    have reduced := haltsAt_of_right wf fits constructed unopposed shifted found valid (onward rfl)
    rw [right, ← List.append_assoc] at reduced
    exact haltsAt_of_vanishing wf fits constructed unopposed shifted read rest rightmost
      (begins_terminal.mpr rfl) reduced
  | cons t z =>
    obtain rfl : t = input.headD .eoi := first
    exact haltsAt_of_reading wf fits constructed unopposed shifted productive read rest rightmost

include wf fits constructed unopposed shifted in
/-- The parser halts when it has read some of what a valid item has still to read, if the next
terminal may follow. -/
theorem haltsAt_of_valid (productive : g.AllProductive) {x y : List Symbol} (valid : Valid g u i)
    (rest : i.rest g = x ++ y)
    (begins : Begins g.rules (y ++ [.terminal i.lookahead]) (input.headD .eoi)) :
    HaltsAt g built.table input (u ++ x) := by
  -- An item that has been advanced leads back to one with its marker at the front, and that to the
  -- item which predicted it.
  induction valid generalizing x y with
  | start =>
    have found := Grammar.getElem?_rule wf.accept_known
    rw [Item.rest_front found] at rest
    exact haltsAt_of_front wf fits constructed unopposed shifted productive found .start rest begins
      fun _ proper => absurd rfl proper
  | @predict u i q b valid known next predicts ih =>
    have found := Grammar.getElem?_rule known
    rw [Item.rest_front found] at rest
    refine haltsAt_of_front wf fits constructed unopposed shifted productive found
      (.predict valid known next predicts) rest begins fun same _ => ?_
    subst same
    exact ih (x := [.nonterminal (g.rule q).left]) (Item.rest_of_next next) predicts
  | @advance u i s valid next ih =>
    have whole : i.rest g = (s :: x) ++ y := by
      rw [Item.rest_of_next next, List.cons_append, ← rest, Item.rest_advance fits next]
    simpa using ih whole begins

include wf fits constructed unopposed shifted in
/-- A parser halts if it does so whenever it has shifted the next terminal. -/
theorem haltsAt_of_shifted (productive : g.AllProductive) (u : List Symbol) :
    HaltsAt g built.table input u := by
  -- A complete item with the next terminal as its lookahead has nothing left to read.
  by_cases completes : ∃ i, Valid g u i ∧ i.next? g = none ∧ i.lookahead = input.headD .eoi
  · obtain ⟨i, valid, complete, lookahead⟩ := completes
    have nothing : i.rest g = [] ++ [] := Item.rest_of_complete complete
    simpa using haltsAt_of_valid wf fits constructed unopposed shifted productive valid nothing
      (begins_terminal.mpr lookahead.symm)
  · -- Without one nothing is reduced.
    refine haltsAt_of_reductions wf constructed shifted ?_
    intro i r v valid complete lookahead _ _ _
    exact absurd ⟨i, valid, complete, lookahead⟩ completes

end Lookahead

theorem haltsAt_of_unopposed (wf : g.WellFormed) (fits : g.MarkersFit)
    (constructed : g.construct = .ok built) (unopposed : built.table.ReducesUnopposed g)
    (productive : g.AllProductive) (input : List TerminalId) (u : List Symbol) :
    HaltsAt g built.table input u := by
  -- By the length of the input, and on one terminal by what has just been shown.
  induction input generalizing u with
  | nil =>
    refine haltsAt_of_shifted wf fits constructed unopposed ?_ productive u
    intro _ _ empty
    cases empty
  | cons t input ih =>
    refine haltsAt_of_shifted wf fits constructed unopposed ?_ productive u
    intro _ _ same
    cases same
    exact ih

theorem haltsAt_of_conflictFree (wf : g.WellFormed) (fits : g.MarkersFit)
    (constructed : g.construct = .ok built)
    (free : (Automaton.ofGrammar g).ConflictFree g) (productive : g.AllProductive)
    (input : List TerminalId) (u : List Symbol) : HaltsAt g built.table input u :=
  haltsAt_of_unopposed wf fits constructed (free.reducesUnopposed wf constructed) productive input u

end Parser

/-- What vanishes is reduced again and again. -/
theorem Examples.Vanishes.run_eq_none {n : Nat} (vanishes : Vanishes g n)
    (long : markerNumbers ≤ n) {built : Construction} (constructed : g.construct = .ok built)
    (fuel : Nat) : Parser.run g built.table fuel (.initial []) = none := by
  have free := vanishes.conflictFree_of_alone (vanishes.completesAlone long)
  -- After any number of the nonterminals one more can be reduced.
  refine Parser.run_eq_none_of_next (fun c => c.input = [] ∧ ∃ k, Parser.Spells (.ofGrammar g)
    (List.replicate k (.nonterminal 2)) c.stack) ?_ fuel ⟨rfl, 0, .initial⟩
  rintro ⟨stack, _⟩ ⟨rfl, k, spells⟩
  have found : g.rules[2]? = some ⟨2, [], none, none⟩ := by
    rw [vanishes.rules]
    rfl
  have empty := (vanishes.valid_iff long).mpr (.inr (.inr ⟨k, rfl, .inr rfl⟩))
  have more := (vanishes.valid_iff long).mpr (.inr (.inr ⟨k + 1, rfl, .inr rfl⟩))
  rw [List.replicate_succ'] at more
  rw [← List.append_nil (List.replicate k _)] at spells empty
  obtain ⟨stack', stepped, spells'⟩ := Parser.step_of_complete vanishes.toWellFormed constructed
    free.uncontested found (by decide) spells (show Valid g _ ⟨2, _, [].headD .eoi⟩ from empty)
    ⟨_, more⟩
  refine ⟨⟨stack', []⟩, by rw [Parser.next?, stepped], rfl, k + 1, ?_⟩
  rwa [List.replicate_succ']

namespace Grammar

/-- As long as the rules have numbers of their own, candidates compete only where a table has
something to settle. -/
theorem Augmented.conflictFree_iff_uncontested (augmented : g.Augmented) :
    (Automaton.ofGrammar g).ConflictFree g ↔ (Automaton.ofGrammar g).Uncontested g := by
  have wf := augmented.toWellFormed
  have same (state : State) (member : state ∈ (Automaton.ofGrammar g).states) (t : TerminalId) :
      state.Competing g t ↔ state.Contested g t := by
    -- Each state is reached, so its items are valid for some string.
    obtain ⟨s, found⟩ := List.getElem?_of_mem member
    obtain ⟨w, walked⟩ := wf.exists_walk s (List.getElem?_eq_some_iff.mp found).1
    obtain ⟨state', found', items⟩ := wf.state_of_walk walked
    obtain rfl : state = state' := Option.some.inj (found.symm.trans found')
    have reduces (rule : RuleId) : state.Completes g t rule ↔ state.Reduces g t rule := by
      refine ⟨?_, State.Reduces.completes⟩
      rintro ⟨i, in_items, complete, rfl, rfl⟩
      exact ⟨i, in_items, complete, rfl, rfl,
        ((items i).mp in_items).lookahead_of_accept augmented⟩
    simp only [State.Competing, State.Contested, reduces]
  exact forall₂_congr fun state member => forall_congr' fun t => not_congr (same state member t)

end Grammar

end CanonicalLR
