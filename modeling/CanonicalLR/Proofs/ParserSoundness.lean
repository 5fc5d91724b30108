import CanonicalLR.Parser
import CanonicalLR.Proofs.Derivations
import CanonicalLR.Proofs.TableCells
import Mathlib.Data.List.TakeWhile

/-!
# What parsers accept

The stack of a parser spells a string: the symbols on which the automaton moves from each state to
the one above. A shift appends the terminal that is consumed, and a reduction undoes one step of a
rightmost derivation at the end of the string, since a complete item is valid only for strings that
end in its right side. The rule with which parsing begins is complete only where the string is the
start symbol. So the rules of an accepting run, read backwards, derive the input from the start
symbol, whatever conflicts were settled when the table was made.
-/
namespace CanonicalLR

/-! ### Valid items -/

theorem Grammar.Augmented.right_accept {g : Grammar} (augmented : g.Augmented) {i : Item}
    (accepting : i.rule = .accept) : i.right g = [.nonterminal g.start] := by
  rw [Item.right, accepting, augmented.rule_accept]
  rfl

/-- Only the rule with which parsing begins can have the reserved nonterminal on its right side, and
it has nothing else there. -/
theorem Item.eq_front_of_next_start {g : Grammar} (augmented : g.Augmented) {i : Item}
    (next : i.next? g = some (.nonterminal .start)) : i.rule = .accept ∧ i.marker = 0 := by
  have found := Grammar.getElem?_rule (Item.rule_known_of_next? next)
  have same : i.rule = .accept := augmented.accept_of_right found (Item.next?_mem next)
  have inside := Item.marker_lt_of_next? next
  rw [augmented.right_accept same, List.length_singleton] at inside
  exact ⟨same, by omega⟩

namespace Valid

variable {g : Grammar} {w : List Symbol} {i : Item}

theorem rule_known (wf : g.WellFormed) (valid : Valid g w i) : i.rule < g.rules.length := by
  induction valid with
  | start => exact wf.accept_known
  | predict _ known _ _ _ => exact known
  | advance _ _ ih => exact ih

/-- Reading goes on from the rule with which parsing begins without coming back to it. -/
theorem eq_before_of_accept (augmented : g.Augmented) (valid : Valid g w i)
    (accepting : i.rule = .accept) : w = i.before g := by
  induction valid with
  | start => rfl
  | @predict w i q b valid known next _ ih =>
    obtain rfl : q = .accept := accepting
    rw [augmented.rule_accept] at next
    obtain ⟨same, front⟩ := Item.eq_front_of_next_start augmented next
    have nothing : w = [] := by simpa [Item.before, front] using ih same
    simpa [Item.before] using nothing
  | @advance w i x _ next ih =>
    have short : (i.right g).length < markerNumbers := by
      rw [augmented.right_accept (i := i) accepting, List.length_singleton]
      decide
    rw [Item.before_advance next short, ← ih accepting]

/-- Rule 0 is predicted with the end of the input only. -/
theorem lookahead_of_accept (augmented : g.Augmented) (valid : Valid g w i)
    (accepting : i.rule = .accept) : i.lookahead = .eoi := by
  induction valid with
  | start => rfl
  | @predict w i q b _ _ next begins ih =>
    obtain rfl : q = .accept := accepting
    rw [augmented.rule_accept] at next
    obtain ⟨same, front⟩ := Item.eq_front_of_next_start augmented next
    have nothing : i.afterNext g = [] := by
      rw [Item.afterNext, Item.right, same, front, augmented.rule_accept]
      rfl
    rw [nothing, List.nil_append] at begins
    exact (begins_terminal.mp begins).trans (ih same)
  | advance _ _ ih => exact ih accepting

end Valid

/-! ### Stacks -/

/-- The end of the input is in no sentence. -/
theorem Grammar.WellFormed.eoi_not_mem_of_sentence {g : Grammar} (wf : g.WellFormed)
    {w : List TerminalId} (sentence : g.Sentence w) : .eoi ∉ w := by
  intro member
  rcases sentence.symbol_mem (List.mem_map_of_mem member) with start | ⟨r, rule, mentioned⟩
  · cases List.mem_singleton.mp start
  · exact ((wf.rules_known r rule).right _ mentioned).1 rfl

namespace Parser

/-- The stack has the states that reading a string leads through. -/
inductive Spells (a : Automaton) : List Symbol → List StateId → Prop where
  | initial : Spells a [] [.initial]
  | push {u : List Symbol} {s t : StateId} {below : List StateId} {x : Symbol}
      (spells : Spells a u (s :: below)) (moved : a.goto s x = some t) :
      Spells a (u ++ [x]) (t :: s :: below)

namespace Spells

variable {a : Automaton} {u v : List Symbol} {stack below : List StateId} {s : StateId}

theorem exists_top (spells : Spells a u stack) : ∃ s below, stack = s :: below := by
  cases spells with
  | initial => exact ⟨_, _, rfl⟩
  | push => exact ⟨_, _, rfl⟩

/-- The uppermost state is the one that the string leads to. -/
theorem walk (spells : Spells a u (s :: below)) : a.walk? .initial u = some s := by
  generalize whole : s :: below = stack at spells
  induction spells generalizing s below with
  | initial =>
    obtain ⟨rfl, _⟩ := List.cons.inj whole
    rfl
  | push _ moved ih =>
    obtain ⟨rfl, _⟩ := List.cons.inj whole
    rw [Automaton.walk?_concat, ih rfl, Option.bind_some, moved]

theorem pop {x : Symbol} (spells : Spells a (u ++ [x]) stack) :
    ∃ t s below, stack = t :: s :: below ∧ Spells a u (s :: below) ∧ a.goto s x = some t := by
  generalize whole : u ++ [x] = w at spells
  cases spells with
  | initial => simp at whole
  | push spells moved =>
    obtain ⟨rfl, last⟩ := List.append_inj' whole rfl
    obtain rfl := List.singleton_inj.mp last
    exact ⟨_, _, _, rfl, spells, moved⟩

/-- Taking states off the stack takes as many symbols off the end of the string. -/
theorem drop (spells : Spells a (u ++ v) stack) : Spells a u (stack.drop v.length) := by
  induction v using List.reverseRecOn generalizing stack with
  | nil => simpa using spells
  | append_singleton v x ih =>
    rw [← List.append_assoc] at spells
    obtain ⟨t, s, below, rfl, spells, _⟩ := spells.pop
    simpa using ih spells

end Spells

/-- Every walk is spelled by the states on it. -/
theorem exists_spells_of_walk {a : Automaton} {u : List Symbol} {s : StateId}
    (walked : a.walk? .initial u = some s) : ∃ below, Spells a u (s :: below) := by
  induction u using List.reverseRecOn generalizing s with
  | nil =>
    obtain rfl : StateId.initial = s := by simpa [Automaton.walk?] using walked
    exact ⟨[], .initial⟩
  | append_singleton u x ih =>
    rw [Automaton.walk?_concat, Option.bind_eq_some_iff] at walked
    obtain ⟨t, front, moved⟩ := walked
    obtain ⟨below, spells⟩ := ih front
    exact ⟨t :: below, spells.push moved⟩

/-! ### Steps -/

variable {g : Grammar} {built : Construction} {u : List Symbol} {c c' : Config} {move : Move}

/-- The items of the uppermost state are valid for the string that the stack spells. -/
theorem valid_of_reduces (wf : g.WellFormed) {s : StateId} {below : List StateId}
    (spells : Spells (.ofGrammar g) u (s :: below)) {state : State}
    (found : (Automaton.ofGrammar g).states[s]? = some state) {t : TerminalId} {rule : RuleId}
    (reduces : state.Reduces g t rule) :
    ∃ i, Valid g u i ∧ i.next? g = none ∧ i.lookahead = t ∧ i.rule = rule := by
  obtain ⟨state', found', items⟩ := wf.state_of_walk spells.walk
  obtain rfl : state = state' := Option.some.inj (found.symm.trans found')
  obtain ⟨i, member, complete, lookahead, rule_eq, _⟩ := reduces
  exact ⟨i, (items i).mp member, complete, lookahead, rule_eq⟩

theorem reduce_eq_next_iff {table : Table} {rule : RuleId} :
    reduce g table c rule = .next move c' ↔ ∃ top below next,
      c.stack.drop (g.rule rule).right.length = top :: below ∧
      table.goto top (g.rule rule).left = some next ∧
      move = .reduce rule ∧ c' = { c with stack := next :: top :: below } := by
  simp only [reduce]
  split
  next empty => simp [empty]
  next top below stack =>
    split
    next missing => simp [stack, missing]
    next next moved =>
      simp only [stack, Step.next.injEq, List.cons.injEq]
      constructor
      · rintro ⟨rfl, rfl⟩
        exact ⟨top, below, next, ⟨rfl, rfl⟩, moved, rfl, rfl⟩
      · rintro ⟨_, _, _, ⟨rfl, rfl⟩, moved', rfl, rfl⟩
        obtain rfl := Option.some.inj (moved.symm.trans moved')
        exact ⟨rfl, rfl⟩

/-- A right side at the end of the string is taken off the stack, and the left side is entered if it
can be read in its place. -/
theorem exists_reduce (wf : g.WellFormed) (constructed : g.construct = .ok built) {rule : RuleId}
    {v : List Symbol} (spells : Spells (.ofGrammar g) (v ++ (g.rule rule).right) c.stack)
    (readable : ∃ i, Valid g (v ++ [.nonterminal (g.rule rule).left]) i) :
    ∃ stack', reduce g built.table c rule = .next (.reduce rule) { c with stack := stack' } ∧
      Spells (.ofGrammar g) (v ++ [.nonterminal (g.rule rule).left]) stack' := by
  have dropped := spells.drop
  obtain ⟨top, below, stack_eq⟩ := dropped.exists_top
  rw [stack_eq] at dropped
  -- The state under the right side can move on the left side.
  obtain ⟨_, readable⟩ := readable
  obtain ⟨next, walked⟩ := wf.exists_walk_of_valid readable
  rw [Automaton.walk?_concat, dropped.walk, Option.bind_some] at walked
  have target := (wf.table_goto_iff constructed).mpr walked
  exact ⟨next :: top :: below,
    reduce_eq_next_iff.mpr ⟨top, below, next, stack_eq, target, rfl, rfl⟩, .push dropped walked⟩

theorem reduce_ne_accept {table : Table} {rule : RuleId} : reduce g table c rule ≠ .accept := by
  simp only [reduce]
  split
  · simp
  · split <;> simp

/-- A move appends the terminal that it consumes, or exchanges a right side at the end of the string
for its left side. -/
theorem step_cases (wf : g.WellFormed) (constructed : g.construct = .ok built)
    (spells : Spells (.ofGrammar g) u c.stack) (stepped : step g built.table c = .next move c') :
    (∃ t, move = .shift t ∧ t ≠ .eoi ∧ c.input = t :: c'.input ∧
      Spells (.ofGrammar g) (u ++ [.terminal t]) c'.stack) ∨
    ∃ id r v, move = .reduce id ∧ g.rules[id]? = some r ∧ u = v ++ r.right ∧
      c'.input = c.input ∧ Spells (.ofGrammar g) (v ++ [.nonterminal r.left]) c'.stack := by
  obtain ⟨stack, input⟩ := c
  obtain ⟨s, below, rfl⟩ := spells.exists_top
  simp only [step] at stepped
  split at stepped
  next target action =>
    cases stepped
    have moved := wf.goto_of_shift constructed action
    -- The end of the input is not on any right side, so there is a terminal to consume.
    have proper : Config.lookahead ⟨s :: below, input⟩ ≠ .eoi := by
      obtain ⟨kernel, _, departs, _⟩ := wf.goto_eq_some_iff.mp moved
      obtain ⟨i, _, next⟩ := Grammar.mem_departing.mp departs
      exact (wf.knows_next next).1
    cases input with
    | nil => exact absurd rfl proper
    | cons t rest => exact .inl ⟨t, rfl, proper, rfl, .push spells moved⟩
  next id action =>
    -- A valid item of the rule is complete, so the string ends in the right side.
    obtain ⟨state, found, reduces⟩ := wf.reduces_of_reduce constructed action
    obtain ⟨i, valid, complete, _, rfl⟩ := valid_of_reduces wf spells found reduces
    obtain ⟨v, rfl⟩ := valid.exists_before
    rw [Item.before_of_complete complete] at spells ⊢
    obtain ⟨top, rest, next, dropped, target, rfl, rfl⟩ := reduce_eq_next_iff.mp stepped
    have onward := spells.drop
    simp only [Item.right, dropped] at onward
    have moved := (wf.table_goto_iff constructed).mp target
    exact .inr ⟨i.rule, _, v, rfl, Grammar.getElem?_rule (valid.rule_known wf), rfl, rfl,
      .push onward moved⟩
  next => cases stepped
  next => cases stepped

/-- A parser accepts when it has read the start symbol and nothing is left to read. -/
theorem accept_cases (augmented : g.Augmented) (constructed : g.construct = .ok built)
    (spells : Spells (.ofGrammar g) u c.stack) (stepped : step g built.table c = .accept) :
    u = [.nonterminal g.start] ∧ c.lookahead = .eoi := by
  have wf := augmented.toWellFormed
  obtain ⟨stack, input⟩ := c
  obtain ⟨s, below, rfl⟩ := spells.exists_top
  simp only [step] at stepped
  split at stepped
  next => cases stepped
  next => exact absurd stepped reduce_ne_accept
  next action =>
    obtain ⟨state, found, reduces⟩ := wf.reduces_of_accept constructed action
    have at_end : Config.lookahead ⟨s :: below, input⟩ = .eoi := by
      obtain ⟨_, _, _, _, _, at_end⟩ := reduces
      exact at_end rfl
    obtain ⟨i, valid, complete, _, accepting⟩ := valid_of_reduces wf spells found reduces
    -- Nothing is before the right side of rule 0.
    have read : u = i.right g :=
      (valid.eq_before_of_accept augmented accepting).trans (Item.before_of_complete complete)
    exact ⟨read.trans (augmented.right_accept accepting), at_end⟩
  next => cases stepped

/-- An accepting run consumes the input up to the end that it sees, and its rules, read backwards,
derive what the stack spells and what the run consumes. -/
theorem run_sound (augmented : g.Augmented) (constructed : g.construct = .ok built)
    (spells : Spells (.ofGrammar g) u c.stack) {fuel : Nat} {moves : List Move}
    (finished : run g built.table fuel c = some (.ok moves)) :
    (∃ before, moves = before ++ [.accept] ∧ .accept ∉ before) ∧
      shiftedTerminals moves = c.input.takeWhile (· ≠ .eoi) ∧
      RightmostDerivation g.rules (reducedRules moves).reverse [.nonterminal g.start]
        (u ++ (shiftedTerminals moves).map .terminal) := by
  -- By induction on the limit: what the stack spells is the invariant.
  induction fuel generalizing u c moves with
  | zero => cases finished
  | succ fuel ih =>
    rcases run_ok_cases finished with ⟨accepts, rfl⟩ | ⟨move, c', rest, stepped, rfl, onward⟩
    · obtain ⟨rfl, at_end⟩ := accept_cases augmented constructed spells accepts
      have nothing : c.input.takeWhile (· ≠ .eoi) = [] := by
        cases input : c.input with
        | nil => rfl
        | cons t ts =>
          obtain rfl : t = .eoi := by simpa [Config.lookahead, input] using at_end
          simp
      exact ⟨⟨[], rfl, List.not_mem_nil⟩, nothing.symm, .nil _⟩
    · rcases step_cases augmented.toWellFormed constructed spells stepped with
        ⟨t, rfl, proper, input, spells'⟩ | ⟨id, r, v, rfl, found, rfl, input, spells'⟩
      · obtain ⟨⟨before, rfl, no_accept⟩, consumed, derivation⟩ := ih spells' onward
        refine ⟨⟨.shift t :: before, rfl, by simp [no_accept]⟩, ?_, ?_⟩
        · rw [shiftedTerminals_shift, consumed, input, List.takeWhile_cons_of_pos]
          simpa using proper
        · simpa using derivation
      · obtain ⟨⟨before, rfl, no_accept⟩, consumed, derivation⟩ := ih spells' onward
        refine ⟨⟨.reduce id :: before, rfl, by simp [no_accept]⟩, ?_, ?_⟩
        · rw [shiftedTerminals_reduce, consumed, input]
        · -- The reduction is the last step of the derivation.
          rw [reducedRules_reduce, List.reverse_cons, shiftedTerminals_reduce]
          rw [List.append_assoc, List.singleton_append] at derivation
          exact derivation.trans (.cons found (.nil _))

/-- Terminals without an end of the input among them are seen to the last. -/
theorem takeWhile_of_no_end {w : List TerminalId} (no_end : .eoi ∉ w) :
    w.takeWhile (· ≠ .eoi) = w := by
  apply List.takeWhile_eq_self_iff.mpr
  intro t member
  have proper : t ≠ .eoi := fun at_end => no_end (at_end ▸ member)
  simpa using proper

/-- An accepting run on terminals without an end of the input among them derives all of them. -/
theorem derivation_of_accepted (augmented : g.Augmented) (constructed : g.construct = .ok built)
    {w : List TerminalId} (no_end : .eoi ∉ w) {fuel : Nat} {moves : List Move}
    (accepted : run g built.table fuel (.initial w) = some (.ok moves)) :
    RightmostDerivation g.rules (reducedRules moves).reverse [.nonterminal g.start]
      (w.map .terminal) := by
  obtain ⟨_, consumed, derivation⟩ := run_sound augmented constructed .initial accepted
  have all : shiftedTerminals moves = w := consumed.trans (takeWhile_of_no_end no_end)
  rwa [all] at derivation

end Parser

/-- Whatever a parser accepts is a sentence, and its reductions are a rightmost derivation of it. As
long as the rules have numbers of their own, nothing else is asked of the grammar. -/
theorem Grammar.parser_sound {ds : List Declaration} {g : Grammar}
    (defined : defineAccepted ds = .ok g) (fits : NumbersFit ds) :
    ∃ built, g.construct = .ok built ∧
      ∀ (tokens : List TerminalId) (fuel : Nat) (moves : List Move),
        built.table.parse? g fuel tokens = some (.ok moves) →
          (∃ before, moves = before ++ [.accept] ∧ .accept ∉ before) ∧
          shiftedTerminals moves = tokens.takeWhile (· ≠ .eoi) ∧
          RightmostDerivation g.rules (reducedRules moves).reverse [.nonterminal g.start]
            ((tokens.takeWhile (· ≠ .eoi)).map .terminal) := by
  have augmented := augmented_of_defined defined fits
  obtain ⟨built, constructed⟩ := augmented.exists_construct
  refine ⟨built, constructed, fun tokens fuel moves finished => ?_⟩
  obtain ⟨accepted, consumed, derivation⟩ :=
    Parser.run_sound augmented constructed .initial finished
  exact ⟨accepted, consumed, by rwa [consumed] at derivation⟩

/-- An ambiguous grammar and a sentence whose else branch goes with the inner condition. -/
theorem Grammar.parser_sound_danglingElse :
    let g := Examples.grammarOf Examples.danglingElse
    let tokens : List TerminalId := [3, 3, 5, 4, 5]
    defineAccepted Examples.danglingElse = .ok g ∧ NumbersFit Examples.danglingElse ∧
      ∃ built, g.construct = .ok built ∧ ∃ moves,
        built.table.parse? g 11 tokens = some (.ok moves) ∧ shiftedTerminals moves = tokens ∧
        RightmostDerivation g.rules (reducedRules moves).reverse [.nonterminal g.start]
          (tokens.map .terminal) := by
  intro g tokens
  have defined : defineAccepted Examples.danglingElse = .ok g := rfl
  have fits : NumbersFit Examples.danglingElse := by decide +kernel
  obtain ⟨built, constructed, sound⟩ := parser_sound defined fits
  have run : g.construct.toOption.map (fun b => b.table.parse? g 11 tokens) =
      some (some (.ok [.shift 3, .shift 3, .shift 5, .reduce 3, .shift 4, .shift 5, .reduce 3,
        .reduce 2, .reduce 1, .accept])) := by
    decide +kernel
  rw [constructed] at run
  have finished := Option.some.inj run
  obtain ⟨_, consumed, derivation⟩ := sound tokens 11 _ finished
  exact ⟨defined, fits, built, constructed, _, finished, consumed, derivation⟩

end CanonicalLR
