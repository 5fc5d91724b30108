import CanonicalLR.Parser.Course
import CanonicalLR.Proofs.ParserSoundness

/-!
# Parsers do not get lost

Wherever the moves of a parser lead, its stack is a path of the automaton from the state in which
parsing begins, and the string that the stack spells derives the terminals that have been shifted.
Such a parser can always carry out a reduction that its table tells it: the stack is deep enough
for the right side, since the complete item has read all of it, and the state underneath can move on
the left side, since one of its items predicted the rule. So there is one way to fail, which is that
the table has no action on the next terminal, however its conflicts were settled.
-/
namespace CanonicalLR

namespace Valid

variable {g : Grammar} {w : List Symbol} {i : Item}

/-- Before an item of a rule other than the first has read anything, the rule was predicted, unless
the marker has gone back to the front. -/
theorem exists_predictor (valid : Valid g w i) (proper : i.rule ≠ .accept)
    (short : (i.right g).length < markerNumbers) :
    ∃ v j, w = v ++ i.before g ∧ Valid g v j ∧
      j.next? g = some (.nonterminal (g.rule i.rule).left) := by
  -- What the item reads is read after the string for which the rule was predicted.
  induction valid with
  | start => exact absurd rfl proper
  | @predict w j q b valid known next _ _ =>
    exact ⟨w, j, by simp [Item.before], valid, next⟩
  | @advance w i x _ next ih =>
    obtain ⟨v, j, rfl, predictor, predicted⟩ := ih proper short
    exact ⟨v, j, by rw [Item.before_advance next short, List.append_assoc], predictor, predicted⟩

/-- A parser that goes back before the right side of a complete item can read the left side. -/
theorem exists_left (valid : Valid g w i) (proper : i.rule ≠ .accept)
    (complete : i.next? g = none) :
    ∃ v, w = v ++ i.right g ∧ ∃ j, Valid g (v ++ [.nonterminal (g.rule i.rule).left]) j := by
  -- A marker that goes back to the front never comes to the end of the right side.
  have short := valid.length_lt_of_complete complete
  obtain ⟨v, j, rfl, predictor, predicted⟩ := valid.exists_predictor proper short
  exact ⟨v, by rw [Item.before_of_complete complete], _, .advance predictor predicted⟩

end Valid

/-- The item has the terminal next, or it is complete and has it as lookahead. -/
def Item.AsksFor (g : Grammar) (i : Item) (t : TerminalId) : Prop :=
  i.next? g = some (.terminal t) ∨ i.next? g = none ∧ i.lookahead = t

namespace Parser

variable {g : Grammar} {built : Construction} {u : List Symbol} {c c' : Config} {e : ParseError}
  {move : Move} {moves : List Move} {tokens : List TerminalId}

/-! ### What a step can fail for -/

/-- A reduction that the table tells a parser succeeds. -/
theorem exists_step_of_reduce (wf : g.WellFormed) (constructed : g.construct = .ok built)
    {s : StateId} {below : List StateId} (stack : c.stack = s :: below)
    (spells : Spells (.ofGrammar g) u c.stack) {rule : RuleId}
    (action : built.table.action s c.lookahead = some (.reduce rule)) :
    ∃ stack', reduce g built.table c rule = .next (.reduce rule) { c with stack := stack' } := by
  obtain ⟨state, found, reduces⟩ := wf.reduces_of_reduce constructed action
  have proper := wf.ne_accept_of_reduce constructed action
  -- Nothing is known of the symbols but that an item of the rule is complete.
  rw [stack] at spells
  obtain ⟨i, valid, complete, _, rfl⟩ := valid_of_reduces wf spells found reduces
  obtain ⟨v, rfl, readable⟩ := valid.exists_left proper complete
  rw [← stack] at spells
  obtain ⟨stack', reduced, _⟩ := exists_reduce wf constructed spells readable
  exact ⟨stack', reduced⟩

/-- A parser fails only where its table has no action on the next terminal. -/
theorem eq_unexpectedToken_of_fail (wf : g.WellFormed) (constructed : g.construct = .ok built)
    (spells : Spells (.ofGrammar g) u c.stack) (failed : step g built.table c = .fail e) :
    ∃ s below, c.stack = s :: below ∧ built.table.action s c.lookahead = none ∧
      e = .unexpectedToken s (g.terminalName c.lookahead) := by
  obtain ⟨s, below, stack⟩ := spells.exists_top
  simp only [step, stack] at failed
  split at failed
  next => cases failed
  next rule action =>
    obtain ⟨stack', reduced⟩ := exists_step_of_reduce wf constructed stack spells action
    rw [reduced] at failed
    cases failed
  next => cases failed
  next action =>
    cases failed
    exact ⟨s, below, stack, action, rfl⟩

/-- An action is in a cell because an item asks for it. -/
theorem exists_asksFor_of_action (wf : g.WellFormed) (constructed : g.construct = .ok built)
    {s : StateId} {below : List StateId} (spells : Spells (.ofGrammar g) u (s :: below))
    {t : TerminalId} {act : Action} (action : built.table.action s t = some act) :
    ∃ i, Valid g u i ∧ i.AsksFor g t := by
  rcases wf.action_cases constructed action with
    ⟨target, _, moved⟩ | ⟨rule, state, _, found, reduces⟩
  · -- The string with the terminal after it can be read, so an item has the terminal next.
    have onward := (Spells.push spells moved).walk
    obtain ⟨_, readable⟩ := wf.exists_walk_iff.mp ⟨target, onward⟩
    obtain ⟨i, valid, next⟩ := readable.exists_next
    exact ⟨i, valid, .inl next⟩
  · obtain ⟨i, valid, complete, lookahead, _⟩ := valid_of_reduces wf spells found reduces
    exact ⟨i, valid, .inr ⟨complete, lookahead⟩⟩

/-- A parser fails on a terminal that no valid item asks for. -/
theorem exists_fail_of_unasked (wf : g.WellFormed) (constructed : g.construct = .ok built)
    (spells : Spells (.ofGrammar g) u c.stack)
    (unasked : ∀ i, Valid g u i → ¬ i.AsksFor g c.lookahead) :
    ∃ e, step g built.table c = .fail e := by
  obtain ⟨s, below, stack⟩ := spells.exists_top
  have none : built.table.action s c.lookahead = none := by
    refine Option.eq_none_iff_forall_ne_some.mpr fun act action => ?_
    obtain ⟨i, valid, asks⟩ := exists_asksFor_of_action wf constructed (stack ▸ spells) action
    exact unasked i valid asks
  refine ⟨.unexpectedToken s (g.terminalName c.lookahead), ?_⟩
  simp only [step, stack, none]

/-! ### What holds on the way -/

/-- The stack spells a string that derives the terminals shifted so far, and the others are left. -/
structure Reads (g : Grammar) (tokens : List TerminalId) (moves : List Move) (c : Config)
    (u : List Symbol) : Prop where
  spells : Spells (.ofGrammar g) u c.stack
  shifted : tokens = shiftedTerminals moves ++ c.input
  derives : Derives g.rules u ((shiftedTerminals moves).map .terminal)

theorem initial_reads (g : Grammar) (tokens : List TerminalId) :
    Reads g tokens [] (.initial tokens) [] where
  spells := .initial
  shifted := rfl
  derives := .refl []

theorem step_reads (wf : g.WellFormed) (constructed : g.construct = .ok built)
    (reads : Reads g tokens moves c u) (stepped : step g built.table c = .next move c') :
    ∃ u', Reads g tokens (moves ++ [move]) c' u' := by
  rcases step_cases wf constructed reads.spells stepped with
    ⟨t, rfl, _, input, spells⟩ | ⟨id, r, v, rfl, found, rfl, input, spells⟩
  · refine ⟨u ++ [.terminal t], spells, ?_, ?_⟩
    · rw [reads.shifted, input]
      simp
    · simpa using reads.derives.append (.refl [.terminal t])
  · refine ⟨v ++ [.nonterminal r.left], spells, ?_, ?_⟩
    · rw [reads.shifted, input]
      simp
    · -- The left side derives what the right side does.
      have exchanged := (Derives.refl v).append (.of_rule (List.mem_of_getElem? found))
      simpa using exchanged.trans reads.derives

/-- Whatever moves a parser makes, it has read what it has shifted. -/
theorem exists_reads (wf : g.WellFormed) (constructed : g.construct = .ok built)
    (proceeds : Proceeds g built.table (.initial tokens) moves c) :
    ∃ u, Reads g tokens moves c u := by
  generalize start : Config.initial tokens = c₀ at proceeds
  induction proceeds with
  | start => exact ⟨[], start ▸ initial_reads g tokens⟩
  | step _ stepped ih =>
    obtain ⟨u, reads⟩ := ih
    exact step_reads wf constructed reads stepped

/-- The next terminal is the end of the input or one of the given ones. -/
theorem Reads.lookahead_known (wf : g.WellFormed) (reads : Reads g tokens moves c u)
    (known : ∀ t ∈ tokens, t < g.terminals.length) : c.lookahead < g.terminals.length := by
  cases input : c.input with
  | nil =>
    rw [Config.lookahead, input]
    exact wf.eoi_known
  | cons t rest =>
    rw [Config.lookahead, input]
    exact known t (by simp [reads.shifted, input])

end Parser

namespace Grammar

variable {ds : List Declaration} {g : Grammar}

end Grammar

end CanonicalLR
