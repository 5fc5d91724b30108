import CanonicalLR.Proofs.ConflictResolution
import CanonicalLR.Proofs.ParserSafety
import CanonicalLR.Proofs.ViablePrefixes

/-!
# Steps that items ask for

Where an item that is valid for what has been read has the next terminal after its marker, or is
complete and has it as its lookahead, a parser takes some step, and that step can be read off the
string: it accepts the start symbol, shifts the terminal behind what an item has read, or takes a
right side off the end. To find such items it is enough to see where the rules of a nonterminal are
predicted.
-/
namespace CanonicalLR

namespace Grammar

variable {g : Grammar}

/-! ### Predictions -/

/-- Every rule for the nonterminal is predicted with the terminal after the string. -/
def PredictsAt (g : Grammar) (n : NonterminalId) (u : List Symbol) (b : TerminalId) : Prop :=
  ∀ (q : RuleId) (r : Rule), g.rules[q]? = some r → r.left = n → Valid g u ⟨q, 0, b⟩

/-- Where a rule has been read up to a nonterminal, the rules for that one are predicted. -/
theorem MarkersFit.predictsAt_of_read (fits : g.MarkersFit) {q : RuleId} {r : Rule}
    {n : NonterminalId} {u x y : List Symbol} {t b : TerminalId} (found : g.rules[q]? = some r)
    (valid : Valid g u ⟨q, 0, t⟩) (right : r.right = x ++ .nonterminal n :: y)
    (begins : Begins g.rules (y ++ [.terminal t]) b) : g.PredictsAt n (u ++ x) b := by
  intro q' r' found' left
  have read := fits.valid_of_read found right valid
  obtain ⟨next, after⟩ := next?_of_right (t := t) found right
  refine .predict read (List.getElem?_eq_some_iff.mp found').1 ?_ ?_
  · rw [next, rule_of_getElem? found', left]
  · rwa [after]

/-- An item whose right side has been read is complete. -/
theorem MarkersFit.exists_complete (fits : g.MarkersFit) {q : RuleId} {r : Rule}
    {v : List Symbol} {t : TerminalId} (found : g.rules[q]? = some r)
    (valid : Valid g v ⟨q, 0, t⟩) :
    ∃ i, Valid g (v ++ r.right) i ∧ i.next? g = none ∧ i.lookahead = t ∧ i.rule = q :=
  ⟨_, fits.valid_of_read found (List.append_nil r.right).symm valid,
    by simp [Item.next?, Item.right, rule_of_getElem? found], rfl, rfl⟩

end Grammar

namespace Parser

variable {g : Grammar} {built : Construction} {u : List Symbol} {s : StateId}
  {below : List StateId} {input : List TerminalId}

/-! ### Steps -/

/-- Some item that is valid for the string asks for an action on the terminal. -/
def Asked (g : Grammar) (u : List Symbol) (t : TerminalId) : Prop :=
  ∃ i, Valid g u i ∧ (i.next? g = some (.terminal t) ∨
    i.next? g = none ∧ i.lookahead = t ∧ (i.rule = .accept → t = .eoi))

/-- Where the rules of a nonterminal are predicted, the right side of any of them can be read, and
what it was predicted with is asked for then. -/
theorem asked_of_predicted (fits : g.MarkersFit) {q : RuleId} {r : Rule} {n : NonterminalId}
    {b : TerminalId} (found : g.rules[q]? = some r) (proper : q ≠ .accept) (left : r.left = n)
    (predicts : g.PredictsAt n u b) : Asked g (u ++ r.right) b := by
  obtain ⟨i, valid, complete, lookahead, rfl⟩ :=
    fits.exists_complete found (predicts q r found left)
  exact ⟨i, valid, .inr ⟨complete, lookahead, fun same => absurd same proper⟩⟩

/-- A terminal in a right side is asked for when what is before it has been read. -/
theorem asked_of_read (fits : g.MarkersFit) {q : RuleId} {r : Rule} {n : NonterminalId}
    {b t : TerminalId} {x y : List Symbol} (found : g.rules[q]? = some r) (left : r.left = n)
    (predicts : g.PredictsAt n u b) (right : r.right = x ++ .terminal t :: y) :
    Asked g (u ++ x) t :=
  ⟨_, fits.valid_of_read found right (predicts q r found left),
    .inl (Grammar.next?_of_right found right).1⟩

variable (augmented : g.Augmented) (constructed : g.construct = .ok built)
  (spells : Spells (.ofGrammar g) u (s :: below))

include augmented constructed spells

theorem exists_action_of_asked {t : TerminalId} (asked : Asked g u t) :
    ∃ act, built.table.action s t = some act := by
  have wf := augmented.toWellFormed
  obtain ⟨state, found, items⟩ := wf.state_of_walk spells.walk
  refine (wf.exists_action_iff constructed found).mpr ?_
  obtain ⟨i, valid, next | ⟨complete, lookahead, at_end⟩⟩ := asked
  · exact .inl ⟨i, (items i).mpr valid, next⟩
  · exact .inr ⟨i.rule, i, (items i).mpr valid, complete, lookahead, rfl, at_end⟩

/-- Where an item asks for the next terminal, a parser accepts, shifts the terminal or reduces. -/
theorem step_of_asked (asked : Asked g u (input.headD .eoi)) :
    (u = [.nonterminal g.start] ∧ step g built.table ⟨s :: below, input⟩ = .accept) ∨
    (∃ t rest target j, input = t :: rest ∧ Valid g u j ∧ j.next? g = some (.terminal t) ∧
      built.table.action s t = some (.shift target) ∧
      Spells (.ofGrammar g) (u ++ [.terminal t]) (target :: s :: below) ∧
      step g built.table ⟨s :: below, input⟩ = .next (.shift t) ⟨target :: s :: below, rest⟩) ∨
    ∃ id r v stack', g.rules[id]? = some r ∧ id ≠ .accept ∧ u = v ++ r.right ∧
      built.table.action s (input.headD .eoi) = some (.reduce id) ∧
      Spells (.ofGrammar g) (v ++ [.nonterminal r.left]) stack' ∧
      step g built.table ⟨s :: below, input⟩ = .next (.reduce id) ⟨stack', input⟩ := by
  have wf := augmented.toWellFormed
  obtain ⟨act, action⟩ := exists_action_of_asked augmented constructed spells asked
  cases act with
  | accept =>
    have stepped : step g built.table ⟨s :: below, input⟩ = .accept := by
      simp only [step, Config.lookahead, action]
    exact .inl ⟨(accept_cases augmented constructed (c := ⟨s :: below, input⟩) spells stepped).1,
      stepped⟩
  | shift target =>
    -- An item has the terminal next that is shifted, so the input is not at its end.
    have onward := Spells.push spells (wf.goto_of_shift constructed action)
    obtain ⟨_, readable⟩ := (wf.kernel_of_walk onward.walk).2
    obtain ⟨j, before, next⟩ := readable.exists_next
    cases input with
    | nil => exact absurd rfl (wf.knows_next next).1
    | cons t rest =>
      exact .inr (.inl ⟨t, rest, target, j, rfl, before, next, action, onward,
        by simp only [step, Config.lookahead, action]; rfl⟩)
  | reduce id =>
    have reduced : step g built.table ⟨s :: below, input⟩ =
        reduce g built.table ⟨s :: below, input⟩ id := by
      simp only [step, Config.lookahead, action]
    obtain ⟨stack', stepped⟩ := exists_step_of_reduce wf constructed rfl
      (c := ⟨s :: below, input⟩) spells action
    rw [← reduced] at stepped
    rcases step_cases wf constructed (c := ⟨s :: below, input⟩) spells stepped with
      ⟨_, other, _⟩ | ⟨_, r, v, same, found, whole, _, onward⟩
    · cases other
    · cases same
      have proper := wf.ne_accept_of_reduce constructed action
      exact .inr (.inr ⟨_, r, v, stack', found, proper, whole, action, onward, stepped⟩)

end Parser

end CanonicalLR
