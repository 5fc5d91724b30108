import CanonicalLR.Proofs.ParserCompleteness

/-!
# Errors are found at once

If no nonterminal is unproductive, each valid item can be completed to a sentence: what the stack
spells derives the terminals shifted so far, what the item has still to read derives some terminals,
and those that a rightmost derivation leaves behind the right side begin with the lookahead. An
action in a cell is always one that an item asks for. So a parser moves only if some sentence goes
on with the next terminal, and an error is found before anything is done on the terminal that
cannot follow, whichever action won in the cells on the way.
-/
namespace CanonicalLR

variable {g : Grammar}

theorem headD_prefix_concat (z : List TerminalId) (t : TerminalId) : [z.headD t] <+: z ++ [t] := by
  cases z with
  | nil => exact List.prefix_rfl
  | cons a z => exact ⟨z ++ [t], rfl⟩

namespace Item

variable {i : Item}

/-- What has still to be read. -/
def rest (g : Grammar) (i : Item) : List Symbol := (i.right g).drop i.marker

theorem rest_of_next {x : Symbol} (next : i.next? g = some x) :
    i.rest g = x :: i.afterNext g := by
  obtain ⟨inside, symbol⟩ := List.getElem?_eq_some_iff.mp next
  rw [rest, List.drop_eq_getElem_cons inside, symbol, afterNext]

theorem rest_advance (fits : g.MarkersFit) {x : Symbol} (next : i.next? g = some x) :
    i.advance.rest g = i.afterNext g := by
  rw [fits.advance_eq next]
  rfl

theorem rest_of_complete (complete : i.next? g = none) : i.rest g = [] :=
  List.drop_eq_nil_of_le (List.getElem?_eq_none_iff.mp complete)

theorem next_of_rest {x : Symbol} {xs : List Symbol} (rest : i.rest g = x :: xs) :
    i.next? g = some x ∧ i.afterNext g = xs := by
  have next : i.next? g = some x := by
    rw [next?, ← List.head?_drop, ← Item.rest, rest, List.head?_cons]
  rw [rest_of_next next] at rest
  exact ⟨next, (List.cons.inj rest).2⟩

theorem rest_front {q : RuleId} {r : Rule} (found : g.rules[q]? = some r) (b : TerminalId) :
    Item.rest g ⟨q, 0, b⟩ = r.right := by
  rw [rest, right, Grammar.rule_of_getElem? found, List.drop_zero]

end Item

namespace Grammar

/-- The reserved nonterminal derives sentences only. -/
theorem Augmented.sentence_of_derives (augmented : g.Augmented) {s : List TerminalId}
    (derivation : Derives g.rules [.nonterminal .start] (s.map .terminal)) : g.Sentence s := by
  rcases derivation.cases_head with same | ⟨m, first, onward⟩
  · refine absurd ?_ (nonterminal_not_mem_terminals (n := .start) (w := s))
    simp [← same]
  · generalize whole : [Symbol.nonterminal .start] = u at first
    obtain @⟨r, rule, before, after⟩ := first
    obtain ⟨rfl, left, rfl⟩ := eq_nil_of_singleton whole
    -- Only rule 0 can make the first step.
    obtain ⟨id, found⟩ := List.getElem?_of_mem rule
    obtain rfl := augmented.accept_of_left found (Symbol.nonterminal.inj left)
    obtain rfl := augmented.eq_accepting found
    exact onward

/-- What a right side derives from its marker on goes on to a sentence. -/
theorem Augmented.exists_sentence_of_valid (augmented : g.Augmented) (fits : g.MarkersFit)
    (productive : g.AllProductive) {w : List Symbol} {i : Item} (valid : Valid g w i)
    {u y : List TerminalId}
    (read : Derives g.rules w (u.map .terminal))
    (rest : Derives g.rules (i.rest g) (y.map .terminal)) :
    ∃ z, g.Sentence (u ++ y ++ z) ∧ i.lookahead = z.headD .eoi := by
  obtain ⟨r, v, z, ⟨found, ⟨ids, derivation⟩, step⟩, _, rfl, lookahead⟩ :=
    augmented.arises_of_valid fits productive valid
  refine ⟨z, augmented.sentence_of_derives ?_, lookahead⟩
  -- The right side of the last step is cut at the marker, and what is in front of it has been read.
  rw [Item.rest, Item.right, rule_of_getElem? found] at rest
  have form := (derivation.trans step).derives
  rw [← List.take_append_drop i.marker r.right] at form
  have onward := (read.append rest).append (.refl (z.map .terminal))
  simpa using form.trans (by simpa using onward)

/-- What a valid item has still to read derives some terminals. -/
theorem exists_terminals_of_rest (productive : g.AllProductive) {i : Item}
    (known : i.rule < g.rules.length) {u : List Symbol} (part : u ⊆ i.rest g) :
    ∃ y : List TerminalId, Derives g.rules u (y.map .terminal) :=
  exists_terminals fun n member =>
    (productive _ (rule_mem known)).2 n (List.mem_of_mem_drop (part member))

/-- The terminals that are shifted while a string with valid items is on the stack begin a
sentence. -/
theorem Augmented.exists_sentence_of_read (augmented : g.Augmented) (fits : g.MarkersFit)
    (productive : g.AllProductive) {w : List Symbol} {i : Item} (valid : Valid g w i)
    {u : List TerminalId} (read : Derives g.rules w (u.map .terminal)) :
    ∃ s, g.Sentence s ∧ u <+: s := by
  obtain ⟨y, rest⟩ := exists_terminals_of_rest productive
    (valid.rule_known augmented.toWellFormed) (List.Subset.refl (i.rest g))
  obtain ⟨z, sentence, _⟩ := augmented.exists_sentence_of_valid fits productive valid read rest
  exact ⟨_, sentence, ⟨y ++ z, by rw [List.append_assoc]⟩⟩

/-- A terminal that a valid item asks for can follow. -/
theorem Augmented.exists_sentence_of_asksFor (augmented : g.Augmented) (fits : g.MarkersFit)
    (productive : g.AllProductive) {w : List Symbol} {i : Item} (valid : Valid g w i)
    {u : List TerminalId} (read : Derives g.rules w (u.map .terminal)) {t : TerminalId}
    (asks : i.AsksFor g t) : ∃ s, g.Sentence s ∧ u ++ [t] <+: s ++ [.eoi] := by
  -- Either the rest begins with the terminal or what comes after an empty rest does.
  obtain ⟨y, rest, first⟩ : ∃ y : List TerminalId, Derives g.rules (i.rest g) (y.map .terminal) ∧
      ∀ z : List TerminalId, i.lookahead = z.headD .eoi → (y ++ z).headD .eoi = t := by
    rcases asks with next | ⟨complete, rfl⟩
    · have split := Item.rest_of_next next
      obtain ⟨y, after⟩ := exists_terminals_of_rest productive
        (valid.rule_known augmented.toWellFormed) (split ▸ List.subset_cons_self _ _)
      exact ⟨t :: y, split ▸ Derives.append (.refl [.terminal t]) after, fun _ _ => rfl⟩
    · exact ⟨[], Item.rest_of_complete complete ▸ .refl [], fun _ lookahead => lookahead.symm⟩
  obtain ⟨z, sentence, lookahead⟩ :=
    augmented.exists_sentence_of_valid fits productive valid read rest
  refine ⟨_, sentence, ?_⟩
  rw [List.append_assoc u, List.append_assoc u, List.prefix_append_right_inj]
  exact first z lookahead ▸ headD_prefix_concat (y ++ z) .eoi

end Grammar

namespace Parser

variable {g : Grammar} {built : Construction} {u : List Symbol} {c : Config} {moves : List Move}
  {tokens : List TerminalId}

/-- A parser that does not fail has an action to take. -/
theorem exists_action_of_not_fail {t : Table} {s : StateId} {below : List StateId}
    (stack : c.stack = s :: below) (moves_on : ∀ e, step g t c ≠ .fail e) :
    ∃ act, t.action s c.lookahead = some act := by
  -- Without one the step would be a failure.
  refine Option.ne_none_iff_exists'.mp fun none => ?_
  exact moves_on (.unexpectedToken s (g.terminalName c.lookahead)) (by simp [step, stack, none])

theorem Reads.exists_sentence (augmented : g.Augmented) (fits : g.MarkersFit)
    (productive : g.AllProductive) (reads : Reads g tokens moves c u) :
    ∃ s, g.Sentence s ∧ shiftedTerminals moves <+: s := by
  obtain ⟨s, below, stack⟩ := reads.spells.exists_top
  have walked := (stack ▸ reads.spells).walk
  obtain ⟨_, valid⟩ := augmented.exists_walk_iff.mp ⟨s, walked⟩
  exact augmented.exists_sentence_of_read fits productive valid reads.derives

/-- A parser moves, or accepts, only where a sentence goes on with the next terminal. -/
theorem Reads.exists_sentence_of_not_fail (augmented : g.Augmented) (fits : g.MarkersFit)
    (productive : g.AllProductive) (constructed : g.construct = .ok built)
    (reads : Reads g tokens moves c u) (moves_on : ∀ e, step g built.table c ≠ .fail e) :
    ∃ s, g.Sentence s ∧ shiftedTerminals moves ++ [c.lookahead] <+: s ++ [.eoi] := by
  obtain ⟨s, below, stack⟩ := reads.spells.exists_top
  obtain ⟨act, action⟩ := exists_action_of_not_fail stack moves_on
  obtain ⟨i, valid, asks⟩ := exists_asksFor_of_action augmented.toWellFormed constructed
    (stack ▸ reads.spells) action
  exact augmented.exists_sentence_of_asksFor fits productive valid reads.derives asks

end Parser

namespace Grammar

variable {ds : List Declaration}

end Grammar

end CanonicalLR
