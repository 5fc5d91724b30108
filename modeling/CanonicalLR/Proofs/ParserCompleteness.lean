import CanonicalLR.Proofs.ParserSafety
import CanonicalLR.Proofs.ViablePrefixes

/-!
# Parsing every sentence

If no cell of the table is contested, the parser finds the rightmost derivation of every sentence,
from its last step to its first. Before each step of the derivation it has read a part of what
stands up to the end of the right side; the terminals that are missing can be shifted, because a
valid item has each of them next, and then the right side can be reduced, because its complete
item is valid and the terminals after it begin with the item's lookahead. Each move is the only one
that the items ask for, so the derivation is the only one.
-/
namespace CanonicalLR

namespace Parser

variable {g : Grammar} {built : Construction} {u v : List Symbol} {stack : List StateId}

/-- A terminal that a valid item has next is shifted. -/
theorem step_of_next (wf : g.WellFormed) (constructed : g.construct = .ok built)
    (uncontested : (Automaton.ofGrammar g).Uncontested g) (spells : Spells (.ofGrammar g) u stack)
    {i : Item} {t : TerminalId} (valid : Valid g u i) (next : i.next? g = some (.terminal t))
    (input : List TerminalId) :
    ∃ stack', step g built.table ⟨stack, t :: input⟩ = .next (.shift t) ⟨stack', input⟩ ∧
      Spells (.ofGrammar g) (u ++ [.terminal t]) stack' := by
  obtain ⟨s, below, rfl⟩ := spells.exists_top
  obtain ⟨state, found, items⟩ := wf.state_of_walk spells.walk
  have shifts : state.Shifts g t := ⟨i, (items i).mpr valid, next⟩
  have alone := uncontested state (List.mem_of_getElem? found) t
  obtain ⟨target, action⟩ := wf.action_of_shifts constructed found alone shifts
  have moved := wf.goto_of_shift constructed action
  refine ⟨target :: s :: below, ?_, .push spells moved⟩
  simp [step, Config.lookahead, action]

/-- What a valid complete item asks for on the lookahead is what the parser does. -/
theorem action_of_complete (wf : g.WellFormed) (constructed : g.construct = .ok built)
    (uncontested : (Automaton.ofGrammar g).Uncontested g) {s : StateId} {below : List StateId}
    (spells : Spells (.ofGrammar g) u (s :: below)) {i : Item} (valid : Valid g u i)
    (complete : i.next? g = none) (at_end : i.rule = .accept → i.lookahead = .eoi) :
    built.table.action s i.lookahead = some (.completing i.rule) := by
  obtain ⟨state, found, items⟩ := wf.state_of_walk spells.walk
  have reduces : state.Reduces g i.lookahead i.rule :=
    ⟨i, (items i).mpr valid, complete, rfl, rfl, at_end⟩
  have alone := uncontested state (List.mem_of_getElem? found) i.lookahead
  exact wf.action_of_reduces constructed found alone reduces

/-- A right side at the end of the string is reduced if its item has the lookahead and the left side
can be read in its place. -/
theorem step_of_complete (wf : g.WellFormed) (constructed : g.construct = .ok built)
    (uncontested : (Automaton.ofGrammar g).Uncontested g) {id : RuleId} {r : Rule}
    (found : g.rules[id]? = some r) (proper : id ≠ .accept)
    (spells : Spells (.ofGrammar g) (v ++ r.right) stack) {input : List TerminalId}
    (valid : Valid g (v ++ r.right) ⟨id, r.right.length, input.headD .eoi⟩)
    (readable : ∃ i, Valid g (v ++ [.nonterminal r.left]) i) :
    ∃ stack', step g built.table ⟨stack, input⟩ = .next (.reduce id) ⟨stack', input⟩ ∧
      Spells (.ofGrammar g) (v ++ [.nonterminal r.left]) stack' := by
  obtain ⟨s, below, rfl⟩ := spells.exists_top
  have complete : Item.next? g ⟨id, r.right.length, input.headD .eoi⟩ = none := by
    simp [Item.next?, Item.right, Grammar.rule_of_getElem? found]
  have action := action_of_complete wf constructed uncontested spells valid complete
    fun accepting => absurd accepting proper
  rw [← Grammar.rule_of_getElem? found] at spells readable ⊢
  obtain ⟨stack', reduced, onward⟩ := exists_reduce wf constructed spells readable
    (c := ⟨s :: below, input⟩)
  refine ⟨stack', ?_, onward⟩
  rw [← reduced]
  rw [Action.completing_eq_reduce_iff.mpr ⟨rfl, proper⟩] at action
  simp only [step, Config.lookahead, action]

/-- The start symbol is accepted at the end of the input. -/
theorem step_of_start (augmented : g.Augmented) (fits : g.MarkersFit)
    (constructed : g.construct = .ok built) (uncontested : (Automaton.ofGrammar g).Uncontested g)
    (spells : Spells (.ofGrammar g) [.nonterminal g.start] stack) :
    step g built.table ⟨stack, []⟩ = .accept := by
  obtain ⟨s, below, rfl⟩ := spells.exists_top
  have valid : Valid g [.nonterminal g.start] ⟨.accept, 1, .eoi⟩ :=
    fits.valid_of_read (v := []) (y := []) augmented.accepting rfl .start
  have complete : Item.next? g ⟨.accept, 1, .eoi⟩ = none := by
    rw [Item.next?, Item.right, augmented.rule_accept]
    rfl
  have action := action_of_complete augmented.toWellFormed constructed uncontested spells valid
    complete fun _ => rfl
  rw [Action.completing_eq_accept_iff.mpr rfl] at action
  simp [step, Config.lookahead, action]

end Parser

/-! ### Sentential forms -/

namespace Grammar

variable {g : Grammar} {ids : List RuleId}

/-- Every derivation from the start symbol is one from the reserved nonterminal. -/
theorem Augmented.derivation_from_start (augmented : g.Augmented) {u : List Symbol}
    (derivation : RightmostDerivation g.rules ids [.nonterminal g.start] u) :
    RightmostDerivation g.rules (.accept :: ids) [.nonterminal .start] u := by
  have onward : RightmostDerivation g.rules (.accept :: ids)
      ([] ++ .nonterminal (Rule.accepting g.start).left ::
        ([] : List TerminalId).map .terminal) u :=
    .cons augmented.accepting (by simpa [Rule.accepting] using derivation)
  exact onward

/-- The last step of a rightmost derivation does not end before the last nonterminal that it
leaves. -/
theorem exists_after_last_nonterminal {u x v : List Symbol} {n : NonterminalId}
    {z after : List TerminalId}
    (whole : u ++ x ++ after.map .terminal = v ++ .nonterminal n :: z.map .terminal) :
    ∃ y : List TerminalId, u ++ x = v ++ [.nonterminal n] ++ y.map .terminal ∧ z = y ++ after := by
  obtain ⟨rest, front, back⟩ : ∃ rest, u ++ x = v ++ [.nonterminal n] ++ rest ∧
      z.map .terminal = rest ++ after.map Symbol.terminal := by
    rcases nonterminal_before_terminals whole with ⟨m, rfl, back⟩ | ⟨x', m, rfl, rfl, back⟩
    · exact ⟨m ++ x, by simp, back⟩
    · exact ⟨m, by simp, back⟩
  obtain ⟨y, after', rfl, rfl, same⟩ := List.map_eq_append_iff.mp back
  obtain rfl := eq_of_map_terminal same
  exact ⟨y, front, rfl⟩

/-- The symbols up to the last nonterminal of a sentential form can be read. -/
theorem Augmented.exists_valid_of_sentential (augmented : g.Augmented) (fits : g.MarkersFit)
    {v : List Symbol} {n : NonterminalId} {z : List TerminalId}
    (derivation : RightmostDerivation g.rules ids [.nonterminal g.start]
      (v ++ .nonterminal n :: z.map .terminal)) : ∃ i, Valid g (v ++ [.nonterminal n]) i := by
  have from_start := augmented.derivation_from_start derivation
  obtain ⟨earlier, last, split⟩ : ∃ earlier last, RuleId.accept :: ids = earlier ++ [last] :=
    ⟨_, _, (List.dropLast_concat_getLast (List.cons_ne_nil RuleId.accept ids)).symm⟩
  -- With rule 0 in front there is a last step, and its complete item is valid.
  rw [split] at from_start
  obtain ⟨m, before, step⟩ := RightmostDerivation.append_iff.mp from_start
  obtain ⟨r, u, after, found, rfl, whole⟩ := RightmostDerivation.singleton_iff.mp step
  have complete := augmented.valid_of_exchanges fits (exchanges_of found before)
    (List.append_nil r.right).symm
  obtain ⟨y, front, _⟩ := exists_after_last_nonterminal whole.symm
  rw [front] at complete
  exact exists_valid_of_append ⟨_, complete⟩

/-- Unless it is itself the start symbol, the reserved nonterminal is in no sentential form. -/
theorem Augmented.start_not_mem_sentential (augmented : g.Augmented) (proper : g.start ≠ .start)
    {u : List Symbol} (derivation : Derives g.rules [.nonterminal g.start] u) :
    .nonterminal .start ∉ u := by
  intro member
  rcases derivation.symbol_mem member with given | ⟨r, rule, mentioned⟩
  · exact proper (Symbol.nonterminal.inj (List.mem_singleton.mp given)).symm
  · obtain ⟨id, found⟩ := List.getElem?_of_mem rule
    obtain rfl := augmented.accept_of_right found mentioned
    obtain rfl := augmented.eq_accepting found
    exact proper (Symbol.nonterminal.inj (List.mem_singleton.mp mentioned)).symm

/-- If the reserved nonterminal is the start symbol, it derives nothing else. -/
theorem Augmented.eq_of_derives_of_degenerate (augmented : g.Augmented)
    (degenerate : g.start = .start) {u : List Symbol}
    (derivation : Derives g.rules [.nonterminal g.start] u) : u = [.nonterminal g.start] := by
  induction derivation with
  | refl => rfl
  | tail _ step ih =>
    subst ih
    generalize whole : [Symbol.nonterminal g.start] = u at step
    obtain @⟨r, rule, before, after⟩ := step
    obtain ⟨rfl, left, rfl⟩ := eq_nil_of_singleton whole
    obtain ⟨id, found⟩ := List.getElem?_of_mem rule
    obtain rfl := augmented.accept_of_left found ((Symbol.nonterminal.inj left).trans degenerate)
    obtain rfl := augmented.eq_accepting found
    simp [Rule.accepting, degenerate]

theorem Augmented.proper_of_sentence (augmented : g.Augmented) {w : List TerminalId}
    (sentence : g.Sentence w) : g.start ≠ .start := by
  intro degenerate
  have same := augmented.eq_of_derives_of_degenerate degenerate sentence
  refine nonterminal_not_mem_terminals (n := g.start) (w := w) ?_
  simp [same]

end Grammar

/-! ### Runs -/

namespace Parser

variable {g : Grammar} {built : Construction} {u v : List Symbol} {stack : List StateId}
  {ids : List RuleId} {z : List TerminalId}

/-- While something is missing up to the end of a string with valid items, it is shifted. -/
theorem exists_proceeds_of_shifts (wf : g.WellFormed) (constructed : g.construct = .ok built)
    (uncontested : (Automaton.ofGrammar g).Uncontested g) {y : List TerminalId}
    (spells : Spells (.ofGrammar g) u stack) (readable : ∃ i, Valid g (u ++ y.map .terminal) i)
    (z : List TerminalId) :
    ∃ stack', Spells (.ofGrammar g) (u ++ y.map .terminal) stack' ∧
      Proceeds g built.table ⟨stack, y ++ z⟩ (y.map .shift) ⟨stack', z⟩ := by
  -- Each terminal is next in an item that is valid for what has been read.
  induction y generalizing u stack with
  | nil => exact ⟨stack, by simpa using spells, .start _⟩
  | cons t y ih =>
    have whole : u ++ (t :: y).map .terminal = u ++ [.terminal t] ++ y.map Symbol.terminal := by
      simp
    rw [whole] at readable ⊢
    obtain ⟨i, valid⟩ := Grammar.exists_valid_of_append readable
    obtain ⟨j, earlier, next⟩ := valid.exists_next
    obtain ⟨stack₁, stepped, spells₁⟩ :=
      step_of_next wf constructed uncontested spells earlier next (y ++ z)
    obtain ⟨stack', spells', onward⟩ := ih spells₁ readable
    exact ⟨stack', spells', onward.cons stepped⟩

/-- The last step of a derivation is undone: the rest of the right side is shifted and reduced, and
the parser goes on with the derivation before the step. -/
theorem exists_run_of_exchange (augmented : g.Augmented) (fits : g.MarkersFit)
    (constructed : g.construct = .ok built) (uncontested : (Automaton.ofGrammar g).Uncontested g)
    (proper : g.start ≠ .start)
    {id : RuleId} {r : Rule} {y : List TerminalId} (found : g.rules[id]? = some r)
    (derivation : RightmostDerivation g.rules ids [.nonterminal g.start]
      (v ++ .nonterminal r.left :: z.map .terminal))
    (spells : Spells (.ofGrammar g) u stack) (front : v ++ r.right = u ++ y.map .terminal)
    (later : ∀ stack', Spells (.ofGrammar g) (v ++ [.nonterminal r.left]) stack' →
      ∃ fuel moves, run g built.table fuel ⟨stack', z⟩ = some (.ok moves) ∧
        (reducedRules moves).reverse = ids) :
    ∃ fuel moves, run g built.table fuel ⟨stack, y ++ z⟩ = some (.ok moves) ∧
      (reducedRules moves).reverse = ids ++ [id] := by
  have wf := augmented.toWellFormed
  -- Rule 0 makes no step, for its left side is in no sentential form.
  have not_accept : id ≠ .accept := by
    rintro rfl
    obtain rfl := augmented.eq_accepting found
    exact augmented.start_not_mem_sentential proper derivation.derives (by simp [Rule.accepting])
  have exchanges := Grammar.exchanges_of found (augmented.derivation_from_start derivation)
  have complete := augmented.valid_of_exchanges fits exchanges (List.append_nil r.right).symm
  obtain ⟨stack₁, spells₁, shifted⟩ := exists_proceeds_of_shifts wf constructed uncontested
    spells ⟨_, front ▸ complete⟩ z
  rw [← front] at spells₁
  obtain ⟨stack₂, stepped, spells₂⟩ := step_of_complete wf constructed uncontested found not_accept
    spells₁ complete (augmented.exists_valid_of_sentential fits derivation)
  obtain ⟨fuel, moves, finished, rules⟩ := later stack₂ spells₂
  have run' := (shifted.step stepped).run_eq fuel
  rw [finished] at run'
  refine ⟨_, _, run', ?_⟩
  simp [rules]

/-- From a stack that spells a sentential form up to its last nonterminal, the parser undoes the
derivation of the form and accepts. -/
theorem exists_run_of_derivation (augmented : g.Augmented) (fits : g.MarkersFit)
    (constructed : g.construct = .ok built) (uncontested : (Automaton.ofGrammar g).Uncontested g)
    (proper : g.start ≠ .start)
    {n : NonterminalId} (derivation : RightmostDerivation g.rules ids [.nonterminal g.start]
      (v ++ .nonterminal n :: z.map .terminal))
    (spells : Spells (.ofGrammar g) (v ++ [.nonterminal n]) stack) :
    ∃ fuel moves, run g built.table fuel ⟨stack, z⟩ = some (.ok moves) ∧
      (reducedRules moves).reverse = ids := by
  -- By induction on the derivation from its last step; only the start symbol is left at the end.
  induction ids using List.reverseRecOn generalizing v n z stack with
  | nil =>
    obtain ⟨rfl, last, nothing⟩ := eq_nil_of_singleton (RightmostDerivation.nil_iff.mp derivation)
    obtain rfl : z = [] := List.map_eq_nil_iff.mp nothing
    rw [List.nil_append, last] at spells
    have accepts := step_of_start augmented fits constructed uncontested spells
    exact ⟨1, [.accept], by simp [run, accepts], rfl⟩
  | append_singleton ids id ih =>
    obtain ⟨m, before, step⟩ := RightmostDerivation.append_iff.mp derivation
    obtain ⟨r, u, after, found, rfl, whole⟩ := RightmostDerivation.singleton_iff.mp step
    obtain ⟨y, front, rfl⟩ := Grammar.exists_after_last_nonterminal whole.symm
    exact exists_run_of_exchange augmented fits constructed uncontested proper found before spells
      front fun stack' spells' => ih before spells'

/-- The rules of every rightmost derivation of a sentence are the reductions of an accepting run. -/
theorem exists_run_of_sentence (augmented : g.Augmented) (fits : g.MarkersFit)
    (constructed : g.construct = .ok built) (uncontested : (Automaton.ofGrammar g).Uncontested g)
    {w : List TerminalId}
    (derivation : RightmostDerivation g.rules ids [.nonterminal g.start] (w.map .terminal)) :
    ∃ fuel moves, run g built.table fuel (.initial w) = some (.ok moves) ∧
      (reducedRules moves).reverse = ids := by
  have proper := augmented.proper_of_sentence derivation.derives
  rcases List.eq_nil_or_concat ids with rfl | ⟨earlier, id, rfl⟩
  · have same := RightmostDerivation.nil_iff.mp derivation
    refine absurd ?_ (nonterminal_not_mem_terminals (n := g.start) (w := w))
    simp [← same]
  · rw [List.concat_eq_append] at derivation ⊢
    obtain ⟨m, before, step⟩ := RightmostDerivation.append_iff.mp derivation
    obtain ⟨r, u, after, found, rfl, whole⟩ := RightmostDerivation.singleton_iff.mp step
    obtain ⟨y, after', rfl, front, same⟩ := List.map_eq_append_iff.mp whole
    obtain rfl := eq_of_map_terminal same
    exact exists_run_of_exchange augmented fits constructed uncontested proper found before .initial
      front.symm fun stack' spells' =>
        exists_run_of_derivation augmented fits constructed uncontested proper before spells'

end Parser

/-! ### Where numbers run out -/

namespace Examples

variable {g : Grammar} {n k : Nat} {i : Item} {t : TerminalId}

/-- After any number of one terminal, only that terminal is asked for. -/
theorem Repeats.eq_of_asksFor (repeats : Repeats g n) (long : markerNumbers ≤ n) (positive : 0 < k)
    (valid : Valid g (List.replicate k (.terminal 3)) i) (asks : i.AsksFor g t) : t = 3 := by
  obtain rfl := (repeats.valid_replicate_iff long Nat.zero_lt_two positive).mp valid
  have next := repeats.next?_repetition (a := .eoi) Nat.zero_lt_two (marker_lt_of_long long k)
  rcases asks with terminal | ⟨complete, _⟩
  · rw [next] at terminal
    exact (Symbol.terminal.inj (Option.some.inj terminal)).symm
  · rw [next] at complete
    cases complete

/-- In the beginning only the terminal of rule 0 is asked for. -/
theorem Fronted.eq_of_asksFor (fronted : Fronted g n) (valid : Valid g [] i)
    (asks : i.AsksFor g t) : t = n + 4 := by
  rcases fronted.valid_iff.mp valid with ⟨_, rfl⟩ | ⟨nothing, _⟩
  · rcases asks with terminal | ⟨complete, _⟩
    · rw [fronted.next?_front] at terminal
      exact (Symbol.terminal.inj (Option.some.inj terminal)).symm
    · rw [fronted.next?_front] at complete
      cases complete
  · cases nothing

/-- However long a string of one terminal is, it is shifted. -/
theorem Repeats.exists_proceeds (repeats : Repeats g n) (long : markerNumbers ≤ n)
    {built : Construction} (constructed : g.construct = .ok built) (positive : 0 < k)
    (z : List TerminalId) :
    ∃ stack, Parser.Spells (.ofGrammar g) (List.replicate k (.terminal 3)) stack ∧
      Parser.Proceeds g built.table (.initial (List.replicate k 3 ++ z))
        ((List.replicate k 3).map .shift) ⟨stack, z⟩ := by
  have free := repeats.conflictFree_of_alone (repeats.completesAlone long)
  have valid := (repeats.valid_replicate_iff long Nat.zero_lt_two positive).mpr rfl
  have shifted := Parser.exists_proceeds_of_shifts repeats.toWellFormed constructed free.uncontested
    (y := List.replicate k 3) .initial ⟨_, by rwa [List.map_replicate]⟩ z
  rwa [List.map_replicate] at shifted

end Examples

/-! ### Grammars -/

namespace Grammar

variable {ds : List Declaration} {g : Grammar}

end Grammar

end CanonicalLR
