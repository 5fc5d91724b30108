import CanonicalLR.Proofs.Accepting
import CanonicalLR.Proofs.Pruning

/-!
# What automata and tables mention

The items of an automaton are those of its grammar: each has a rule that was kept, a marker within
the right side, and a lookahead that may really come in the input. A lookahead is handed from item
to item or begins what is derived from the rest of a right side, so but for the end of the input it
is a terminal of some right side, and the marker for the empty string is on none. Edges, actions and
gotos come from items, and so they mention nothing else. In particular what was dropped when the
grammar was finished has left no trace.
-/
namespace CanonicalLR

/-- The rule is the one that is added to every grammar, or a declared one whose left side can be
reached from the start symbol. -/
def Rule.Kept (declared : List Rule) (start : NonterminalId) (r : Rule) : Prop :=
  r = .accepting start ∨ r ∈ declared ∧ Reaches declared start r.left

namespace Grammar

/-- Some rule has the symbol on its right side. -/
def Mentions (g : Grammar) (x : Symbol) : Prop := ∃ r ∈ g.rules, x ∈ r.right

/-- The terminal is the end of the input, or some rule has it on its right side. -/
def Expects (g : Grammar) (t : TerminalId) : Prop := t = .eoi ∨ g.Mentions (.terminal t)

end Grammar

/-- The item is one of the grammar's. -/
structure Item.WellFormed (g : Grammar) (i : Item) : Prop where
  rule_known : i.rule < g.rules.length
  marker_le : i.marker ≤ (i.right g).length
  lookahead_expected : g.Expects i.lookahead
  lookahead_ne_epsilon : i.lookahead ≠ .epsilon

/-- An automaton and a table mention only rules that are kept of the declared ones, and symbols on
their right sides. -/
structure KeepsToRules (declared : List Rule) (g : Grammar) (a : Automaton) (table : Table) :
    Prop where
  rules_kept : ∀ r ∈ g.rules, r.Kept declared g.start
  items : ∀ state ∈ a.states, ∀ i ∈ state.items, i.WellFormed g
  edges : ∀ e ∈ a.edges, g.Mentions e.symbol ∧ e.symbol ≠ .terminal .epsilon ∧
    ∀ n, e.symbol = .nonterminal n → Reaches declared g.start n
  actions : ∀ e ∈ table.actionEntries, g.Expects e.terminal ∧ e.terminal ≠ .epsilon ∧
    ∀ rule, e.action = .reduce rule → rule < g.rules.length
  gotos : ∀ e ∈ table.gotoEntries, g.Mentions (.nonterminal e.nonterminal) ∧
    Reaches declared g.start e.nonterminal

/-! ### Rules -/

theorem Builder.kept_of_mem_rules {b : Builder} {g : Grammar} (finished : b.finish = .ok g)
    {r : Rule} (member : r ∈ g.rules) : r.Kept b.rules g.start := by
  have finishes := finishes_of_finish finished
  rw [finishes.rules] at member
  rcases mem_foldl_addRule member with added | kept
  · exact .inl (List.mem_singleton.mp added)
  · rw [keptRules_eq finishes.start, List.mem_filter, decide_eq_true_eq] at kept
    exact .inr kept

namespace Grammar

variable {g : Grammar} {built : Construction} {declared : List Rule} {w : List Symbol} {i : Item}
  {s u : StateId} {x : Symbol} {t : TerminalId} {act : Action}

/-- Kept rules lead to reachable nonterminals only. -/
theorem reaches_of_mentions (kept : ∀ r ∈ g.rules, r.Kept declared g.start) {n : NonterminalId}
    (mentioned : g.Mentions (.nonterminal n)) : Reaches declared g.start n := by
  obtain ⟨r, member, on_right⟩ := mentioned
  rcases kept r member with rfl | ⟨declared_rule, reached⟩
  · obtain rfl := Symbol.nonterminal.inj (List.mem_singleton.mp on_right)
    exact .start
  · exact .step declared_rule reached on_right

theorem WellFormed.not_mentions_epsilon (wf : g.WellFormed) :
    ¬ g.Mentions (.terminal .epsilon) := by
  rintro ⟨r, member, on_right⟩
  exact wf.epsilon_not_mem member on_right

theorem WellFormed.ne_epsilon_of_expects (wf : g.WellFormed) (expected : g.Expects t) :
    t ≠ .epsilon := by
  rintro rfl
  rcases expected with at_end | mentioned
  · exact absurd at_end (by decide)
  · exact wf.not_mentions_epsilon mentioned

/-! ### Items -/

/-- The symbol after a marker is on the right side of the item's rule. -/
theorem mentions_of_next (next : i.next? g = some x) : g.Mentions x :=
  ⟨_, rule_mem (Item.rule_known_of_next? next), Item.next?_mem next⟩

/-- What begins a string that is derived is a terminal of the string or of some right side. -/
theorem expects_of_begins {v : List Symbol} (given : ∀ t, .terminal t ∈ v → g.Expects t)
    (begins : Begins g.rules v t) : g.Expects t := by
  obtain ⟨rest, derivation⟩ := begins
  rcases derivation.symbol_mem List.mem_cons_self with in_string | mentioned
  · exact given t in_string
  · exact .inr mentioned

theorem expects_of_valid (valid : Valid g w i) : g.Expects i.lookahead := by
  induction valid with
  | start => exact .inl rfl
  | @predict w i q b _ _ next begins ih =>
    -- The rest of the right side is followed by the lookahead of the item that predicts.
    refine expects_of_begins (fun t member => ?_) begins
    rcases List.mem_append.mp member with after | last
    · exact .inr ⟨_, rule_mem (Item.rule_known_of_next? next), List.mem_of_mem_drop after⟩
    · obtain rfl : t = i.lookahead := by simpa using last
      exact ih
  | advance _ _ ih => exact ih

theorem WellFormed.item_wellFormed (wf : g.WellFormed) {state : State}
    (found : (Automaton.ofGrammar g).states[s]? = some state) (member : i ∈ state.items) :
    i.WellFormed g := by
  obtain ⟨w, _, valid⟩ := wf.exists_item_iff.mp ⟨state, found, member⟩
  have expected := expects_of_valid valid
  exact {
    rule_known := valid.rule_known wf
    marker_le := valid.marker_le
    lookahead_expected := expected
    lookahead_ne_epsilon := wf.ne_epsilon_of_expects expected }

/-! ### Edges and entries -/

theorem WellFormed.mentions_of_goto (wf : g.WellFormed)
    (moved : (Automaton.ofGrammar g).goto s x = some u) : g.Mentions x := by
  obtain ⟨kernel, _, departs, _⟩ := wf.goto_eq_some_iff.mp moved
  obtain ⟨i, _, next⟩ := mem_departing.mp departs
  exact mentions_of_next next

/-- An action is on a terminal after a marker or on the lookahead of a complete item. -/
theorem WellFormed.expects_of_action (wf : g.WellFormed) (constructed : g.construct = .ok built)
    (action : built.table.action s t = some act) : g.Expects t := by
  rcases wf.action_cases constructed action with
    ⟨_, _, moved⟩ | ⟨_, state, _, found, i, member, _, rfl, _⟩
  · exact .inr (wf.mentions_of_goto moved)
  · exact (wf.item_wellFormed found member).lookahead_expected

theorem WellFormed.rule_known_of_reduce (wf : g.WellFormed) (constructed : g.construct = .ok built)
    {rule : RuleId} (action : built.table.action s t = some (.reduce rule)) :
    rule < g.rules.length := by
  obtain ⟨state, found, i, member, _, _, rfl, _⟩ := wf.reduces_of_reduce constructed action
  exact (wf.item_wellFormed found member).rule_known

theorem WellFormed.keepsToRules (wf : g.WellFormed) (constructed : g.construct = .ok built)
    (kept : ∀ r ∈ g.rules, r.Kept declared g.start) :
    KeepsToRules declared g (.ofGrammar g) built.table := by
  have rows := wf.nodup_rows constructed
  refine { rules_kept := kept, items := ?_, edges := ?_, actions := ?_, gotos := ?_ }
  · intro state member i inside
    obtain ⟨s, found⟩ := List.getElem?_of_mem member
    exact wf.item_wellFormed found inside
  · intro e edge
    have mentioned := wf.mentions_of_goto (wf.goto_of_mem_edges edge)
    refine ⟨mentioned, ?_, ?_⟩
    · intro same
      exact wf.not_mentions_epsilon (same ▸ mentioned)
    · intro n same
      exact reaches_of_mentions kept (same ▸ mentioned)
  · rintro ⟨s, t, act⟩ listed
    have action := (mem_actionEntries fun row member => (rows row member).1).mp listed
    have expected := wf.expects_of_action constructed action
    refine ⟨expected, wf.ne_epsilon_of_expects expected, ?_⟩
    rintro rule rfl
    exact wf.rule_known_of_reduce constructed action
  · rintro ⟨s, n, u⟩ listed
    have entered := (mem_gotoEntries fun row member => (rows row member).2).mp listed
    have mentioned := wf.mentions_of_goto ((wf.table_goto_iff constructed).mp entered)
    exact ⟨mentioned, reaches_of_mentions kept mentioned⟩

/-- The items, edges and entries that are made of a defined grammar have no rules but those that
were kept, markers within the right sides, and no terminals but those on right sides and the end of
the input. -/
theorem constructions_keep_to_rules {ds : List Declaration} (defined : defineAccepted ds = .ok g) :
    ∃ built, g.construct = .ok built ∧
      KeepsToRules (declaredRules ds) g (.ofGrammar g) built.table := by
  have wf := wellFormed_of_defined defined
  obtain ⟨built, constructed⟩ := wf.exists_construct
  have kept (r : Rule) (member : r ∈ g.rules) := Builder.kept_of_mem_rules defined member
  exact ⟨built, constructed, wf.keepsToRules constructed kept⟩

/-- Two declared rules are for a nonterminal that cannot be reached. -/
theorem constructions_keep_to_rules_withGaps :
    let g := Examples.grammarOf Examples.withGaps
    let declared := declaredRules Examples.withGaps
    defineAccepted Examples.withGaps = .ok g ∧
      (declared.filter fun r => ¬ Reaches declared g.start r.left).length = 2 ∧
      ∃ built, g.construct = .ok built ∧
        KeepsToRules declared g (.ofGrammar g) built.table := by
  intro g declared
  have defined : defineAccepted Examples.withGaps = .ok g := rfl
  have dropped : (declared.filter fun r => ¬ Reaches declared g.start r.left).length = 2 := by
    decide +kernel
  exact ⟨defined, dropped, constructions_keep_to_rules defined⟩

end Grammar

end CanonicalLR
