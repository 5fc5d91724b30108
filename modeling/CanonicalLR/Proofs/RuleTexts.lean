import CanonicalLR.Proofs.ConflictAccounting
import CanonicalLR.Proofs.Mentions
import CanonicalLR.Proofs.ParserTermination
import CanonicalLR.Proofs.SymbolNames
import CanonicalLR.Text.Listing

/-!
# What the text of a rule tells of the rule

The text of a rule is words with spaces between them, and no name has a space in it. So the words
can be read back, and where no terminal has the name of a nonterminal, the symbols can be read back
from the words. One word may stand for two things: the epsilon that is written for an empty right
side is an identifier, and a symbol may have that name. A rule whose right side is one such symbol
has the same text as the rule with an empty right side. No other rules of a grammar have the same
text, since no two of them have the same sides, even where the numbers of rules started again.
-/
namespace CanonicalLR

/-- The first rule has an empty right side, and the other one is written as if it had. -/
structure Vocabulary.WrittenEmpty (v : Vocabulary) (r r' : Rule) : Prop where
  left : r.left = r'.left
  empty : r.right = []
  epsilon : ∃ x, r'.right = [x] ∧ v.symbolName x = "ε"

/-! ### Words -/

namespace Vocabulary

variable {v : Vocabulary} {r r' : Rule}

/-- The words of a right side. -/
def rightWords (v : Vocabulary) (right : List Symbol) : List String :=
  if right.isEmpty then ["ε"] else right.map v.symbolName

theorem partsText_ruleText (spelled : v.Spelled) :
    partsText ' ' (v.ruleText r) = v.nonterminalName r.left :: ":=" :: v.rightWords r.right := by
  refine partsText_intercalate (fun word member => ?_) (List.cons_ne_nil _ _)
  rcases List.mem_cons.mp member with rfl | member
  · exact spelled.freeOf_nonterminalName (.inl rfl) _
  rcases List.mem_cons.mp member with rfl | member
  · decide
  split at member
  · obtain rfl := List.mem_singleton.mp member
    decide
  · obtain ⟨x, _, rfl⟩ := List.mem_map.mp member
    exact spelled.freeOf_symbolName (.inl rfl) x

/-- Known symbols are read back from their names. -/
theorem eq_of_map_symbolName (invert : v.NamesInvert) (apart : v.KindsApart)
    {right right' : List Symbol} (known : ∀ x ∈ right, v.Knows x)
    (known' : ∀ x ∈ right', v.Knows x) (same : right.map v.symbolName = right'.map v.symbolName) :
    right = right' := by
  have read : ∀ xs : List Symbol, (∀ x ∈ xs, v.Knows x) →
      (xs.map v.symbolName).map v.symbolNamed? = xs.map some := by
    intro xs all_known
    rw [List.map_map]
    exact List.map_congr_left fun x member =>
      invert.symbolNamed?_symbolName apart (all_known x member)
  -- Where the names are the same, so is what they are read back as.
  have symbols : right.map some = right'.map some := by
    rw [← read right known, ← read right' known', same]
  exact List.map_injective_iff.mpr (Option.some_injective _) symbols

/-- A right side that is written as the empty one is empty or is a symbol of that name. -/
theorem rightWords_eq_epsilon {right : List Symbol} (written : v.rightWords right = ["ε"]) :
    right = [] ∨ ∃ x, right = [x] ∧ v.symbolName x = "ε" := by
  cases right with
  | nil => exact .inl rfl
  | cons x rest =>
    rw [rightWords, if_neg (by simp), List.map_cons] at written
    obtain ⟨named, none_left⟩ := List.cons.inj written
    rw [List.map_eq_nil_iff] at none_left
    exact .inr ⟨x, by rw [none_left], named⟩

theorem rightWords_eq_iff (invert : v.NamesInvert) (apart : v.KindsApart)
    {right right' : List Symbol}
    (known : ∀ x ∈ right, v.Knows x) (known' : ∀ x ∈ right', v.Knows x) :
    v.rightWords right = v.rightWords right' ↔
      right = right' ∨ (right = [] ∧ ∃ x, right' = [x] ∧ v.symbolName x = "ε") ∨
        (right' = [] ∧ ∃ x, right = [x] ∧ v.symbolName x = "ε") := by
  constructor
  · intro same
    cases right with
    | nil =>
      rcases rightWords_eq_epsilon same.symm with rfl | named
      · exact .inl rfl
      · exact .inr (.inl ⟨rfl, named⟩)
    | cons x rest =>
      cases right' with
      | nil =>
        rcases rightWords_eq_epsilon same with empty | named
        · exact .inl empty
        · exact .inr (.inr ⟨rfl, named⟩)
      | cons x' rest' => exact .inl (eq_of_map_symbolName invert apart known known' same)
  · rintro (rfl | ⟨rfl, x, rfl, named⟩ | ⟨rfl, x, rfl, named⟩)
    · rfl
    · simp [rightWords, named]
    · simp [rightWords, named]

theorem ruleText_eq_iff (spelled : v.Spelled) (invert : v.NamesInvert) (apart : v.KindsApart)
    (known : r.Known v) (known' : r'.Known v) :
    v.ruleText r = v.ruleText r' ↔
      r.sides = r'.sides ∨ v.WrittenEmpty r r' ∨ v.WrittenEmpty r' r := by
  have texts : v.ruleText r = v.ruleText r' ↔
      r.left = r'.left ∧ v.rightWords r.right = v.rightWords r'.right := by
    constructor
    · intro same
      have words := congrArg (partsText ' ') same
      rw [partsText_ruleText spelled, partsText_ruleText spelled] at words
      obtain ⟨left, rest⟩ := List.cons.inj words
      have symbols : Symbol.nonterminal r.left = .nonterminal r'.left :=
        invert.symbolName_inj apart known.left known'.left left
      exact ⟨Symbol.nonterminal.inj symbols, (List.cons.inj rest).2⟩
    · rintro ⟨left, right⟩
      rw [ruleText, ruleText, productionText, productionText, left]
      exact congrArg (fun words => " ".intercalate (_ :: ":=" :: words)) right
  rw [texts, rightWords_eq_iff invert apart known.right known'.right]
  constructor
  · rintro ⟨left, same | ⟨empty, epsilon⟩ | ⟨empty, epsilon⟩⟩
    · exact .inl (Prod.ext left same)
    · exact .inr (.inl ⟨left, empty, epsilon⟩)
    · exact .inr (.inr ⟨left.symm, empty, epsilon⟩)
  · rintro (same | ⟨left, empty, epsilon⟩ | ⟨left, empty, epsilon⟩)
    · exact ⟨congrArg Prod.fst same, .inl (congrArg Prod.snd same)⟩
    · exact ⟨left, .inr (.inl ⟨empty, epsilon⟩)⟩
    · exact ⟨left.symm, .inr (.inr ⟨empty, epsilon⟩)⟩

end Vocabulary

/-! ### Rules -/

theorem nodup_addRule {rules : List Rule} {r : Rule} (distinct : (rules.map Rule.sides).Nodup)
    (fresh : r.sides ∉ rules.map Rule.sides) : ((addRule rules r).map Rule.sides).Nodup := by
  rw [addRule]
  split
  · rw [List.map_append, List.map_singleton, ← List.concat_eq_append]
    exact distinct.concat fresh
  · rw [List.map_set]
    exact distinct.set fresh

theorem nodup_foldl_addRule {rules added : List Rule} (distinct : (rules.map Rule.sides).Nodup)
    (added_distinct : (added.map Rule.sides).Nodup)
    (fresh : ∀ r ∈ added, r.sides ∉ rules.map Rule.sides) :
    ((added.foldl addRule rules).map Rule.sides).Nodup := by
  induction added generalizing rules with
  | nil => exact distinct
  | cons r added ih =>
    rw [List.map_cons, List.nodup_cons] at added_distinct
    refine ih (nodup_addRule distinct (fresh r List.mem_cons_self)) added_distinct.2 ?_
    -- A rule that takes another one's place leaves no sides behind that were not there before.
    intro r' later member
    obtain ⟨other, present, same⟩ := List.mem_map.mp member
    rcases mem_addRule present with old | rfl
    · exact fresh r' (List.mem_cons_of_mem _ later) (same ▸ List.mem_map_of_mem old)
    · exact added_distinct.1 (same ▸ List.mem_map_of_mem later)

/-- A precedence on one side only is reported of a rule that is up against a shift. -/
theorem Accounted.contest_of_oneSided {g : Grammar} {a : Automaton} {table : Table} {s : StateId}
    {name text : String} {kind : ActionKind} (accounted : Accounted g a table)
    (warned : .oneSidedPrecedence s name text kind ∈ table.warnings) :
    ∃ t i, a.Contest g s t i ∧ name = g.terminalName t ∧ text = g.ruleText (g.rule i) := by
  obtain ⟨reports, paired, warnings⟩ := accounted.warnings
  rw [warnings, List.mem_append] at warned
  rcases warned with reported | summed
  · obtain ⟨report, listed, inside⟩ := List.mem_flatten.mp reported
    obtain ⟨cell, _, of_cell⟩ := exists_of_forall₂ paired listed
    -- Of all reports of a cell only one is of this kind, and it names the cell's rule.
    cases of_cell with
    | oneSided contest _ _ _ =>
      cases List.mem_singleton.mp inside
      exact ⟨_, _, contest, rfl, rfl⟩
    | nonassoc | unspecified => cases List.mem_singleton.mp inside
    | uncontested | ranked | grouped => exact absurd inside List.not_mem_nil
  · split at summed
    · exact absurd summed List.not_mem_nil
    · cases List.mem_singleton.mp summed

namespace Grammar

variable {ds : List Declaration} {g : Grammar}

/-- No two rules have the same sides, and the added one has a left side of its own. -/
theorem nodup_sides_of_defined (defined : defineAccepted ds = .ok g) :
    (g.rules.map Rule.sides).Nodup := by
  have records := Builder.attemptAll_records ds
  have finishes := Builder.finishes_of_finish defined
  have kept_sublist : ((Builder.initial.attemptAll ds).2.keptRules).Sublist
      (Builder.initial.attemptAll ds).2.rules := by
    rw [Builder.keptRules]
    split
    · exact List.nil_sublist _
    · exact List.filter_sublist
  rw [finishes.rules]
  refine nodup_foldl_addRule (by simp) (records.sides.sublist (kept_sublist.map _)) ?_
  intro r kept member
  have sides : r.sides = (Rule.accepting g.start).sides := by simpa using member
  have declared := records.rules_declared r (Builder.keptRules_subset kept)
  exact declared.left_ne_start (congrArg Prod.fst sides)

/-- The same rule, or an empty right side against one that is written like it. -/
def Alike (g : Grammar) (i j : RuleId) : Prop :=
  i = j ∨ g.WrittenEmpty (g.rule i) (g.rule j) ∨ g.WrittenEmpty (g.rule j) (g.rule i)

theorem ruleText_eq_iff_alike (defined : defineAccepted ds = .ok g) (apart : g.KindsApart)
    {i j : RuleId} (known : i < g.rules.length) (known' : j < g.rules.length) :
    g.ruleText (g.rule i) = g.ruleText (g.rule j) ↔ g.Alike i j := by
  have wf := wellFormed_of_defined defined
  have at_i := wf.rules_known _ (rule_mem known)
  have at_j := wf.rules_known _ (rule_mem known')
  have same_sides : (g.rule i).sides = (g.rule j).sides ↔ i = j := by
    constructor
    · intro same
      refine (List.getElem?_inj (by simpa using known) (nodup_sides_of_defined defined)).mp ?_
      rw [List.getElem?_map, List.getElem?_map, getElem?_rule known, getElem?_rule known',
        Option.map_some, Option.map_some, same]
    · rintro rfl
      rfl
  rw [Vocabulary.ruleText_eq_iff (spelled_of_defined defined) (namesInvert_of_defined defined)
    apart at_i at_j, same_sides, Alike]

/-! ### Where texts of rules are printed -/

theorem text_eq_reduce_iff {act : Action} {i : RuleId} :
    act.text g = (Action.reduce i).text g ↔
      ∃ j, act = .reduce j ∧ g.ruleText (g.rule j) = g.ruleText (g.rule i) := by
  cases act with
  | shift target => simp [Action.text, toString, ← String.toList_inj]
  | reduce j => simp [Action.text, toString, ← String.toList_inj]
  | accept => simp [Action.text, toString, ← String.toList_inj]

variable {built : Construction}

/-- A parser reduces by rules that the grammar has. -/
theorem WellFormed.reducedRules_known (wf : g.WellFormed) (constructed : g.construct = .ok built)
    {fuel : Nat} {c : Parser.Config} {moves : List Move}
    (finished : Parser.run g built.table fuel c = some (.ok moves)) :
    ∀ rule ∈ reducedRules moves, rule < g.rules.length := by
  induction fuel generalizing c moves with
  | zero => simp [Parser.run] at finished
  | succ fuel ih =>
    rcases Parser.run_ok_cases finished with ⟨_, rfl⟩ | ⟨move, c', rest, stepped, rfl, remaining⟩
    · simp
    cases move with
    | shift t => simpa using ih remaining
    | accept => simpa [reducedRules] using ih remaining
    | reduce id =>
      intro rule member
      rcases List.mem_cons.mp member with rfl | later
      · obtain ⟨s, _, _, action⟩ := Parser.action_of_reduce_step stepped
        exact wf.rule_known_of_reduce constructed action
      · exact ih remaining rule later

/-- Texts of rules tell the rules that are meant, wherever they are printed: in the lists of a
grammar's rules and of a run's reductions, in the entries of a table and in its reports. -/
structure TextsTell (g : Grammar) (a : Automaton) (table : Table) : Prop where
  rules : ∀ i j, i < g.rules.length → j < g.rules.length →
    (g.ruleText (g.rule i) = g.ruleText (g.rule j) ↔ g.Alike i j)
  reductions : ∀ fuel input moves fuel' input' moves',
    table.parse? g fuel input = some (.ok moves) → table.parse? g fuel' input' = some (.ok moves') →
    (reductionTexts g moves = reductionTexts g moves' ↔
      List.Forall₂ g.Alike (reducedRules moves) (reducedRules moves'))
  entries : ∀ s t act i, table.action s t = some act → i < g.rules.length →
    (act.text g = (Action.reduce i).text g ↔ ∃ j, act = .reduce j ∧ g.Alike j i)
  reports : ∀ s name text kind, .oneSidedPrecedence s name text kind ∈ table.warnings →
    ∃ t i, a.Contest g s t i ∧ name = g.terminalName t ∧ text = g.ruleText (g.rule i) ∧
      ∀ j < g.rules.length, (text = g.ruleText (g.rule j) ↔ g.Alike i j)

/-- Lists of known rules have the same texts if the rules at each place do. -/
theorem map_ruleText_eq_iff (defined : defineAccepted ds = .ok g) (apart : g.KindsApart)
    {is js : List RuleId} (known : ∀ i ∈ is, i < g.rules.length)
    (known' : ∀ j ∈ js, j < g.rules.length) :
    is.map (fun i => g.ruleText (g.rule i)) = js.map (fun j => g.ruleText (g.rule j)) ↔
      List.Forall₂ g.Alike is js := by
  induction is generalizing js with
  | nil => cases js <;> simp
  | cons i is ih =>
    cases js with
    | nil => simp
    | cons j js =>
      rw [List.map_cons, List.map_cons, List.cons.injEq, List.forall₂_cons,
        ruleText_eq_iff_alike defined apart (known i List.mem_cons_self)
          (known' j List.mem_cons_self),
        ih (fun i member => known i (List.mem_cons_of_mem _ member))
          (fun j member => known' j (List.mem_cons_of_mem _ member))]

theorem WellFormed.rule_known_of_contest (wf : g.WellFormed) {s : StateId} {t : TerminalId}
    {i : RuleId} (contest : (Automaton.ofGrammar g).Contest g s t i) : i < g.rules.length := by
  obtain ⟨state, found, _, reduces, _⟩ := contest
  obtain ⟨item, member, _, _, rfl, _⟩ := reduces
  exact (wf.item_wellFormed found member).rule_known

theorem textsTell (defined : defineAccepted ds = .ok g) (apart : g.KindsApart)
    (constructed : g.construct = .ok built) :
    TextsTell g (.ofGrammar g) built.table where
  rules _ _ := ruleText_eq_iff_alike defined apart
  reductions _ _ _ _ _ _ finished finished' := by
    have wf := wellFormed_of_defined defined
    exact map_ruleText_eq_iff defined apart (wf.reducedRules_known constructed finished)
      (wf.reducedRules_known constructed finished')
  entries s t act i action known := by
    have wf := wellFormed_of_defined defined
    rw [text_eq_reduce_iff]
    constructor
    · rintro ⟨j, rfl, same⟩
      have known' := wf.rule_known_of_reduce constructed action
      exact ⟨j, rfl, (ruleText_eq_iff_alike defined apart known' known).mp same⟩
    · rintro ⟨j, rfl, alike⟩
      have known' := wf.rule_known_of_reduce constructed action
      exact ⟨j, rfl, (ruleText_eq_iff_alike defined apart known' known).mpr alike⟩
  reports s name text kind warned := by
    have wf := wellFormed_of_defined defined
    have accounted := Table.accounted wf.coherent wf.covered
      (WellFormed.generate_of_construct constructed)
    obtain ⟨t, i, contest, rfl, rfl⟩ := accounted.contest_of_oneSided warned
    exact ⟨t, i, contest, rfl, rfl, fun j known =>
      ruleText_eq_iff_alike defined apart (wf.rule_known_of_contest contest) known⟩

/-- Where no terminal has the name of a nonterminal, the text of a rule tells which rule it is. Only
that the right side is empty is also said by a symbol that has the name for it. -/
theorem rule_texts_tell_rules (defined : defineAccepted ds = .ok g) (apart : g.KindsApart) :
    ∃ built, g.construct = .ok built ∧ TextsTell g (.ofGrammar g) built.table := by
  obtain ⟨built, constructed⟩ := (wellFormed_of_defined defined).exists_construct
  exact ⟨built, constructed, textsTell defined apart constructed⟩

/-- The first two rules of this grammar have the same text, the others have texts of their own. -/
theorem rule_texts_tell_rules_namedEpsilon :
    let g := Examples.grammarOf Examples.namedEpsilon
    defineAccepted Examples.namedEpsilon = .ok g ∧ g.KindsApart ∧
      g.rules.map g.ruleText = ["$start := S", "S := ε", "S := ε", "S := a ε"] ∧
      ∃ built, g.construct = .ok built ∧ TextsTell g (.ofGrammar g) built.table := by
  intro g
  have defined : defineAccepted Examples.namedEpsilon = .ok g := rfl
  have apart : g.KindsApart := by decide +kernel
  exact ⟨defined, apart, by decide +kernel, rule_texts_tell_rules defined apart⟩

/-- Equal texts do not make equal rules where a terminal is named like the empty right side. -/
theorem rule_texts_coincide :
    ¬ ∀ (ds : List Declaration) (g : Grammar), defineAccepted ds = .ok g → g.KindsApart →
      ∀ i j, i < g.rules.length → j < g.rules.length →
        g.ruleText (g.rule i) = g.ruleText (g.rule j) → i = j := by
  intro tell
  have same : 1 = 2 := tell Examples.namedEpsilon (Examples.grammarOf Examples.namedEpsilon) rfl
    (by decide +kernel) 1 2 (by decide +kernel) (by decide +kernel) (by decide +kernel)
  exact absurd same (by decide)

end Grammar

end CanonicalLR
