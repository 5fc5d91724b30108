import CanonicalLR.Proofs.ParserSoundness
import CanonicalLR.Proofs.StateNumbering
import CanonicalLR.Proofs.TableEntries
import Mathlib.Order.Interval.Set.Nat

/-!
# Renumbering the rules

Two grammars that have the same productions under different numbers have the same automaton up to
the numbers. The order of the rules shows in the order of items, in the symbols that a state follows
first and so in the numbers of the states, but an item is valid for a string in one grammar exactly
if the renumbered item is in the other. A state stands for the strings that lead to it, so the state
that one of them leads to in the other automaton corresponds to it, whichever string is taken. What
a cell asks for is then the same too, and only where several rules are complete does it matter which
of them has the lowest number.
-/
namespace CanonicalLR

/-- What a rule is, apart from its number and from what is done on reducing by it. -/
def Rule.production (r : Rule) : NonterminalId × List Symbol × Option Precedence :=
  (r.left, r.right, r.override)

def Item.renumber (p : RuleId → RuleId) (i : Item) : Item := { i with rule := p i.rule }

def Action.renumber (p : RuleId → RuleId) (h : StateId → StateId) : Action → Action
  | .shift target => .shift (h target)
  | .reduce rule => .reduce (p rule)
  | .accept => .accept

/-- The rules of one grammar are those of another under different numbers. -/
structure Renumbers (p : RuleId → RuleId) (g g' : Grammar) : Prop where
  accept : p .accept = .accept
  bijective : Set.BijOn p {id | id < g.rules.length} {id | id < g'.rules.length}
  production : ∀ id < g.rules.length, (g'.rule (p id)).production = (g.rule id).production

/-- The states of one automaton are those of another under different numbers, with renumbered
rules. The same holds of the entries of their tables, as long as a cell has one complete rule. -/
structure Corresponds (p : RuleId → RuleId) (h : StateId → StateId) (g g' : Grammar)
    (a a' : Automaton) (table table' : Table) : Prop where
  states : Set.BijOn h {s | s < a.size} {s | s < a'.size}
  initial : h .initial = .initial
  items : ∀ (s : StateId) (state : State), a.states[s]? = some state →
    ∃ state', a'.states[h s]? = some state' ∧
      {j | j ∈ state'.items} = Item.renumber p '' {i | i ∈ state.items}
  goto : ∀ s < a.size, ∀ x, a'.goto (h s) x = (a.goto s x).map h
  size : a'.size = a.size
  edges : a'.edges.length = a.edges.length
  gotos : table'.gotoEntries.length = table.gotoEntries.length
  actions : table'.actionEntries.length = table.actionEntries.length
  reduceReduce : table'.conflicts.reduceReduce = table.conflicts.reduceReduce
  action : ∀ (s : StateId) (state : State) (t : TerminalId), a.states[s]? = some state →
    {rule | state.Reduces g t rule}.Subsingleton →
    table'.action (h s) t = (table.action s t).map (Action.renumber p h)

/-! ### Derivations -/

section Derivations

variable {rules rules' : List Rule}

/-- Every rule has one with the same sides in another list. -/
def SidesIn (rules rules' : List Rule) : Prop :=
  ∀ r ∈ rules, ∃ r' ∈ rules', r'.left = r.left ∧ r'.right = r.right

theorem SidesIn.yields (sides : SidesIn rules rules') {u v : List Symbol}
    (step : Yields rules u v) : Yields rules' u v := by
  obtain ⟨member, before, after⟩ := step
  obtain ⟨r', member', left, right⟩ := sides _ member
  rw [← left, ← right]
  exact .exchange member' before after

theorem SidesIn.begins (sides : SidesIn rules rules') {u : List Symbol} {t : TerminalId}
    (begins : Begins rules u t) : Begins rules' u t := by
  obtain ⟨rest, derivation⟩ := begins
  exact ⟨rest, Relation.ReflTransGen.mono (fun _ _ => sides.yields) _ _ derivation⟩

end Derivations

namespace Renumbers

variable {p : RuleId → RuleId} {g g' : Grammar}

theorem known (renumbers : Renumbers p g g') {id : RuleId} (known : id < g.rules.length) :
    p id < g'.rules.length := renumbers.bijective.mapsTo known

theorem left_eq (renumbers : Renumbers p g g') {id : RuleId} (known : id < g.rules.length) :
    (g'.rule (p id)).left = (g.rule id).left :=
  (Prod.mk.inj (renumbers.production id known)).1

theorem right_eq (renumbers : Renumbers p g g') {id : RuleId} (known : id < g.rules.length) :
    (g'.rule (p id)).right = (g.rule id).right :=
  (Prod.mk.inj (Prod.mk.inj (renumbers.production id known)).2).1

theorem override_eq (renumbers : Renumbers p g g') {id : RuleId} (known : id < g.rules.length) :
    (g'.rule (p id)).override = (g.rule id).override :=
  (Prod.mk.inj (Prod.mk.inj (renumbers.production id known)).2).2

theorem sidesIn (renumbers : Renumbers p g g') : SidesIn g.rules g'.rules := by
  intro r member
  obtain ⟨id, found⟩ := List.getElem?_of_mem member
  have known := (List.getElem?_eq_some_iff.mp found).1
  obtain rfl := Grammar.rule_of_getElem? found
  exact ⟨_, Grammar.rule_mem (renumbers.known known), renumbers.left_eq known,
    renumbers.right_eq known⟩

/-- The numbers can be taken back. -/
theorem exists_inverse (wf : g.WellFormed) (renumbers : Renumbers p g g') :
    ∃ q, Renumbers q g' g ∧ (∀ id < g.rules.length, q (p id) = id) ∧
      ∀ id < g'.rules.length, p (q id) = id := by
  have inverse := renumbers.bijective.invOn_invFunOn
  have back := renumbers.bijective.symm inverse.symm
  refine ⟨Function.invFunOn p {id | id < g.rules.length}, ⟨?_, back, ?_⟩, inverse.1, inverse.2⟩
  · conv_lhs => rw [← renumbers.accept]
    exact inverse.1 wf.accept_known
  · intro id known
    have same := renumbers.production _ (back.mapsTo known)
    rw [inverse.2 known] at same
    exact same.symm

/-! ### Items -/

section Items

variable {i : Item} {w : List Symbol}

theorem next?_eq (renumbers : Renumbers p g g') (known : i.rule < g.rules.length) :
    (i.renumber p).next? g' = i.next? g := by
  rw [Item.next?, Item.right, Item.next?, Item.right]
  exact congrArg (·[i.marker]?) (renumbers.right_eq known)

theorem afterNext_eq (renumbers : Renumbers p g g') (known : i.rule < g.rules.length) :
    (i.renumber p).afterNext g' = i.afterNext g := by
  rw [Item.afterNext, Item.right, Item.afterNext, Item.right]
  exact congrArg (List.drop (i.marker + 1)) (renumbers.right_eq known)

/-- Renumbered items are valid for the same strings. -/
theorem valid (wf : g.WellFormed) (renumbers : Renumbers p g g') (valid : Valid g w i) :
    Valid g' w (i.renumber p) := by
  -- On how the item came to be valid: what is used of its rule is the left and the right side.
  induction valid with
  | start =>
    rw [Item.renumber, renumbers.accept]
    exact .start
  | @predict w i q b valid known next begins ih =>
    have rule_known := valid.rule_known wf
    refine .predict ih (renumbers.known known) ?_ ?_
    · rw [renumbers.next?_eq rule_known, next, renumbers.left_eq known]
    · rw [renumbers.afterNext_eq rule_known]
      exact renumbers.sidesIn.begins begins
  | advance valid next ih =>
    refine .advance ih ?_
    rw [renumbers.next?_eq (valid.rule_known wf), next]

theorem valid_iff (wf : g.WellFormed) (wf' : g'.WellFormed) (renumbers : Renumbers p g g')
    {j : Item} : Valid g' w j ↔ ∃ i, Valid g w i ∧ i.renumber p = j := by
  constructor
  · intro there
    obtain ⟨q, back, _, inverse⟩ := renumbers.exists_inverse wf
    refine ⟨j.renumber q, back.valid wf' there, ?_⟩
    rw [Item.renumber, Item.renumber, inverse j.rule (there.rule_known wf')]
  · rintro ⟨i, here, rfl⟩
    exact renumbers.valid wf here

end Items

end Renumbers

/-! ### States -/

/-- A state has the items of another with renumbered rules. -/
structure State.Renumbered (p : RuleId → RuleId) (g : Grammar) (state state' : State) : Prop where
  mem_iff : ∀ j, j ∈ state'.items ↔ ∃ i ∈ state.items, i.renumber p = j
  known : ∀ i ∈ state.items, i.rule < g.rules.length

/-- Some string leads to both states. -/
def Meets (g g' : Grammar) (s s' : StateId) : Prop :=
  ∃ w, (Automaton.ofGrammar g).walk? .initial w = some s ∧
    (Automaton.ofGrammar g').walk? .initial w = some s'

theorem Meets.symm {g g' : Grammar} {s s' : StateId} (meets : Meets g g' s s') :
    Meets g' g s' s := by
  obtain ⟨w, walked, walked'⟩ := meets
  exact ⟨w, walked', walked⟩

theorem Grammar.WellFormed.inside_of_walk {g : Grammar} (wf : g.WellFormed) {w : List Symbol}
    {s : StateId} (walked : (Automaton.ofGrammar g).walk? .initial w = some s) :
    s < (Automaton.ofGrammar g).size := by
  obtain ⟨state, found, _⟩ := wf.state_of_walk walked
  exact (List.getElem?_eq_some_iff.mp found).1

namespace Renumbers

variable {p : RuleId → RuleId} {g g' : Grammar} (renumbers : Renumbers p g g') (wf : g.WellFormed)
  (wf' : g'.WellFormed)

include wf wf' renumbers

/-- A string can be read in both grammars or in neither. -/
theorem exists_walk_iff {w : List Symbol} :
    (∃ s, (Automaton.ofGrammar g).walk? .initial w = some s) ↔
      ∃ s, (Automaton.ofGrammar g').walk? .initial w = some s := by
  simp only [wf.exists_walk_iff, wf'.exists_walk_iff, renumbers.valid_iff wf wf']
  constructor
  · rintro ⟨i, valid⟩
    exact ⟨_, i, valid, rfl⟩
  · rintro ⟨_, i, valid, _⟩
    exact ⟨i, valid⟩

theorem exists_meets {s : StateId} (inside : s < (Automaton.ofGrammar g).size) :
    ∃ s', Meets g g' s s' := by
  obtain ⟨w, walked⟩ := wf.exists_walk s inside
  obtain ⟨s', walked'⟩ := (renumbers.exists_walk_iff wf wf').mp ⟨s, walked⟩
  exact ⟨s', w, walked, walked'⟩

/-- States that a string leads to have the same items but for the numbers of rules. -/
theorem items_of_meets {s s' : StateId} {state : State} (meets : Meets g g' s s')
    (found : (Automaton.ofGrammar g).states[s]? = some state) :
    ∃ state', (Automaton.ofGrammar g').states[s']? = some state' ∧
      state.Renumbered p g state' := by
  obtain ⟨w, walked, walked'⟩ := meets
  obtain ⟨known, found_known, items⟩ := wf.state_of_walk walked
  obtain rfl := Option.some.inj (found.symm.trans found_known)
  obtain ⟨state', found', items'⟩ := wf'.state_of_walk walked'
  refine ⟨state', found', fun j => ?_, fun i member => ((items i).mp member).rule_known wf⟩
  simp only [items', items, renumbers.valid_iff wf wf']

/-- A string leads to the renumbered kernel. -/
theorem mem_kernelAfter_iff {w : List Symbol} {j : Item} :
    j ∈ g'.kernelAfter w ↔ ∃ i ∈ g.kernelAfter w, i.renumber p = j := by
  rcases List.eq_nil_or_concat w with rfl | ⟨w, x, rfl⟩
  · simp only [Grammar.kernelAfter_nil, mem_startKernel, exists_eq_left]
    rw [Item.renumber, renumbers.accept, eq_comm]
  · simp only [List.concat_eq_append, wf.mem_kernelAfter_concat_iff,
      wf'.mem_kernelAfter_concat_iff, renumbers.valid_iff wf wf']
    constructor
    · rintro ⟨_, ⟨i, valid, rfl⟩, next, rfl⟩
      rw [renumbers.next?_eq (valid.rule_known wf)] at next
      exact ⟨_, ⟨i, valid, next, rfl⟩, rfl⟩
    · rintro ⟨_, ⟨i, valid, next, rfl⟩, rfl⟩
      rw [← renumbers.next?_eq (valid.rule_known wf)] at next
      exact ⟨_, ⟨i, valid, rfl⟩, next, rfl⟩

/-- All strings that lead to one state lead to one state in the other automaton. -/
theorem meets_unique {s s' t' : StateId} (meets : Meets g g' s s') (meets' : Meets g g' s t') :
    s' = t' := by
  obtain ⟨w, walked, walked'⟩ := meets
  obtain ⟨v, other, other'⟩ := meets'
  -- They lead to one kernel, which tells what the kernel in the other automaton is.
  have same : g.kernelAfter w = g.kernelAfter v :=
    Option.some.inj ((wf.kernel_of_walk walked).1.symm.trans (wf.kernel_of_walk other).1)
  have same' : g'.kernelAfter w = g'.kernelAfter v := by
    ext j
    rw [renumbers.mem_kernelAfter_iff wf wf', same, ← renumbers.mem_kernelAfter_iff wf wf']
  have there := (wf'.kernel_of_walk walked').1
  rw [same'] at there
  exact wf'.index_unique there (wf'.kernel_of_walk other').1

/-- The moves of states that a string leads to are on the same symbols, and to such states. -/
theorem goto_of_meets {s s' : StateId} (meets : Meets g g' s s') {x : Symbol} {u : StateId}
    (moved : (Automaton.ofGrammar g).goto s x = some u) :
    ∃ u', (Automaton.ofGrammar g').goto s' x = some u' ∧ Meets g g' u u' := by
  obtain ⟨w, walked, walked'⟩ := meets
  have onward : (Automaton.ofGrammar g).walk? .initial (w ++ [x]) = some u := by
    rw [Automaton.walk?_concat, walked, Option.bind_some, moved]
  obtain ⟨u', onward'⟩ := (renumbers.exists_walk_iff wf wf').mp ⟨u, onward⟩
  refine ⟨u', ?_, w ++ [x], onward, onward'⟩
  rwa [Automaton.walk?_concat, walked', Option.bind_some] at onward'

/-- There is a numbering of the states that takes each to the one that it meets. -/
theorem exists_numbering : ∃ h : StateId → StateId,
    Set.BijOn h {s | s < (Automaton.ofGrammar g).size} {s | s < (Automaton.ofGrammar g').size} ∧
      ∀ s < (Automaton.ofGrammar g).size, Meets g g' s (h s) := by
  have meets (s) (inside : s < (Automaton.ofGrammar g).size) :=
    renumbers.exists_meets wf wf' inside
  choose! h met using meets
  obtain ⟨q, back, _, _⟩ := renumbers.exists_inverse wf
  refine ⟨h, ⟨fun s inside => ?_, fun s inside t inside' same => ?_, fun s' inside' => ?_⟩, met⟩
  · obtain ⟨w, _, walked'⟩ := met s inside
    exact wf'.inside_of_walk walked'
  · -- Back from the common number, two states would be met.
    have here := (met s inside).symm
    have there := (met t inside').symm
    rw [← same] at there
    exact back.meets_unique wf' wf here there
  · obtain ⟨s, meets⟩ := back.exists_meets wf' wf inside'
    obtain ⟨w, _, walked⟩ := id meets
    have inside := wf.inside_of_walk walked
    exact ⟨s, inside, renumbers.meets_unique wf wf' (met s inside) meets.symm⟩

end Renumbers

/-! ### What cells ask for -/

namespace Renumbers

variable {p : RuleId → RuleId} {g g' : Grammar} {state state' : State} {t : TerminalId}
  (renumbers : Renumbers p g g') (items : state.Renumbered p g state')

include renumbers items

theorem shifts_iff : state'.Shifts g' t ↔ state.Shifts g t := by
  simp only [State.Shifts, items.mem_iff]
  constructor
  · rintro ⟨_, ⟨i, member, rfl⟩, next⟩
    exact ⟨i, member, (renumbers.next?_eq (items.known i member)).symm.trans next⟩
  · rintro ⟨i, member, next⟩
    exact ⟨_, ⟨i, member, rfl⟩, (renumbers.next?_eq (items.known i member)).trans next⟩

theorem setOf_reduces (wf : g.WellFormed) :
    {rule | state'.Reduces g' t rule} = p '' {rule | state.Reduces g t rule} := by
  ext rule'
  simp only [Set.mem_ofPred_eq, Set.mem_image, State.Reduces, items.mem_iff]
  constructor
  · rintro ⟨_, ⟨i, member, rfl⟩, complete, rfl, rfl, at_end⟩
    refine ⟨i.rule, ⟨i, member, ?_, rfl, rfl, fun accepting => at_end ?_⟩, rfl⟩
    · exact (renumbers.next?_eq (items.known i member)).symm.trans complete
    · rw [Item.renumber, accepting, renumbers.accept]
  · rintro ⟨_, ⟨i, member, complete, rfl, rfl, at_end⟩, rfl⟩
    refine ⟨_, ⟨i, member, rfl⟩, ?_, rfl, rfl, fun accepting => at_end ?_⟩
    · exact (renumbers.next?_eq (items.known i member)).trans complete
    · -- Only rule 0 is given the number 0.
      rw [← renumbers.accept] at accepting
      exact renumbers.bijective.injOn (items.known i member) wf.accept_known accepting

omit renumbers in
theorem subset_known : {rule | state.Reduces g t rule} ⊆ {id | id < g.rules.length} := by
  rintro rule ⟨i, member, _, _, rfl, _⟩
  exact items.known i member

end Renumbers

/-! ### Cells -/

/-- A list of keys for some states, against one for the renumbered states. -/
theorem perm_of_renumbered {κ : Type} {l l' : List (StateId × κ)} {h : StateId → StateId}
    {n n' : Nat} (bijective : Set.BijOn h {s | s < n} {s | s < n'}) (distinct : l.Nodup)
    (distinct' : l'.Nodup) (inside : ∀ c ∈ l, c.1 < n) (inside' : ∀ c ∈ l', c.1 < n')
    (same : ∀ s < n, ∀ k, (h s, k) ∈ l' ↔ (s, k) ∈ l) :
    (l.map fun c => (h c.1, c.2)).Perm l' := by
  refine (List.perm_ext_iff_of_nodup (distinct.map_on ?_) distinct').mpr ?_
  · rintro ⟨s, k⟩ member ⟨t, k'⟩ member' equal
    obtain ⟨states, rfl⟩ := Prod.mk.inj equal
    exact congrArg (·, k) (bijective.injOn (inside _ member) (inside _ member') states)
  · rintro ⟨s', k⟩
    rw [List.mem_map]
    constructor
    · rintro ⟨⟨s, k'⟩, member, equal⟩
      obtain ⟨rfl, rfl⟩ := Prod.mk.inj equal
      exact (same s (inside _ member) k').mpr member
    · intro member
      obtain ⟨s, in_range, rfl⟩ := bijective.surjOn (inside' _ member)
      exact ⟨(s, k), (same s in_range k).mp member, rfl⟩

section Entries

variable {ρ κ υ : Type} {rows : List ρ} {entries : ρ → List (κ × υ)}

/-- There are as many entries for renumbered rows if they have the same keys. -/
theorem length_entryKeys_eq [BEq κ] [LawfulBEq κ] {rows' : List ρ} {h : StateId → StateId}
    (bijective : Set.BijOn h {s | s < rows.length} {s | s < rows'.length})
    (distinct : ∀ row ∈ rows, ((entries row).map (·.1)).Nodup)
    (distinct' : ∀ row ∈ rows', ((entries row).map (·.1)).Nodup)
    (same : ∀ s < rows.length, ∀ k,
      (∃ v, (rows'[h s]?.bind fun row => (entries row).lookup k) = some v) ↔
        ∃ v, (rows[s]?.bind fun row => (entries row).lookup k) = some v) :
    (entryKeys rows' entries).length = (entryKeys rows entries).length := by
  have renumbered := perm_of_renumbered bijective (nodup_entryKeys distinct)
    (nodup_entryKeys distinct') (fun _ => inside_of_mem_entryKeys)
    (fun _ => inside_of_mem_entryKeys) fun s inside k => by
      rw [mem_entryKeys, mem_entryKeys, same s inside k]
  rw [← renumbered.length_eq, List.length_map]

end Entries

/-! ### Actions -/

section Settled

variable {g g' : Grammar} {a a' : Automaton} {p : RuleId → RuleId} {h : StateId → StateId}
  {s : StateId} {state state' : State} {t : TerminalId} {rule : RuleId} {act act' : Option Action}
  (settled : Settled g a s state t act) (settled' : Settled g' a' (h s) state' t act')

include settled settled'

theorem settled_contest
    (goto : a'.goto (h s) (.terminal t) = (a.goto s (.terminal t)).map h)
    (shifts : state.Shifts g t) (shifts' : state'.Shifts g' t)
    (lowest : state.LowestReduction g t rule) (lowest' : state'.LowestReduction g' t (p rule))
    (precedences : g'.terminalPrecedence = g.terminalPrecedence)
    (level : g'.ruleLevel (p rule) = g.ruleLevel rule) :
    act' = act.map (Action.renumber p h) := by
  obtain ⟨_, target, moved, terminal_higher, rule_higher, equal⟩ :=
    settled.both shifts rule lowest
  obtain ⟨_, target', moved', terminal_higher', rule_higher', equal'⟩ :=
    settled'.both shifts' (p rule) lowest'
  obtain rfl : h target = target' := by
    rw [goto, moved] at moved'
    exact Option.some.inj moved'
  -- The levels are the same, so both cells are decided in the same way.
  rw [Grammar.terminalLevel, precedences, level] at terminal_higher' rule_higher' equal'
  rcases Nat.lt_trichotomy (g.ruleLevel rule) (g.terminalLevel t) with lower | same | higher
  · rw [terminal_higher lower, terminal_higher' lower]
    rfl
  · by_cases left : g.LeftAssoc t
    · have left' : g'.LeftAssoc t := by rwa [Grammar.LeftAssoc, precedences]
      rw [(equal same.symm).1 left, (equal' same.symm).1 left']
      rfl
    · have other : ¬ g'.LeftAssoc t := by rwa [Grammar.LeftAssoc, precedences]
      rw [(equal same.symm).2 left, (equal' same.symm).2 other]
      rfl
  · rw [rule_higher higher, rule_higher' higher]
    rfl

theorem settled_rule (no_shift : ¬ state.Shifts g t) (no_shift' : ¬ state'.Shifts g' t)
    (lowest : state.LowestReduction g t rule) (lowest' : state'.LowestReduction g' t (p rule))
    (accepting : p rule = .accept ↔ rule = .accept) : act' = act.map (Action.renumber p h) := by
  rw [settled.only_reduce no_shift rule lowest, settled'.only_reduce no_shift' (p rule) lowest',
    Option.map_some]
  simp only [accepting]
  split <;> rfl

theorem settled_without_rule
    (goto : a'.goto (h s) (.terminal t) = (a.goto s (.terminal t)).map h)
    (shifts : state'.Shifts g' t ↔ state.Shifts g t) (none : ∀ rule, ¬ state.Reduces g t rule)
    (none' : ∀ rule, ¬ state'.Reduces g' t rule) : act' = act.map (Action.renumber p h) := by
  by_cases shift : state.Shifts g t
  · obtain ⟨target, moved, action⟩ := settled.only_shift shift none
    obtain ⟨target', moved', action'⟩ := settled'.only_shift (shifts.mpr shift) none'
    obtain rfl : h target = target' := by
      rw [goto, moved] at moved'
      exact Option.some.inj moved'
    rw [action, action']
    rfl
  · rw [settled.nothing.mpr ⟨shift, none⟩, settled'.nothing.mpr ⟨shifts.not.mpr shift, none'⟩]
    rfl

end Settled

namespace Renumbers

variable {p : RuleId → RuleId} {g g' : Grammar} (renumbers : Renumbers p g g')

include renumbers

/-- Rules have their levels whatever their numbers. -/
theorem ruleLevel_eq (precedences : g'.terminalPrecedence = g.terminalPrecedence) {rule : RuleId}
    (known : rule < g.rules.length) : g'.ruleLevel (p rule) = g.ruleLevel rule := by
  simp only [Grammar.ruleLevel, Vocabulary.rulePrecedence, renumbers.override_eq known,
    renumbers.right_eq known, precedences]

variable (wf : g.WellFormed) (wf' : g'.WellFormed)
  (precedences : g'.terminalPrecedence = g.terminalPrecedence) {built built' : Construction}
  (constructed : g.construct = .ok built) (constructed' : g'.construct = .ok built')
  {h : StateId → StateId} {s : StateId} {state : State} {t : TerminalId}
  (goto : ∀ x, (Automaton.ofGrammar g').goto (h s) x = ((Automaton.ofGrammar g).goto s x).map h)
  (meets : Meets g g' s (h s)) (found : (Automaton.ofGrammar g).states[s]? = some state)

include wf wf' constructed constructed' meets found

/-- Cells of states that meet have an action each or none of them. -/
theorem exists_action_iff : (∃ act, built'.table.action (h s) t = some act) ↔
    ∃ act, built.table.action s t = some act := by
  obtain ⟨state', found', items⟩ := renumbers.items_of_meets wf wf' meets found
  have reduces (rule' : RuleId) : state'.Reduces g' t rule' ↔
      ∃ rule, state.Reduces g t rule ∧ p rule = rule' := by
    have image := congrArg (rule' ∈ ·) (renumbers.setOf_reduces items wf (t := t))
    exact iff_of_eq image
  rw [wf.exists_action_iff constructed found, wf'.exists_action_iff constructed' found',
    renumbers.shifts_iff items]
  simp only [reduces]
  refine or_congr_right ⟨?_, ?_⟩
  · rintro ⟨_, rule, here, _⟩
    exact ⟨rule, here⟩
  · rintro ⟨rule, here⟩
    exact ⟨_, rule, here, rfl⟩

include precedences goto

/-- With one complete rule at most, cells of states that meet have the same action but for the
numbers. -/
theorem action_eq (one : {rule | state.Reduces g t rule}.Subsingleton) :
    built'.table.action (h s) t = (built.table.action s t).map (Action.renumber p h) := by
  obtain ⟨state', found', items⟩ := renumbers.items_of_meets wf wf' meets found
  have settled := wf.settled constructed found (t := t)
  have settled' := wf'.settled constructed' found' (t := t)
  have shifts := renumbers.shifts_iff items (t := t)
  have reduces := renumbers.setOf_reduces items wf (t := t)
  by_cases complete : ∃ rule, state.Reduces g t rule
  · obtain ⟨rule, here⟩ := complete
    have known := subset_known items here
    have only : {rule | state.Reduces g t rule} = {rule} := one.eq_singleton_of_mem here
    have lowest : state.LowestReduction g t rule := by
      rw [State.LowestReduction, only]
      exact isLeast_singleton
    have lowest' : state'.LowestReduction g' t (p rule) := by
      rw [State.LowestReduction, reduces, only, Set.image_singleton]
      exact isLeast_singleton
    by_cases shift : state.Shifts g t
    · exact settled_contest settled settled' (goto _) shift (shifts.mpr shift) lowest lowest'
        precedences (renumbers.ruleLevel_eq precedences known)
    · have accepting : p rule = .accept ↔ rule = .accept := by
        conv_lhs => rw [← renumbers.accept]
        exact renumbers.bijective.injOn.eq_iff known wf.accept_known
      exact settled_rule settled settled' shift (shifts.not.mpr shift) lowest lowest' accepting
  · -- Without a complete rule the terminal is shifted or there is no action.
    have none (rule : RuleId) : ¬ state.Reduces g t rule := fun here => complete ⟨rule, here⟩
    have none' (rule' : RuleId) : ¬ state'.Reduces g' t rule' := fun there => by
      have image : rule' ∈ p '' {rule | state.Reduces g t rule} := reduces ▸ there
      obtain ⟨rule, here, _⟩ := image
      exact none rule here
    exact settled_without_rule settled settled' (goto _) shifts none none'

omit constructed constructed' goto precedences in
/-- Equally many rules are complete in corresponding cells. -/
theorem ncard_rulesAt : ((Automaton.ofGrammar g').rulesAt g' (h s) t).ncard =
    ((Automaton.ofGrammar g).rulesAt g s t).ncard := by
  obtain ⟨state', found', items⟩ := renumbers.items_of_meets wf wf' meets found
  rw [rulesAt_of_found found, rulesAt_of_found found', renumbers.setOf_reduces items wf]
  exact (renumbers.bijective.injOn.mono (subset_known items)).ncard_image

end Renumbers

/-! ### Automata and tables -/

theorem Automaton.nodup_cells (g : Grammar) (a : Automaton) : (a.cells g).Nodup :=
  List.nodup_range.product List.nodup_range

/-- Terminals have the same precedences if these are listed in the same order. -/
theorem Vocabulary.terminalPrecedence_congr {v v' : Vocabulary}
    (precedences : v'.terminals.map (·.precedence) = v.terminals.map (·.precedence)) :
    v'.terminalPrecedence = v.terminalPrecedence := by
  have listed (v : Vocabulary) (t : TerminalId) :
      v.terminalPrecedence t = (v.terminals.map (·.precedence))[t]?.join := by
    rw [terminalPrecedence, List.getElem?_map]
    cases v.terminals[t]? <;> rfl
  funext t
  rw [listed, listed, precedences]

/-- Numbers below different bounds do not correspond to each other. -/
theorem eq_of_bijOn_lt {h : Nat → Nat} {n n' : Nat}
    (bijective : Set.BijOn h {s | s < n} {s | s < n'}) : n' = n := by
  calc n'
    _ = (h '' Set.Iio n).ncard := by
      rw [show h '' Set.Iio n = Set.Iio n' from bijective.image_eq, Set.ncard_Iio_nat]
    _ = (Set.Iio n).ncard := Set.InjOn.ncard_image bijective.injOn
    _ = n := Set.ncard_Iio_nat n

namespace Renumbers

variable {p : RuleId → RuleId} {g g' : Grammar} {built built' : Construction}

theorem losers_eq (renumbers : Renumbers p g g') (wf : g.WellFormed) (wf' : g'.WellFormed)
    (terminals : g'.terminals.length = g.terminals.length) {h : StateId → StateId}
    (bijective : Set.BijOn h {s | s < (Automaton.ofGrammar g).size}
      {s | s < (Automaton.ofGrammar g').size})
    (meets : ∀ s < (Automaton.ofGrammar g).size, Meets g g' s (h s)) :
    (Automaton.ofGrammar g').losers g' = (Automaton.ofGrammar g).losers g := by
  have cells := perm_of_renumbered bijective (Automaton.nodup_cells g (.ofGrammar g))
    (Automaton.nodup_cells g' (.ofGrammar g')) (fun _ member => (Automaton.mem_cells.mp member).1)
    (fun _ member => (Automaton.mem_cells.mp member).1) fun s inside t => by
      rw [Automaton.mem_cells, Automaton.mem_cells, terminals]
      exact and_congr_left' (iff_of_true (bijective.mapsTo inside) inside)
  rw [Automaton.losers, ← (cells.map _).sum_eq, List.map_map, Automaton.losers]
  refine congrArg List.sum (List.map_congr_left fun cell member => ?_)
  have inside := (Automaton.mem_cells.mp member).1
  exact congrArg (· - 1) (renumbers.ncard_rulesAt wf wf' (meets _ inside)
    (List.getElem?_eq_getElem inside))

/-- Moves lead to corresponding states. -/
theorem goto_eq (renumbers : Renumbers p g g') (wf : g.WellFormed) (wf' : g'.WellFormed)
    {h : StateId → StateId} (meets : ∀ s < (Automaton.ofGrammar g).size, Meets g g' s (h s))
    {s : StateId} (inside : s < (Automaton.ofGrammar g).size) (x : Symbol) :
    (Automaton.ofGrammar g').goto (h s) x = ((Automaton.ofGrammar g).goto s x).map h := by
  cases moved : (Automaton.ofGrammar g).goto s x with
  | some u =>
    obtain ⟨u', moved', met⟩ := renumbers.goto_of_meets wf wf' (meets s inside) moved
    obtain ⟨w, walked, _⟩ := id met
    have same := renumbers.meets_unique wf wf' (meets u (wf.inside_of_walk walked)) met
    rw [moved', Option.map_some, same]
  | none =>
    -- A move in the other automaton would have one to go with it.
    obtain ⟨q, back, _, _⟩ := renumbers.exists_inverse wf
    refine Option.eq_none_iff_forall_ne_some.mpr fun u' moved' => ?_
    obtain ⟨u, there, _⟩ := back.goto_of_meets wf' wf (meets s inside).symm moved'
    rw [moved] at there
    cases there

section Counts

variable (renumbers : Renumbers p g g') (wf : g.WellFormed) (wf' : g'.WellFormed)
  {h : StateId → StateId} (bijective : Set.BijOn h {s | s < (Automaton.ofGrammar g).size}
    {s | s < (Automaton.ofGrammar g').size})
  (meets : ∀ s < (Automaton.ofGrammar g).size, Meets g g' s (h s))

include renumbers wf wf' meets in
theorem exists_goto_iff {s : StateId} (inside : s < (Automaton.ofGrammar g).size) (x : Symbol) :
    (∃ u, (Automaton.ofGrammar g').goto (h s) x = some u) ↔
      ∃ u, (Automaton.ofGrammar g).goto s x = some u := by
  simp [renumbers.goto_eq wf wf' meets inside x, Option.map_eq_some_iff]

include renumbers wf wf' bijective meets

theorem length_edges_eq :
    (Automaton.ofGrammar g').edges.length = (Automaton.ofGrammar g).edges.length := by
  rw [length_edges, length_edges]
  exact length_entryKeys_eq bijective wf.nodup_moves wf'.nodup_moves
    fun s inside x => renumbers.exists_goto_iff wf wf' meets inside x

variable (constructed : g.construct = .ok built) (constructed' : g'.construct = .ok built')

include constructed constructed'

theorem length_gotoEntries_eq :
    built'.table.gotoEntries.length = built.table.gotoEntries.length := by
  have rows := Table.length_rows (Grammar.WellFormed.generate_of_construct constructed)
  have rows' := Table.length_rows (Grammar.WellFormed.generate_of_construct constructed')
  rw [length_gotoEntries, length_gotoEntries]
  refine length_entryKeys_eq (by rwa [rows, rows'])
    (fun row member => (wf.nodup_rows constructed row member).2)
    (fun row member => (wf'.nodup_rows constructed' row member).2) fun s inside n => ?_
  rw [rows] at inside
  -- The gotos of a table are the moves of the automaton on nonterminals.
  have there (u) := wf'.table_goto_iff constructed' (s := h s) (n := n) (u := u)
  have here (u) := wf.table_goto_iff constructed (s := s) (n := n) (u := u)
  exact (exists_congr there).trans
    ((renumbers.exists_goto_iff wf wf' meets inside _).trans (exists_congr here).symm)

theorem length_actionEntries_eq :
    built'.table.actionEntries.length = built.table.actionEntries.length := by
  have rows := Table.length_rows (Grammar.WellFormed.generate_of_construct constructed)
  have rows' := Table.length_rows (Grammar.WellFormed.generate_of_construct constructed')
  rw [length_actionEntries, length_actionEntries]
  refine length_entryKeys_eq (by rwa [rows, rows'])
    (fun row member => (wf.nodup_rows constructed row member).1)
    (fun row member => (wf'.nodup_rows constructed' row member).1) fun s inside t => ?_
  rw [rows] at inside
  exact renumbers.exists_action_iff wf wf' constructed constructed' (meets s inside)
    (List.getElem?_eq_getElem inside)

end Counts

/-- The automata and tables of grammars that differ in the numbers of their rules. -/
theorem exists_corresponds (renumbers : Renumbers p g g') (wf : g.WellFormed)
    (wf' : g'.WellFormed)
    (precedences : g'.terminals.map (·.precedence) = g.terminals.map (·.precedence))
    (constructed : g.construct = .ok built) (constructed' : g'.construct = .ok built') :
    ∃ h, Corresponds p h g g' (.ofGrammar g) (.ofGrammar g') built.table built'.table := by
  obtain ⟨h, bijective, meets⟩ := renumbers.exists_numbering wf wf'
  have terminals : g'.terminals.length = g.terminals.length := by
    simpa using congrArg List.length precedences
  have inside {s : StateId} {state : State}
      (found : (Automaton.ofGrammar g).states[s]? = some state) :
      s < (Automaton.ofGrammar g).size := (List.getElem?_eq_some_iff.mp found).1
  have accounted := Table.accounted wf.coherent wf.covered
    (Grammar.WellFormed.generate_of_construct constructed)
  have accounted' := Table.accounted wf'.coherent wf'.covered
    (Grammar.WellFormed.generate_of_construct constructed')
  exact ⟨h, {
    states := bijective
    initial := by
      have initial := wf.inside_of_walk (w := []) rfl
      exact (renumbers.meets_unique wf wf' ⟨[], rfl, rfl⟩ (meets _ initial)).symm
    items := by
      intro s state found
      obtain ⟨state', found', items⟩ :=
        renumbers.items_of_meets wf wf' (meets s (inside found)) found
      exact ⟨state', found', Set.ext items.mem_iff⟩
    goto := fun s inside x => renumbers.goto_eq wf wf' meets inside x
    size := eq_of_bijOn_lt bijective
    edges := renumbers.length_edges_eq wf wf' bijective meets
    gotos := renumbers.length_gotoEntries_eq wf wf' bijective meets constructed constructed'
    actions := renumbers.length_actionEntries_eq wf wf' bijective meets constructed constructed'
    reduceReduce := by
      rw [accounted.reduceReduce, accounted'.reduceReduce]
      exact renumbers.losers_eq wf wf' terminals bijective meets
    action := by
      intro s state t found one
      exact renumbers.action_eq wf wf' (Vocabulary.terminalPrecedence_congr precedences)
        constructed constructed' (fun x => renumbers.goto_eq wf wf' meets (inside found) x)
        (meets s (inside found)) found one }⟩

end Renumbers

end CanonicalLR
