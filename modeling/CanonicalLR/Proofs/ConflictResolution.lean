import CanonicalLR.Proofs.TableCells
import Mathlib.Order.Bounds.Basic
import Mathlib.Order.Lattice.Nat

/-!
# How conflicts are settled

What a cell holds follows from the items of its state, the move of the automaton on its terminal and
the declared precedences, and the order of the items plays no part. Of all the rules that complete
items ask to reduce by, the lowest is the only one that counts: it is the first of the candidates,
which are listed in ascending order. Against a shift it is a matter of levels, and on equal levels
of the terminal's associativity.
-/
namespace CanonicalLR

namespace Grammar

/-- How tightly a terminal binds when it is shifted. -/
def terminalLevel (g : Grammar) (t : TerminalId) : Nat :=
  Precedence.level (g.terminalPrecedence t)

/-- How tightly a rule binds when it is reduced. -/
def ruleLevel (g : Grammar) (rule : RuleId) : Nat :=
  Precedence.level (g.rulePrecedence (g.rule rule))

/-- Operators of one level are grouped to the left. -/
def LeftAssoc (g : Grammar) (t : TerminalId) : Prop :=
  (g.terminalPrecedence t).map (·.assoc) = some .left

/-- A shift wins against a rule: the terminal binds tighter, or as tight and not to the left. -/
def PrefersShift (g : Grammar) (rule : RuleId) (t : TerminalId) : Prop :=
  g.ruleLevel rule < g.terminalLevel t ∨
    g.terminalLevel t = g.ruleLevel rule ∧ ¬ g.LeftAssoc t

end Grammar

/-- The lowest rule that complete items of a state ask to reduce by. -/
def State.LowestReduction (g : Grammar) (state : State) (t : TerminalId) (rule : RuleId) : Prop :=
  IsLeast {id | state.Reduces g t id} rule

theorem State.Reduces.exists_lowest {g : Grammar} {state : State} {t : TerminalId} {rule : RuleId}
    (reduces : state.Reduces g t rule) : ∃ lowest, state.LowestReduction g t lowest :=
  ⟨_, Nat.sInf_mem (s := {id | state.Reduces g t id}) ⟨rule, reduces⟩, fun _ => Nat.sInf_le⟩

/-- The rules for the action of a cell. -/
structure Settled (g : Grammar) (a : Automaton) (s : StateId) (state : State) (t : TerminalId)
    (action : Option Action) : Prop where
  nothing : action = none ↔ ¬ state.Shifts g t ∧ ∀ rule, ¬ state.Reduces g t rule
  only_shift : state.Shifts g t → (∀ rule, ¬ state.Reduces g t rule) →
    ∃ target, a.goto s (.terminal t) = some target ∧ action = some (.shift target)
  only_reduce : ¬ state.Shifts g t → ∀ rule, state.LowestReduction g t rule →
    action = some (if rule = .accept then .accept else .reduce rule)
  both : state.Shifts g t → ∀ rule, state.LowestReduction g t rule →
    rule ≠ .accept ∧ ∃ target, a.goto s (.terminal t) = some target ∧
      (g.ruleLevel rule < g.terminalLevel t → action = some (.shift target)) ∧
      (g.terminalLevel t < g.ruleLevel rule → action = some (.reduce rule)) ∧
      (g.terminalLevel t = g.ruleLevel rule →
        (g.LeftAssoc t → action = some (.reduce rule)) ∧
        (¬ g.LeftAssoc t → action = some (.shift target)))

/-- The least member of a set stands first. -/
theorem OrderedSet.exists_toList_of_isLeast {s : OrderedSet Nat} {n : Nat}
    (least : IsLeast {m | m ∈ s} n) : ∃ rest, s.toList = n :: rest := by
  obtain ⟨member, below⟩ := least
  have sorted := s.ascending
  cases listed : s.toList with
  | nil =>
    have listed_member : n ∈ s.toList := member
    rw [listed] at listed_member
    cases listed_member
  | cons first rest =>
    rw [listed] at sorted
    have first_member : first ∈ s := OrderedSet.mem_toList.mp (listed ▸ List.mem_cons_self)
    have n_listed : n ∈ first :: rest := listed ▸ OrderedSet.mem_toList.mpr member
    -- Were it further on, the first one would be smaller.
    rcases List.mem_cons.mp n_listed with rfl | later
    · exact ⟨rest, rfl⟩
    · have smaller := (List.pairwise_cons.mp sorted).1 n later
      exact absurd smaller (Nat.not_lt.mpr (below first_member))

/-- What stands first is the least member. -/
theorem OrderedSet.isLeast_of_toList {s : OrderedSet Nat} {n : Nat} {rest : List Nat}
    (listed : s.toList = n :: rest) : IsLeast {m | m ∈ s} n := by
  have sorted := s.ascending
  rw [listed] at sorted
  refine ⟨mem_toList.mp (listed ▸ List.mem_cons_self), fun m member => ?_⟩
  have in_list : m ∈ n :: rest := listed ▸ mem_toList.mpr member
  rcases List.mem_cons.mp in_list with rfl | later
  · exact Nat.le_refl m
  · exact Nat.le_of_lt ((List.pairwise_cons.mp sorted).1 m later)

namespace Resolution

variable {g : Grammar} {id : StateId} {t : TerminalId} {c : Candidates} {target : StateId}
  {rule : RuleId}

/-! ### One candidate of each kind -/

theorem action_of_higher_terminal (higher : g.ruleLevel rule < g.terminalLevel t) :
    (shiftOrReduce g id t target rule).action = .shift target := by
  rw [Grammar.ruleLevel, Grammar.terminalLevel] at higher
  simp only [shiftOrReduce, if_pos higher, byLevel]

theorem action_of_higher_rule (higher : g.terminalLevel t < g.ruleLevel rule) :
    (shiftOrReduce g id t target rule).action = .reduce rule := by
  rw [Grammar.ruleLevel, Grammar.terminalLevel] at higher
  simp only [shiftOrReduce, if_neg (Nat.lt_asymm higher), if_pos higher, byLevel]

theorem shiftOrReduce_of_equal_levels (equal : g.terminalLevel t = g.ruleLevel rule) :
    shiftOrReduce g id t target rule =
      byAssoc g id t target rule (((g.terminalPrecedence t).map (·.assoc)).getD .unspecified) := by
  rw [Grammar.ruleLevel, Grammar.terminalLevel] at equal
  simp only [shiftOrReduce, equal, lt_irrefl, if_false]

theorem action_of_left (equal : g.terminalLevel t = g.ruleLevel rule) (left : g.LeftAssoc t) :
    (shiftOrReduce g id t target rule).action = .reduce rule := by
  rw [Grammar.LeftAssoc] at left
  rw [shiftOrReduce_of_equal_levels equal, left]
  rfl

/-- Right, nonassociative and unspecified operators are shifted, and so are terminals without
precedence. -/
theorem action_of_not_left (equal : g.terminalLevel t = g.ruleLevel rule)
    (other : ¬ g.LeftAssoc t) : (shiftOrReduce g id t target rule).action = .shift target := by
  rw [Grammar.LeftAssoc] at other
  rw [shiftOrReduce_of_equal_levels equal]
  cases assoc : (g.terminalPrecedence t).map (·.assoc) with
  | none => rfl
  | some a =>
    cases a with
    | left => exact absurd assoc other
    | right | nonassoc | unspecified => rfl

/-! ### Any number of candidates -/

/-- Without a shift the lowest reduction wins. -/
theorem exists_ofCandidates_of_reduce (shift : c.shift = none)
    (least : IsLeast {other | other ∈ c.reduces} rule) :
    ∃ r, ofCandidates g id t c = .ok r ∧
      r.action = if rule = .accept then .accept else .reduce rule := by
  obtain ⟨losers, reduces⟩ := OrderedSet.exists_toList_of_isLeast least
  simp only [ofCandidates, shift, reduces]
  exact ⟨_, rfl, rfl⟩

/-- Against a shift only the lowest reduction counts. -/
theorem exists_ofCandidates_of_both (shift : c.shift = some target)
    (least : IsLeast {other | other ∈ c.reduces} rule) (proper : rule ≠ .accept) :
    ∃ r, ofCandidates g id t c = .ok r ∧
      r.action = (shiftOrReduce g id t target rule).action := by
  obtain ⟨losers, reduces⟩ := OrderedSet.exists_toList_of_isLeast least
  simp only [ofCandidates, shift, reduces, if_neg proper]
  exact ⟨_, rfl, rfl⟩

end Resolution

/-! ### Cells -/

namespace State

variable {g : Grammar} {state : State} {t : TerminalId} {c : Candidates}

theorem Asks.no_shift (asks : state.Asks g t c) (no_shift : ¬ state.Shifts g t) :
    c.shift = none :=
  Option.eq_none_iff_forall_ne_some.mpr fun s shift => no_shift ((asks.shift s).mp shift).1

theorem Asks.isLeast (asks : state.Asks g t c) {rule : RuleId}
    (lowest : state.LowestReduction g t rule) : IsLeast {other | other ∈ c.reduces} rule := by
  simpa only [LowestReduction, asks.reduces] using lowest

theorem Asks.asked_iff (coherent : state.Coherent g) (asks : state.Asks g t c) :
    (∃ s, c.shift = some s) ∨ (∃ rule, rule ∈ c.reduces) ↔
      state.Shifts g t ∨ ∃ rule, state.Reduces g t rule := by
  simp only [asks.reduces]
  refine or_congr_left ⟨?_, asks.exists_shift coherent⟩
  rintro ⟨s, shift⟩
  exact ((asks.shift s).mp shift).1

end State

namespace Grammar.WellFormed

variable {g : Grammar} {built : Construction} {s : StateId} {state : State} {t : TerminalId}
  {c : Candidates}

/-- A cell has an action if something is asked for. -/
theorem exists_action_iff (wf : g.WellFormed) (constructed : g.construct = .ok built)
    (found : (Automaton.ofGrammar g).states[s]? = some state) :
    (∃ act, built.table.action s t = some act) ↔
      state.Shifts g t ∨ ∃ rule, state.Reduces g t rule := by
  have fits := wf.coherent state (List.mem_of_getElem? found)
  constructor
  · rintro ⟨act, chosen⟩
    obtain ⟨state', c, r, found', asks, settled, _⟩ :=
      (Table.action_eq_some_iff wf.coherent (generate_of_construct constructed)).mp chosen
    obtain rfl := Option.some.inj (found.symm.trans found')
    exact (asks.asked_iff fits).mp (Resolution.asked_of_ofCandidates settled)
  · intro asked
    obtain ⟨c, asks⟩ := fits.exists_asks t
    have candidate := (asks.asked_iff fits).mpr asked
    obtain ⟨r, settled⟩ := Resolution.exists_ofCandidates candidate (fits.accepts_alone asks)
    exact ⟨r.action, wf.action_of_asks constructed found asks settled⟩

theorem action_of_lowest (wf : g.WellFormed) (constructed : g.construct = .ok built)
    (found : (Automaton.ofGrammar g).states[s]? = some state) (no_shift : ¬ state.Shifts g t)
    {rule : RuleId} (lowest : state.LowestReduction g t rule) :
    built.table.action s t = some (if rule = .accept then .accept else .reduce rule) := by
  have fits := wf.coherent state (List.mem_of_getElem? found)
  obtain ⟨c, asks⟩ := fits.exists_asks t
  obtain ⟨r, settled, won⟩ :=
    Resolution.exists_ofCandidates_of_reduce (asks.no_shift no_shift) (asks.isLeast lowest)
  rw [wf.action_of_asks constructed found asks settled, won]

/-- A shift and a reduction are settled between each other. -/
theorem exists_contest (wf : g.WellFormed) (constructed : g.construct = .ok built)
    (found : (Automaton.ofGrammar g).states[s]? = some state) (shifts : state.Shifts g t)
    {rule : RuleId} (lowest : state.LowestReduction g t rule) :
    rule ≠ .accept ∧ ∃ target, (Automaton.ofGrammar g).goto s (.terminal t) = some target ∧
      built.table.action s t = some (Resolution.shiftOrReduce g s t target rule).action := by
  have fits := wf.coherent state (List.mem_of_getElem? found)
  obtain ⟨c, asks⟩ := fits.exists_asks t
  obtain ⟨target, shift⟩ := asks.exists_shift fits shifts
  have least := asks.isLeast lowest
  -- Rule 0 is completed at the end of the input only, which is never shifted.
  have proper : rule ≠ .accept := by
    rintro rfl
    exact fits.accepts_alone asks target shift least.1
  obtain ⟨r, settled, won⟩ := Resolution.exists_ofCandidates_of_both shift least proper
  refine ⟨proper, target, wf.goto_of_asks found asks shift, ?_⟩
  rw [wf.action_of_asks constructed found asks settled, won]

theorem settled (wf : g.WellFormed) (constructed : g.construct = .ok built)
    (found : (Automaton.ofGrammar g).states[s]? = some state) :
    Settled g (.ofGrammar g) s state t (built.table.action s t) where
  nothing := by
    rw [Option.eq_none_iff_forall_ne_some, ← not_exists, wf.exists_action_iff constructed found,
      not_or, not_exists]
  only_shift := wf.exists_shift_alone constructed found
  only_reduce no_shift _ := wf.action_of_lowest constructed found no_shift
  both shifts rule lowest := by
    obtain ⟨proper, target, moved, action⟩ := wf.exists_contest constructed found shifts lowest
    rw [action]
    refine ⟨proper, target, moved, fun higher => ?_, fun higher => ?_, fun equal => ⟨?_, ?_⟩⟩
    · rw [Resolution.action_of_higher_terminal higher]
    · rw [Resolution.action_of_higher_rule higher]
    · intro left
      rw [Resolution.action_of_left equal left]
    · intro other
      rw [Resolution.action_of_not_left equal other]

/-- A terminal is shifted if that wins against all rules that are complete. -/
theorem action_of_prefersShift (wf : g.WellFormed) (constructed : g.construct = .ok built)
    (found : (Automaton.ofGrammar g).states[s]? = some state) (shifts : state.Shifts g t)
    (preferred : ∀ rule, rule ≠ .accept → state.Reduces g t rule → g.PrefersShift rule t) :
    ∃ target, built.table.action s t = some (.shift target) := by
  have cell := wf.settled constructed found (t := t)
  by_cases reduced : ∃ rule, state.Reduces g t rule
  · obtain ⟨rule, reduces⟩ := reduced
    obtain ⟨lowest, least⟩ := reduces.exists_lowest
    obtain ⟨proper, target, _, lower, _, tied⟩ := cell.both shifts lowest least
    rcases preferred lowest proper least.1 with higher | ⟨equal, other⟩
    · exact ⟨target, lower higher⟩
    · exact ⟨target, (tied equal).2 other⟩
  · push Not at reduced
    obtain ⟨target, _, action⟩ := cell.only_shift shifts reduced
    exact ⟨target, action⟩

end Grammar.WellFormed

namespace Grammar

variable {ds : List Declaration} {g : Grammar}

end Grammar

end CanonicalLR
