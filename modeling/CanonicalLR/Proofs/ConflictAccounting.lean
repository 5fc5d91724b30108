import CanonicalLR.Examples.Small
import CanonicalLR.Proofs.ConflictResolution
import Mathlib.Data.Set.Card

/-!
# Conflicts are accounted for

The counts and the reports of a table are made cell by cell, so they follow from the items of the
states in the same way as the actions do. A rule that loses against a lower one counts once, however
many items it has; a shift against the lowest rule counts where the levels are equal; and only what
the declarations left open is reported. Cells are gone through state by state, in ascending order of
the terminals, and those for which nothing is asked add nothing.
-/
namespace CanonicalLR

/-! ### Statement -/

namespace Automaton

variable (g : Grammar) (a : Automaton)

/-- All cells of a table in ascending order. -/
def cells : List (StateId × TerminalId) :=
  (List.range a.size).flatMap fun s => (List.range g.terminals.length).map fun t => (s, t)

variable (s : StateId) (t : TerminalId)

/-- The rules that the complete items of a cell ask to reduce by. -/
def rulesAt : Set RuleId := {rule | ∃ state, a.states[s]? = some state ∧ state.Reduces g t rule}

/-- A shift and complete rules are up against each other in a cell, and this is the lowest rule. -/
def Contest (rule : RuleId) : Prop :=
  ∃ state, a.states[s]? = some state ∧ state.Shifts g t ∧ state.LowestReduction g t rule

/-- A shift and the lowest complete rule have the same level. -/
def Tied : Prop := ∃ rule, a.Contest g s t rule ∧ g.terminalLevel t = g.ruleLevel rule

open Classical in
/-- How many cells have a shift that ties with the lowest rule. -/
noncomputable def ties : Nat := (a.cells g).countP fun (s, t) => a.Tied g s t

/-- How many rules lose against a lower one, cell by cell. -/
noncomputable def losers : Nat := ((a.cells g).map fun (s, t) => (a.rulesAt g s t).ncard - 1).sum

end Automaton

/-- What is reported of a cell. -/
inductive Reports (g : Grammar) (a : Automaton) (table : Table) (s : StateId) (t : TerminalId) :
    List Warning → Prop
  /-- No shift is up against a rule. -/
  | uncontested (alone : ∀ rule, ¬ a.Contest g s t rule) : Reports g a table s t []
  /-- The levels decide, and both sides declare theirs. -/
  | ranked {rule : RuleId} (contest : a.Contest g s t rule)
      (unequal : g.terminalLevel t ≠ g.ruleLevel rule)
      (both : (g.terminalPrecedence t).isSome = (g.rulePrecedence (g.rule rule)).isSome) :
      Reports g a table s t []
  /-- The levels decide, and one side declares its level. -/
  | oneSided {rule : RuleId} {action : Action} (contest : a.Contest g s t rule)
      (unequal : g.terminalLevel t ≠ g.ruleLevel rule)
      (one : (g.terminalPrecedence t).isSome ≠ (g.rulePrecedence (g.rule rule)).isSome)
      (won : table.action s t = some action) :
      Reports g a table s t
        [.oneSidedPrecedence s (g.terminalName t) (g.ruleText (g.rule rule)) action.kind]
  /-- The levels are equal, and the terminal says how to group. -/
  | grouped {rule : RuleId} {p : Precedence} (contest : a.Contest g s t rule)
      (equal : g.terminalLevel t = g.ruleLevel rule) (declared : g.terminalPrecedence t = some p)
      (sided : p.assoc = .left ∨ p.assoc = .right) : Reports g a table s t []
  /-- The levels are equal, and the terminal is not to be used associatively. -/
  | nonassoc {rule : RuleId} {p : Precedence} (contest : a.Contest g s t rule)
      (equal : g.terminalLevel t = g.ruleLevel rule) (declared : g.terminalPrecedence t = some p)
      (nonassoc : p.assoc = .nonassoc) :
      Reports g a table s t [.nonassocConflict s (g.terminalName t)]
  /-- The levels are equal, and the terminal says nothing of its associativity. -/
  | unspecified {rule : RuleId} (contest : a.Contest g s t rule)
      (equal : g.terminalLevel t = g.ruleLevel rule)
      (silent : ∀ p, g.terminalPrecedence t = some p → p.assoc = .unspecified) :
      Reports g a table s t [.unspecifiedAssoc s (g.terminalName t)]

/-- The counts and the warnings of a table are those of its cells. -/
structure Accounted (g : Grammar) (a : Automaton) (table : Table) : Prop where
  covered : ∀ (s : StateId) (state : State) (t : TerminalId), a.states[s]? = some state →
    (state.Shifts g t ∨ ∃ rule, state.Reduces g t rule) → (s, t) ∈ a.cells g
  reduceReduce : table.conflicts.reduceReduce = a.losers g
  shiftReduce : table.conflicts.shiftReduce = a.ties g
  warnings : ∃ reports,
    List.Forall₂ (fun c report => Reports g a table c.1 c.2 report) (a.cells g) reports ∧
      table.warnings = reports.flatten ++
        if a.ties g = 0 ∧ a.losers g = 0 then [] else [.conflicts (a.ties g) (a.losers g)]

/-! ### Lists of cells -/

section Lists

variable {β γ : Type}

theorem exists_of_forall₂ {α β : Type} {related : α → β → Prop} {xs : List α} {ys : List β} {y : β}
    (paired : List.Forall₂ related xs ys) (member : y ∈ ys) : ∃ x ∈ xs, related x y := by
  induction paired with
  | nil => exact absurd member List.not_mem_nil
  | cons first _ ih =>
    rcases List.mem_cons.mp member with rfl | later
    · exact ⟨_, List.mem_cons_self, first⟩
    · obtain ⟨x, inside, holds⟩ := ih later
      exact ⟨x, List.mem_cons_of_mem _ inside, holds⟩

/-- Ascending keys from a range are met in the order of the range. -/
theorem map_snd_eq_filterMap_range {pairs : List (Nat × β)} {n : Nat}
    (ascending : (pairs.map (·.1)).Pairwise (· < ·)) (inside : ∀ key ∈ pairs.map (·.1), key < n) :
    pairs.map (·.2) = (List.range n).filterMap fun key => pairs.lookup key := by
  have keys : (List.range n).filter (· ∈ pairs.map (·.1)) = pairs.map (·.1) := by
    refine OrderedSet.eq_of_ascending (List.pairwise_lt_range.filter _) ascending fun key => ?_
    rw [List.mem_filter, List.mem_range, decide_eq_true_eq]
    exact and_iff_right_of_imp (inside key)
  have functional (key b b') (member : (key, b) ∈ pairs) (member' : (key, b') ∈ pairs) :
      b = b' := by
    have distinct : (pairs.map (·.1)).Nodup := ascending.imp Nat.ne_of_lt
    exact congrArg Prod.snd (List.inj_on_of_nodup_map distinct member member' rfl)
  have found (pair) (member : pair ∈ pairs) : pairs.lookup pair.1 = some pair.2 :=
    (lookup_eq_some_iff_mem functional).mpr member
  have missing (key) (absent : key ∉ pairs.map (·.1)) : pairs.lookup key = none :=
    List.lookup_eq_none_iff.mpr fun pair member => by
      rw [bne_iff_ne]
      rintro rfl
      exact absent (List.mem_map_of_mem member)
  calc pairs.map (·.2)
    _ = pairs.filterMap fun pair => pairs.lookup pair.1 := by
      rw [← List.filterMap_eq_map]
      exact List.filterMap_congr fun pair member => (found pair member).symm
    _ = (pairs.map (·.1)).filterMap fun key => pairs.lookup key := by
      rw [List.filterMap_map]
      rfl
    _ = (List.range n).filterMap fun key => pairs.lookup key := by
      rw [← keys, List.filterMap_filter]
      refine List.filterMap_congr fun key _ => ?_
      split
      · rfl
      next absent => exact (missing key (by simpa using absent)).symm

/-- The rows of a list are met in the order of their numbers. -/
theorem flatMap_eq_range (rows : List β) (f : β → List γ) :
    rows.flatMap f = (List.range rows.length).flatMap fun s => (rows[s]?.map f).getD [] := by
  have whole : rows.map some = (List.range rows.length).map (rows[·]?) := by
    refine List.ext_getElem? fun s => ?_
    by_cases inside : s < rows.length
    · simp [inside]
    · simp [inside]
  have each := congrArg (List.flatMap fun row => (row.map f).getD []) whole
  simpa [List.flatMap_map] using each

theorem countP_eq_sum (p : β → Bool) (cells : List β) :
    cells.countP p = (cells.map fun c => if p c then 1 else 0).sum := by
  induction cells with
  | nil => rfl
  | cons c cells ih => rw [List.countP_cons, List.map_cons, List.sum_cons, ih, Nat.add_comm]

theorem sum_filterMap (found : β → Option γ) (count : γ → Nat) (cells : List β) :
    ((cells.filterMap found).map count).sum =
      (cells.map fun c => ((found c).map count).getD 0).sum := by
  induction cells with
  | nil => rfl
  | cons c cells ih => cases here : found c <;> simp [here, ih]

theorem flatMap_filterMap {δ : Type} (found : β → Option γ) (report : γ → List δ)
    (cells : List β) :
    (cells.filterMap found).flatMap report =
      (cells.map fun c => ((found c).map report).getD []).flatten := by
  induction cells with
  | nil => rfl
  | cons c cells ih => cases here : found c <;> simp [here, ih]

end Lists

/-! ### What is settled in a cell -/

/-- The resolutions of a state stand in ascending order of their terminals. -/
theorem State.keys_ascending {g : Grammar} {state : State} {id : StateId}
    {rs : List (TerminalId × Resolution)} (resolved : state.resolutions g id = .ok rs) :
    (rs.map (·.1)).Pairwise (· < ·) := by
  simp only [resolutions, settle, bind_ok_iff] at resolved
  obtain ⟨shifts, _, all⟩ := resolved
  rw [keys_of_paired all]
  exact OrderedSet.ascending _

/-- What is settled on a terminal is found by looking the terminal up. -/
theorem State.Coherent.lookup_resolutions_iff {g : Grammar} {state : State} {id : StateId}
    (coherent : state.Coherent g) {rs : List (TerminalId × Resolution)}
    (resolved : state.resolutions g id = .ok rs) {t : TerminalId} {r : Resolution} :
    rs.lookup t = some r ↔
      ∃ c, state.Asks g t c ∧ Resolution.ofCandidates g id t c = .ok r := by
  have functional (t r r') (member : (t, r) ∈ rs) (member' : (t, r') ∈ rs) : r = r' := by
    obtain ⟨c, asks, result⟩ := (coherent.mem_resolutions resolved).mp member
    obtain ⟨c', asks', result'⟩ := (coherent.mem_resolutions resolved).mp member'
    obtain rfl := asks.unique asks'
    exact Except.ok.inj (result.symm.trans result')
  rw [lookup_eq_some_iff_mem functional, coherent.mem_resolutions resolved]

namespace Automaton

/-- Terminals that a state asks for are among those of the grammar. -/
def Covered (g : Grammar) (a : Automaton) : Prop :=
  ∀ (s : StateId) (state : State) (t : TerminalId), a.states[s]? = some state →
    (state.Shifts g t ∨ ∃ rule, state.Reduces g t rule) → t < g.terminals.length

theorem mem_cells {g : Grammar} {a : Automaton} {s : StateId} {t : TerminalId} :
    (s, t) ∈ a.cells g ↔ s < a.size ∧ t < g.terminals.length := by
  simp [cells]

end Automaton

namespace Table

variable {g : Grammar} {a : Automaton} {table : Table}

/-- A table has a row for each state. -/
theorem length_rows (generated : generate g a = .ok table) : table.rows.length = a.size := by
  simp only [generate, bind_ok_iff] at generated
  obtain ⟨rows, all, returned⟩ := generated
  cases returned
  have lengths := congrArg List.length (mapM_ok_iff.mp all)
  simpa [ofRows, Automaton.size] using lengths.symm

/-- What is settled in a cell, in a row for its state. -/
def settledAt (rows : List (State × List (TerminalId × Resolution)))
    (cell : StateId × TerminalId) : Option Resolution :=
  rows[cell.1]?.bind fun row => row.2.lookup cell.2

section Rows

variable {rows : List (State × List (TerminalId × Resolution))}
  (coherent : ∀ state ∈ a.states, state.Coherent g)
  (mem_rows : ∀ (s : StateId) (state : State) (rs : List (TerminalId × Resolution)),
    rows[s]? = some (state, rs) ↔ a.states[s]? = some state ∧ state.resolutions g s = .ok rs)

include coherent mem_rows

theorem settledAt_eq_some_iff {s : StateId} {t : TerminalId} {r : Resolution} :
    settledAt rows (s, t) = some r ↔ ∃ state c, a.states[s]? = some state ∧ state.Asks g t c ∧
      Resolution.ofCandidates g s t c = .ok r := by
  simp only [settledAt, Option.bind_eq_some_iff, Prod.exists, mem_rows]
  constructor
  · rintro ⟨state, rs, ⟨found, resolved⟩, looked_up⟩
    have fits := coherent state (List.mem_of_getElem? found)
    obtain ⟨c, asks, result⟩ := (fits.lookup_resolutions_iff resolved).mp looked_up
    exact ⟨state, c, found, asks, result⟩
  · rintro ⟨state, c, found, asks, result⟩
    have fits := coherent state (List.mem_of_getElem? found)
    obtain ⟨rs, resolved⟩ := fits.exists_resolutions s
    have there := (fits.lookup_resolutions_iff resolved).mpr ⟨c, asks, result⟩
    exact ⟨state, rs, ⟨found, resolved⟩, there⟩

/-- Cell by cell everything that the rows have settled is met, in the same order. -/
theorem filterMap_settledAt (covered : a.Covered g) (size : rows.length = a.size) :
    (a.cells g).filterMap (settledAt rows) = rows.flatMap fun row => row.2.map (·.2) := by
  rw [flatMap_eq_range, size, Automaton.cells, List.filterMap_flatMap]
  refine List.flatMap_congr fun s inside => ?_
  obtain ⟨⟨state, rs⟩, row⟩ : ∃ row, rows[s]? = some row :=
    ⟨_, List.getElem?_eq_getElem (size ▸ List.mem_range.mp inside)⟩
  obtain ⟨found, resolved⟩ := (mem_rows s state rs).mp row
  have fits := coherent state (List.mem_of_getElem? found)
  have known : ∀ t ∈ rs.map (·.1), t < g.terminals.length := by
    intro t member
    obtain ⟨⟨t, r⟩, entry, rfl⟩ := List.mem_map.mp member
    obtain ⟨c, asks, result⟩ := (fits.mem_resolutions resolved).mp entry
    exact covered s state t found
      ((asks.asked_iff fits).mp (Resolution.asked_of_ofCandidates result))
  rw [List.filterMap_map, row, Option.map_some, Option.getD_some,
    map_snd_eq_filterMap_range (State.keys_ascending resolved) known]
  refine List.filterMap_congr fun t _ => ?_
  simp [settledAt, row]

end Rows

/-- The counts and the warnings of a table come from what is settled in its cells, one after the
other. -/
theorem exists_settled (coherent : ∀ state ∈ a.states, state.Coherent g) (covered : a.Covered g)
    (generated : generate g a = .ok table) :
    ∃ settled : StateId × TerminalId → Option Resolution,
      (∀ s t r, settled (s, t) = some r ↔ ∃ state c, a.states[s]? = some state ∧
        state.Asks g t c ∧ Resolution.ofCandidates g s t c = .ok r) ∧
      table.conflicts = .total (((a.cells g).filterMap settled).map (·.conflicts)) ∧
      table.warnings =
        ((a.cells g).filterMap settled).flatMap (·.warnings) ++ table.conflicts.warnings := by
  obtain ⟨rows, mem_rows, rows_eq, conflicts, warnings⟩ := exists_rows generated
  have size : rows.length = a.size := by rw [← length_rows generated, rows_eq, List.length_map]
  have each := filterMap_settledAt coherent mem_rows covered size
  refine ⟨settledAt rows, fun s t r => settledAt_eq_some_iff coherent mem_rows, ?_, ?_⟩
  · rw [each, conflicts]
    simp [List.map_flatMap, Function.comp_def]
  · rw [each, warnings]
    simp [List.flatMap_assoc, List.flatMap_map]

end Table

/-! ### The account of one cell -/

/-- Members of an ordered set are counted by its list. -/
theorem OrderedSet.ncard_eq_size {α : Type} [LT α] [StrictTotal α] (s : OrderedSet α) :
    {a | a ∈ s}.ncard = s.size := by
  classical
  have same : {a | a ∈ s} = ↑s.toList.toFinset := by
    ext a
    simp
  rw [same, Set.ncard_coe_finset, List.toFinset_card_of_nodup s.nodup, OrderedSet.size]

namespace Resolution

variable {g : Grammar} {id : StateId} {t : TerminalId} {c : Candidates} {r : Resolution}
  {target : StateId} {rule : RuleId}

/-- The ways in which a cell is settled. -/
theorem ofCandidates_cases (settled : ofCandidates g id t c = .ok r) :
    (∃ target, c.shift = some target ∧ c.reduces.toList = [] ∧
      r = uncontested (.shift target)) ∨
    (∃ rule losers, c.shift = none ∧ c.reduces.toList = rule :: losers ∧
      r = (uncontested (.completing rule)).outdoing losers.length) ∨
    (∃ target rule losers, c.shift = some target ∧ c.reduces.toList = rule :: losers ∧
      rule ≠ .accept ∧ r = (shiftOrReduce g id t target rule).outdoing losers.length) := by
  simp only [ofCandidates] at settled
  split at settled
  next => cases settled
  next target shift none => exact .inl ⟨target, shift, none, (Except.ok.inj settled).symm⟩
  next rule losers shift reduces =>
    exact .inr (.inl ⟨rule, losers, shift, reduces, (Except.ok.inj settled).symm⟩)
  next target rule losers shift reduces =>
    split at settled
    next => cases settled
    next proper =>
      exact .inr (.inr ⟨target, rule, losers, shift, reduces, proper,
        (Except.ok.inj settled).symm⟩)

theorem conflicts_of_tied (equal : g.terminalLevel t = g.ruleLevel rule) :
    (shiftOrReduce g id t target rule).conflicts = ⟨1, 0⟩ := by
  rw [shiftOrReduce_of_equal_levels equal]
  cases ((g.terminalPrecedence t).map (·.assoc)).getD Assoc.unspecified <;> rfl

theorem conflicts_of_untied (unequal : g.terminalLevel t ≠ g.ruleLevel rule) :
    (shiftOrReduce g id t target rule).conflicts = .none := by
  rw [Grammar.ruleLevel, Grammar.terminalLevel] at unequal
  simp only [shiftOrReduce]
  split
  · rfl
  · split
    · rfl
    · omega

/-- On unequal levels it is reported which action won, if a precedence is missing. -/
theorem warnings_of_untied (unequal : g.terminalLevel t ≠ g.ruleLevel rule) :
    (shiftOrReduce g id t target rule).warnings =
      if (g.terminalPrecedence t).isNone || (g.rulePrecedence (g.rule rule)).isNone then
        [.oneSidedPrecedence id (g.terminalName t) (g.ruleText (g.rule rule))
          (shiftOrReduce g id t target rule).action.kind]
      else [] := by
  rw [Grammar.ruleLevel, Grammar.terminalLevel] at unequal
  simp only [shiftOrReduce]
  split
  · rfl
  · split
    · rfl
    · omega

/-- The reductions that lose are all but the first. -/
theorem reduceReduce_eq (settled : ofCandidates g id t c = .ok r) :
    r.conflicts.reduceReduce = c.reduces.size - 1 := by
  rw [OrderedSet.size]
  rcases ofCandidates_cases settled with ⟨_, _, reduces, rfl⟩ | ⟨rule, losers, _, reduces, rfl⟩ |
    ⟨target, rule, losers, _, reduces, _, rfl⟩
  · rw [reduces]
    rfl
  · simp [reduces, uncontested, outdoing, Conflicts.add, Conflicts.none]
  · -- Between the shift and the first of them no reduction is counted.
    have none : (shiftOrReduce g id t target rule).conflicts.reduceReduce = 0 := by
      by_cases equal : g.terminalLevel t = g.ruleLevel rule
      · rw [conflicts_of_tied equal]
      · rw [conflicts_of_untied equal]
        rfl
    simp [reduces, outdoing, Conflicts.add, none]

end Resolution

/-- Conflicts are summed up kind by kind. -/
theorem Conflicts.total_eq (cs : List Conflicts) :
    total cs = ⟨(cs.map (·.shiftReduce)).sum, (cs.map (·.reduceReduce)).sum⟩ := by
  induction cs with
  | nil => rfl
  | cons c cs ih =>
    simp only [List.map_cons, List.sum_cons]
    calc total (c :: cs)
      _ = c.add (total cs) := rfl
      _ = c.add ⟨(cs.map (·.shiftReduce)).sum, (cs.map (·.reduceReduce)).sum⟩ := by rw [ih]

section Cells

variable {g : Grammar} {a : Automaton} {table : Table} {s : StateId} {t : TerminalId}
  {state : State} {c : Candidates} {r : Resolution} {rule : RuleId}

/-- A shift and the first of the reductions are up against each other. -/
theorem State.Asks.contest_iff (asks : state.Asks g t c) (coherent : state.Coherent g)
    (found : a.states[s]? = some state) (rule : RuleId) : a.Contest g s t rule ↔
      (∃ target, c.shift = some target) ∧ ∃ losers, c.reduces.toList = rule :: losers := by
  constructor
  · rintro ⟨state', found', shifts, lowest⟩
    obtain rfl := Option.some.inj (found.symm.trans found')
    exact ⟨asks.exists_shift coherent shifts,
      OrderedSet.exists_toList_of_isLeast (asks.isLeast lowest)⟩
  · rintro ⟨⟨target, shift⟩, losers, listed⟩
    have least := OrderedSet.isLeast_of_toList listed
    simp only [asks.reduces] at least
    exact ⟨state, found, ((asks.shift target).mp shift).1, least⟩

theorem rulesAt_of_found (found : a.states[s]? = some state) :
    a.rulesAt g s t = {rule | state.Reduces g t rule} := by
  ext rule
  simp [Automaton.rulesAt, found]

open Classical in
/-- What is settled in a cell agrees with what its items ask for. -/
structure Account (g : Grammar) (a : Automaton) (table : Table) (s : StateId) (t : TerminalId)
    (settled : Option Resolution) : Prop where
  losers : (settled.map (·.conflicts.reduceReduce)).getD 0 = (a.rulesAt g s t).ncard - 1
  tied : (settled.map (·.conflicts.shiftReduce)).getD 0 = if a.Tied g s t then 1 else 0
  reports : Reports g a table s t ((settled.map (·.warnings)).getD [])

/-- A tie counts as one conflict. -/
theorem shiftReduce_eq (asks : state.Asks g t c) (coherent : state.Coherent g)
    (found : a.states[s]? = some state) (settled : Resolution.ofCandidates g s t c = .ok r) :
    r.conflicts.shiftReduce = open Classical in if a.Tied g s t then 1 else 0 := by
  have contest := asks.contest_iff coherent found
  rcases Resolution.ofCandidates_cases settled with ⟨_, _, reduces, rfl⟩ |
    ⟨rule, losers, shift, reduces, rfl⟩ | ⟨target, rule, losers, shift, reduces, _, rfl⟩
  · rw [if_neg]
    · rfl
    · rintro ⟨rule, contested, _⟩
      obtain ⟨_, _, listed⟩ := (contest rule).mp contested
      rw [reduces] at listed
      cases listed
  · rw [if_neg]
    · rfl
    · rintro ⟨rule, contested, _⟩
      obtain ⟨⟨_, shifts⟩, _⟩ := (contest rule).mp contested
      rw [shift] at shifts
      cases shifts
  · have tied : a.Tied g s t ↔ g.terminalLevel t = g.ruleLevel rule := by
      simp [Automaton.Tied, contest, shift, reduces]
    by_cases equal : g.terminalLevel t = g.ruleLevel rule
    · rw [if_pos (tied.mpr equal)]
      simp [Resolution.outdoing, Conflicts.add, Resolution.conflicts_of_tied equal]
    · rw [if_neg (tied.not.mpr equal)]
      simp [Resolution.outdoing, Conflicts.add, Conflicts.none,
        Resolution.conflicts_of_untied equal]

/-- A shift against a rule is reported by its levels. -/
theorem reports_of_contest (contested : a.Contest g s t rule) {target : StateId}
    (action : table.action s t = some (Resolution.shiftOrReduce g s t target rule).action) :
    Reports g a table s t (Resolution.shiftOrReduce g s t target rule).warnings := by
  by_cases equal : g.terminalLevel t = g.ruleLevel rule
  · rw [Resolution.shiftOrReduce_of_equal_levels equal]
    cases declared : g.terminalPrecedence t with
    | none => exact .unspecified contested equal (by simp [declared])
    | some p =>
      obtain ⟨priority, assoc⟩ := p
      cases assoc with
      | unspecified => exact .unspecified contested equal (by simp [declared])
      | left => exact .grouped contested equal declared (.inl rfl)
      | right => exact .grouped contested equal declared (.inr rfl)
      | nonassoc => exact .nonassoc contested equal declared rfl
  · rw [Resolution.warnings_of_untied equal]
    -- Without any precedence the levels would be equal.
    have one : ((g.terminalPrecedence t).isNone || (g.rulePrecedence (g.rule rule)).isNone) = true ↔
        (g.terminalPrecedence t).isSome ≠ (g.rulePrecedence (g.rule rule)).isSome := by
      rw [Grammar.terminalLevel, Grammar.ruleLevel] at equal
      cases shift : g.terminalPrecedence t <;> cases reduce : g.rulePrecedence (g.rule rule) <;>
        simp_all
    split
    next missing => exact .oneSided contested equal (one.mp missing) action
    next declared => exact .ranked contested equal (not_not.mp (one.not.mp declared))

/-- Whatever is settled in a cell is accounted for. -/
theorem account_of_settled (asks : state.Asks g t c) (coherent : state.Coherent g)
    (found : a.states[s]? = some state) (settled : Resolution.ofCandidates g s t c = .ok r)
    (action : table.action s t = some r.action) : Account g a table s t (some r) where
  losers := by
    simp only [rulesAt_of_found found, ← asks.reduces, OrderedSet.ncard_eq_size]
    exact Resolution.reduceReduce_eq settled
  tied := shiftReduce_eq asks coherent found settled
  reports := by
    have contest := asks.contest_iff coherent found
    rw [Option.map_some, Option.getD_some]
    rcases Resolution.ofCandidates_cases settled with ⟨_, _, reduces, rfl⟩ |
      ⟨rule, losers, shift, reduces, rfl⟩ | ⟨target, rule, losers, shift, reduces, _, rfl⟩
    · exact .uncontested fun rule => by simp [contest, reduces]
    · exact .uncontested fun rule => by simp [contest, shift]
    · exact reports_of_contest ((contest rule).mpr ⟨⟨target, shift⟩, losers, reduces⟩) action

/-- A cell in which nothing is asked for adds nothing. -/
theorem account_of_nothing (found : a.states[s]? = some state) (no_shift : ¬ state.Shifts g t)
    (no_rule : ∀ rule, ¬ state.Reduces g t rule) : Account g a table s t none := by
  have none (rule : RuleId) : ¬ a.Contest g s t rule := by
    rintro ⟨state', found', shifts, _⟩
    obtain rfl := Option.some.inj (found.symm.trans found')
    exact no_shift shifts
  refine ⟨?_, ?_, .uncontested none⟩
  · have empty : a.rulesAt g s t = ∅ := by
      rw [rulesAt_of_found found]
      exact Set.eq_empty_of_forall_notMem no_rule
    rw [empty, Set.ncard_empty]
    rfl
  · rw [if_neg]
    · rfl
    · rintro ⟨rule, contested, _⟩
      exact none rule contested

end Cells

/-! ### The account of a table -/

namespace Table

variable {g : Grammar} {a : Automaton} {table : Table}

/-- Every cell is accounted for by what is settled in it. -/
theorem account_of_cell (coherent : ∀ state ∈ a.states, state.Coherent g)
    (generated : generate g a = .ok table) {settled : StateId × TerminalId → Option Resolution}
    (settled_iff : ∀ s t r, settled (s, t) = some r ↔ ∃ state c, a.states[s]? = some state ∧
      state.Asks g t c ∧ Resolution.ofCandidates g s t c = .ok r)
    {s : StateId} {t : TerminalId} (member : (s, t) ∈ a.cells g) :
    Account g a table s t (settled (s, t)) := by
  have found : a.states[s]? = some _ :=
    List.getElem?_eq_getElem (Automaton.mem_cells.mp member).1
  have fits := coherent _ (List.mem_of_getElem? found)
  obtain ⟨c, asks⟩ := fits.exists_asks t
  cases result : settled (s, t) with
  | some r =>
    obtain ⟨state, c, found, asks, result⟩ := (settled_iff s t r).mp result
    have fits := coherent state (List.mem_of_getElem? found)
    exact account_of_settled asks fits found result ((action_eq_some_iff coherent generated).mpr
      ⟨state, c, r, found, asks, result, rfl⟩)
  | none =>
    -- Were something asked for, it would have been settled.
    have nothing : ¬ ((∃ s, c.shift = some s) ∨ ∃ rule, rule ∈ c.reduces) := by
      intro asked
      obtain ⟨r, settles⟩ := Resolution.exists_ofCandidates asked (fits.accepts_alone asks)
      have there := (settled_iff s t r).mpr ⟨_, c, found, asks, settles⟩
      rw [result] at there
      cases there
    rw [asks.asked_iff fits, not_or, not_exists] at nothing
    exact account_of_nothing found nothing.1 nothing.2

theorem accounted (coherent : ∀ state ∈ a.states, state.Coherent g) (covered : a.Covered g)
    (generated : generate g a = .ok table) : Accounted g a table := by
  obtain ⟨settled, settled_iff, conflicts, warnings⟩ := exists_settled coherent covered generated
  have account (cell) (member : cell ∈ a.cells g) :
      Account g a table cell.1 cell.2 (settled cell) :=
    account_of_cell coherent generated settled_iff member
  have losers : table.conflicts.reduceReduce = a.losers g := by
    simp only [conflicts, Conflicts.total_eq, List.map_map, sum_filterMap, Automaton.losers]
    exact congrArg List.sum (List.map_congr_left fun cell member => (account cell member).losers)
  have ties : table.conflicts.shiftReduce = a.ties g := by
    classical
    simp only [conflicts, Conflicts.total_eq, List.map_map, sum_filterMap, Automaton.ties,
      countP_eq_sum]
    refine congrArg List.sum (List.map_congr_left fun cell member => ?_)
    exact (account cell member).tied.trans (by simp)
  refine ⟨?_, losers, ties, ?_⟩
  · intro s state t found asked
    exact Automaton.mem_cells.mpr
      ⟨(List.getElem?_eq_some_iff.mp found).1, covered s state t found asked⟩
  · refine ⟨(a.cells g).map fun cell => ((settled cell).map (·.warnings)).getD [], ?_, ?_⟩
    · rw [List.forall₂_map_right_iff, List.forall₂_same]
      exact fun cell member => (account cell member).reports
    · rw [warnings, flatMap_filterMap, Conflicts.warnings, ← losers, ← ties]
      refine congrArg _ (if_congr ?_ rfl rfl)
      rw [Conflicts.none, ← Conflicts.mk.injEq]

end Table

namespace Grammar

variable {g : Grammar} {built : Construction}

/-- Items have no terminals but those of the grammar. -/
theorem WellFormed.covered (wf : g.WellFormed) : (Automaton.ofGrammar g).Covered g := by
  rintro s state t found (⟨i, _, next⟩ | ⟨rule, i, closed, _, rfl, _⟩)
  · exact (wf.knows_next next).2.2
  · obtain ⟨kernel, numbered, rfl⟩ := wf.getElem?_states_iff.mp found
    have reached := (Exploration.explores_of_start g).reached _ (List.mem_of_getElem? numbered)
    exact wf.lookahead_known (wf.lookahead_known_of_reached reached) (wf.mem_closure_iff.mp closed)

theorem warnings_of_construct (constructed : g.construct = .ok built) :
    built.warnings = g.warnings ++ (Automaton.ofGrammar g).warnings ++ built.table.warnings := by
  obtain ⟨table, _, returned⟩ := bind_ok_iff.mp constructed
  cases returned
  rfl

end Grammar

end CanonicalLR
