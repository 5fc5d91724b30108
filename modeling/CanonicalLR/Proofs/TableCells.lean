import CanonicalLR.Proofs.CanonicalCollection
import CanonicalLR.Proofs.Traversals
import CanonicalLR.Table.Contest
import CanonicalLR.Table.Generation

/-!
# The cells of a table

A table has an action in a cell exactly if the items of the state ask for one there. It is a shift
to the state that the automaton moves to, or the reduction by the rule of a complete item; where the
items ask for one action only, it is that one. The end of the input is never shifted, so a table can
always be made of a well-formed grammar's automaton.
-/
namespace CanonicalLR

/-! ### What states ask for -/

namespace State

/-- A state moves on a symbol in one way only, and the end of the input is not for it to read. -/
structure Deterministic (g : Grammar) (state : State) : Prop where
  functional : ∀ x s s', (x, s) ∈ state.moves → (x, s') ∈ state.moves → s = s'
  eoi_not_shifted : ¬ state.Shifts g .eoi

/-- The moves of a state fit its items: it has one on each terminal that an item has next. -/
structure Coherent (g : Grammar) (state : State) : Prop extends state.Deterministic g where
  moves : ∀ t, state.Shifts g t → ∃ s, (.terminal t, s) ∈ state.moves

/-- The candidates are what the items of a state ask for on a terminal. -/
structure Asks (g : Grammar) (state : State) (t : TerminalId) (c : Candidates) : Prop where
  shift : ∀ s, c.shift = some s ↔ state.Shifts g t ∧ (.terminal t, s) ∈ state.moves
  reduces : ∀ rule, rule ∈ c.reduces ↔ state.Reduces g t rule

theorem Asks.unique {g : Grammar} {state : State} {t : TerminalId} {c c' : Candidates}
    (asks : state.Asks g t c) (asks' : state.Asks g t c') : c = c' := by
  obtain ⟨shift, reduces⟩ := c
  obtain ⟨shift', reduces'⟩ := c'
  have shifts : shift = shift' := Option.ext fun s => (asks.shift s).trans (asks'.shift s).symm
  have rules : reduces = reduces' :=
    OrderedSet.ext fun rule => (asks.reduces rule).trans (asks'.reduces rule).symm
  rw [shifts, rules]

variable {g : Grammar} {state : State} {t : TerminalId}

theorem mem_gotos {n : NonterminalId} {s : StateId} :
    (n, s) ∈ state.gotos ↔ (.nonterminal n, s) ∈ state.moves := by
  simp only [gotos, List.mem_filterMap, Option.map_eq_some_iff, Prod.exists, Prod.mk.injEq,
    Symbol.nonterminal?_eq_some_iff]
  constructor
  · rintro ⟨x, s', move, m, rfl, rfl, rfl⟩
    exact move
  · intro move
    exact ⟨_, s, move, n, rfl, rfl, rfl⟩

/-- The target of a shift is where the one move on the terminal leads. -/
theorem Deterministic.shiftTarget_of_move (fits : state.Deterministic g) {target : StateId}
    (move : (.terminal t, target) ∈ state.moves) (id : StateId) :
    state.shiftTarget g id t = .ok target := by
  simp only [shiftTarget]
  split
  next none =>
    have passed_over := List.filterMap_eq_nil_iff.mp none _ move
    simp at passed_over
  next first others all =>
    -- All moves on the terminal lead to one state, so the first target is not up against another.
    have same (u : StateId) (member : u ∈ first :: others) : u = target := by
      rw [← all] at member
      obtain ⟨⟨x, s⟩, move', selected⟩ := List.mem_filterMap.mp member
      obtain ⟨rfl, rfl⟩ : x = .terminal t ∧ s = u := by simpa using selected
      exact fits.functional _ _ _ move' move
    split
    · rw [same first List.mem_cons_self]
    next second other =>
      have different : second ≠ first := by simpa using List.find?_some other
      have second_same := same second (List.mem_cons_of_mem _ (List.mem_of_find?_eq_some other))
      exact absurd (second_same.trans (same first List.mem_cons_self).symm) different

theorem shiftTarget_of_no_move (none : ∀ s, (.terminal t, s) ∉ state.moves) (id : StateId) :
    state.shiftTarget g id t = .error (.missingTransition id (g.terminalName t)) := by
  simp only [shiftTarget]
  split
  · rfl
  next first others all =>
    -- Any target would come from a move.
    have selected : first ∈ first :: others := List.mem_cons_self
    rw [← all] at selected
    obtain ⟨⟨x, s⟩, move, same⟩ := List.mem_filterMap.mp selected
    obtain ⟨rfl, rfl⟩ : x = .terminal t ∧ s = first := by simpa using same
    exact absurd move (none s)

theorem Deterministic.shiftTarget_eq_ok_iff (fits : state.Deterministic g) {id s : StateId} :
    state.shiftTarget g id t = .ok s ↔ (.terminal t, s) ∈ state.moves := by
  constructor
  · intro decided
    by_cases moves : ∃ u, (.terminal t, u) ∈ state.moves
    · obtain ⟨target, move⟩ := moves
      rw [fits.shiftTarget_of_move move] at decided
      rwa [← Except.ok.inj decided]
    · push Not at moves
      rw [shiftTarget_of_no_move moves] at decided
      cases decided
  · intro move
    exact fits.shiftTarget_of_move move id

namespace Coherent

/-- The targets of shifts are what moves on terminals after markers lead to. -/
theorem mem_shifts (coherent : state.Coherent g) {id : StateId}
    {shifts : List (TerminalId × StateId)}
    (shifted : ((state.shiftable g).mapM fun t => do return (t, ← state.shiftTarget g id t)) =
      .ok shifts) {s : StateId} :
    (t, s) ∈ shifts ↔ state.Shifts g t ∧ (.terminal t, s) ∈ state.moves := by
  rw [mem_of_paired shifted, mem_shiftable, coherent.shiftTarget_eq_ok_iff]

theorem asks_candidates (coherent : state.Coherent g) {shifts : List (TerminalId × StateId)}
    (mem_shifts : ∀ t s, (t, s) ∈ shifts ↔ state.Shifts g t ∧ (.terminal t, s) ∈ state.moves) :
    state.Asks g t (candidates shifts (state.reducible g) t) where
  shift s := by
    have functional (a b b') (member : (a, b) ∈ shifts) (member' : (a, b') ∈ shifts) : b = b' :=
      coherent.functional _ _ _ ((mem_shifts a b).mp member).2 ((mem_shifts a b').mp member').2
    exact (lookup_eq_some_iff_mem functional).trans (mem_shifts t s)
  reduces rule := by
    rw [← mem_reducible, candidates, OrderedSet.mem_ofList]
    simp only [List.mem_filterMap, Prod.exists, Option.ite_none_right_eq_some, Option.some.injEq]
    exact ⟨fun ⟨_, _, member, rfl, rfl⟩ => member, fun member => ⟨t, rule, member, rfl, rfl⟩⟩

end Coherent

end State

/-- What a complete item of a rule asks for. -/
def Action.completing (rule : RuleId) : Action :=
  if rule = .accept then .accept else .reduce rule

theorem Action.completing_eq_reduce_iff {rule id : RuleId} :
    Action.completing rule = .reduce id ↔ rule = id ∧ id ≠ .accept := by
  rw [completing]
  split
  next accepting =>
    refine iff_of_false (by simp) ?_
    rintro ⟨rfl, proper⟩
    exact proper accepting
  next proper =>
    rw [Action.reduce.injEq]
    exact ⟨fun same => ⟨same, same ▸ proper⟩, fun both => both.1⟩

theorem Action.completing_eq_accept_iff {rule : RuleId} :
    Action.completing rule = .accept ↔ rule = .accept := by
  rw [completing]
  split <;> simp [*]

theorem Action.completing_ne_shift {rule : RuleId} {s : StateId} :
    Action.completing rule ≠ .shift s := by
  rw [completing]
  split <;> simp

namespace Resolution

variable {g : Grammar} {id : StateId} {t : TerminalId} {c : Candidates}

/-- Only what is asked for is settled. -/
theorem asked_of_ofCandidates {r : Resolution} (settled : ofCandidates g id t c = .ok r) :
    (∃ s, c.shift = some s) ∨ ∃ rule, rule ∈ c.reduces := by
  simp only [ofCandidates] at settled
  split at settled
  · cases settled
  next shift _ => exact .inl ⟨_, shift⟩
  next rule _ _ reduces =>
    exact .inr ⟨rule, OrderedSet.mem_toList.mp (reduces ▸ List.mem_cons_self)⟩
  next shift _ => exact .inl ⟨_, shift⟩

theorem exists_ofCandidates (asked : (∃ s, c.shift = some s) ∨ ∃ rule, rule ∈ c.reduces)
    (accepts_alone : ∀ s, c.shift = some s → .accept ∉ c.reduces) :
    ∃ r, ofCandidates g id t c = .ok r := by
  simp only [ofCandidates]
  split
  next shift reduces =>
    rcases asked with ⟨s, shifts⟩ | ⟨rule, member⟩
    · rw [shift] at shifts
      cases shifts
    · rw [← OrderedSet.mem_toList, reduces] at member
      exact absurd member List.not_mem_nil
  · exact ⟨_, rfl⟩
  · exact ⟨_, rfl⟩
  next target rule losers shift reduces =>
    have member : rule ∈ c.reduces := OrderedSet.mem_toList.mp (reduces ▸ List.mem_cons_self)
    split
    next accepting => exact absurd (accepting ▸ member) (accepts_alone target shift)
    · exact ⟨_, rfl⟩

theorem shiftOrReduce_action (target : StateId) (rule : RuleId) :
    (shiftOrReduce g id t target rule).action = .shift target ∨
      (shiftOrReduce g id t target rule).action = .reduce rule := by
  simp only [shiftOrReduce]
  split
  · exact .inl rfl
  · split
    · exact .inr rfl
    · cases (Option.map _ _).getD Assoc.unspecified with
      | left => exact .inr rfl
      | right | nonassoc | unspecified => exact .inl rfl

/-- Whatever wins is among the candidates. -/
theorem action_cases {r : Resolution} (settled : ofCandidates g id t c = .ok r) :
    (∃ s, c.shift = some s ∧ r.action = .shift s) ∨
      ∃ rule ∈ c.reduces, r.action = .completing rule := by
  have head {rule : RuleId} {losers : List RuleId} (reduces : c.reduces.toList = rule :: losers) :
      rule ∈ c.reduces := OrderedSet.mem_toList.mp (reduces ▸ List.mem_cons_self)
  simp only [ofCandidates] at settled
  split at settled
  · cases settled
  next shift _ =>
    cases settled
    exact .inl ⟨_, shift, rfl⟩
  next rule losers _ reduces =>
    cases settled
    exact .inr ⟨rule, head reduces, rfl⟩
  next target rule losers shift reduces =>
    split at settled
    · cases settled
    next proper =>
      cases settled
      rcases shiftOrReduce_action target rule with shifts | reduced
      · exact .inl ⟨target, shift, shifts⟩
      · exact .inr ⟨rule, head reduces, reduced.trans (if_neg proper).symm⟩

/-- A shift wins if nothing else is asked for. -/
theorem ofCandidates_shift {s : StateId} (shift : c.shift = some s)
    (alone : ∀ rule, rule ∉ c.reduces) :
    ofCandidates g id t c = .ok (uncontested (.shift s)) := by
  have none : c.reduces.toList = [] := List.eq_nil_iff_forall_not_mem.mpr alone
  simp only [ofCandidates, shift, none]

/-- A reduction wins if nothing else is asked for. -/
theorem ofCandidates_reduce {rule : RuleId} (shift : c.shift = none)
    (reduces : ∀ other, other ∈ c.reduces ↔ other = rule) :
    ofCandidates g id t c = .ok (uncontested (.completing rule)) := by
  have only : c.reduces = .ofList [rule] := OrderedSet.ext (by simpa using reduces)
  have single : c.reduces.toList = [rule] := by rw [only]; rfl
  simp only [ofCandidates, shift, single]
  rfl

end Resolution

namespace State.Coherent

variable {g : Grammar} {state : State} {t : TerminalId} {id : StateId}

/-- Accepting is not up against a shift. -/
theorem accepts_alone (coherent : state.Coherent g) {c : Candidates} (asks : state.Asks g t c)
    (s : StateId) (shift : c.shift = some s) : .accept ∉ c.reduces := by
  intro member
  -- Rule 0 is completed at the end of the input, which is never shifted.
  obtain ⟨_, _, _, _, _, at_end⟩ := (asks.reduces _).mp member
  obtain rfl := at_end rfl
  exact coherent.eoi_not_shifted ((asks.shift s).mp shift).1

theorem mem_resolutions (coherent : state.Coherent g) {rs : List (TerminalId × Resolution)}
    (resolved : state.resolutions g id = .ok rs) {r : Resolution} :
    (t, r) ∈ rs ↔ ∃ c, state.Asks g t c ∧ Resolution.ofCandidates g id t c = .ok r := by
  simp only [resolutions, settle, bind_ok_iff] at resolved
  obtain ⟨shifts, shifted, all⟩ := resolved
  have mem_shifts (t s) := coherent.mem_shifts shifted (t := t) (s := s)
  rw [mem_of_paired all]
  constructor
  · rintro ⟨_, settled⟩
    exact ⟨_, coherent.asks_candidates mem_shifts, settled⟩
  · -- What is asked for on a terminal puts the terminal into the list.
    rintro ⟨c, asks, settled⟩
    refine ⟨OrderedSet.mem_ofList.mpr (List.mem_append.mpr ?_), ?_⟩
    · rcases Resolution.asked_of_ofCandidates settled with ⟨s, shift⟩ | ⟨rule, reduces⟩
      · exact .inl (List.mem_map.mpr ⟨_, (mem_shifts t s).mpr ((asks.shift s).mp shift), rfl⟩)
      · have member := mem_reducible.mpr ((asks.reduces rule).mp reduces)
        exact .inr (List.mem_map.mpr ⟨_, member, rfl⟩)
    · rwa [(coherent.asks_candidates mem_shifts).unique asks]

theorem exists_shifts (coherent : state.Coherent g) (id : StateId) :
    ∃ shifts, ((state.shiftable g).mapM fun t => do return (t, ← state.shiftTarget g id t)) =
      .ok shifts := by
  refine exists_paired fun t member => ?_
  obtain ⟨s, move⟩ := coherent.moves t (mem_shiftable.mp member)
  exact ⟨s, coherent.shiftTarget_of_move move id⟩

theorem exists_asks (coherent : state.Coherent g) (t : TerminalId) : ∃ c, state.Asks g t c := by
  obtain ⟨shifts, shifted⟩ := coherent.exists_shifts 0
  exact ⟨_, coherent.asks_candidates fun _ _ => coherent.mem_shifts shifted⟩

theorem exists_resolutions (coherent : state.Coherent g) (id : StateId) :
    ∃ rs, state.resolutions g id = .ok rs := by
  obtain ⟨shifts, shifted⟩ := coherent.exists_shifts id
  have mem_shifts (t s) := coherent.mem_shifts shifted (t := t) (s := s)
  have asks (t) := coherent.asks_candidates (t := t) mem_shifts
  have settled : ∀ t ∈ (OrderedSet.ofList
      (shifts.map (·.1) ++ (state.reducible g).map (·.1))).toList,
      ∃ r, Resolution.ofCandidates g id t (candidates shifts (state.reducible g) t) = .ok r := by
    intro t member
    refine Resolution.exists_ofCandidates ?_ (coherent.accepts_alone (asks t))
    rcases List.mem_append.mp (OrderedSet.mem_ofList.mp member) with shift | reduce
    · obtain ⟨⟨t, s⟩, pair, rfl⟩ := List.mem_map.mp shift
      exact .inl ⟨s, ((asks t).shift s).mpr ((mem_shifts t s).mp pair)⟩
    · obtain ⟨⟨t, rule⟩, pair, rfl⟩ := List.mem_map.mp reduce
      exact .inr ⟨rule, ((asks t).reduces rule).mpr (mem_reducible.mp pair)⟩
  obtain ⟨rs, all⟩ := exists_paired settled
  exact ⟨rs, bind_ok_iff.mpr ⟨shifts, shifted, all⟩⟩

end State.Coherent

/-! ### Rows -/

namespace Table

variable {g : Grammar} {a : Automaton} {table : Table}

theorem exists_generate (coherent : ∀ state ∈ a.states, state.Coherent g) :
    ∃ table, generate g a = .ok table := by
  have resolved : ∀ entry ∈ a.states.zipIdx,
      ∃ row, (do return (entry.1, ← entry.1.resolutions g entry.2)) = Except.ok row := by
    rintro ⟨state, id⟩ member
    have in_states := List.mem_of_getElem? (List.mem_zipIdx_iff_getElem?.mp member)
    obtain ⟨rs, result⟩ := (coherent state in_states).exists_resolutions id
    exact ⟨(state, rs), bind_ok_iff.mpr ⟨rs, result, rfl⟩⟩
  obtain ⟨rows, all⟩ := exists_mapM_ok resolved
  exact ⟨_, bind_ok_iff.mpr ⟨rows, all, rfl⟩⟩

/-- A generated table is made of the resolutions of each state. -/
theorem exists_rows (generated : generate g a = .ok table) :
    ∃ rows : List (State × List (TerminalId × Resolution)),
      (∀ (s : StateId) (state : State) (rs : List (TerminalId × Resolution)),
        rows[s]? = some (state, rs) ↔
          a.states[s]? = some state ∧ state.resolutions g s = .ok rs) ∧
      table.rows = rows.map (fun (state, rs) => state.row rs) ∧
      table.conflicts =
        .total (rows.flatMap fun (_, rs) => rs.map fun (_, r) => r.conflicts) ∧
      table.warnings =
        (rows.flatMap fun (_, rs) => rs.flatMap fun (_, r) => r.warnings) ++
          table.conflicts.warnings := by
  simp only [generate, bind_ok_iff] at generated
  obtain ⟨rows, all, returned⟩ := generated
  cases returned
  refine ⟨rows, fun s state rs => ?_, rfl, ?_, ?_⟩
  · have pointwise := congrArg (·[s]?) (mapM_ok_iff.mp all)
    simp only [List.getElem?_map, List.getElem?_zipIdx, Nat.zero_add] at pointwise
    have returned : rows[s]? = some (state, rs) ↔
        rows[s]?.map Except.ok = some (Except.ok (ε := TableError) (state, rs)) := by
      simp [Option.map_eq_some_iff]
    rw [returned, ← pointwise]
    simp [Option.map_eq_some_iff, bind_ok_iff, pure, Except.pure]
  · simp [ofRows, List.map_flatMap, Function.comp_def]
  · simp [ofRows, List.flatMap_assoc, List.flatMap_map]

/-- A cell has the action that wins among those that its state asks for. -/
theorem action_eq_some_iff (coherent : ∀ state ∈ a.states, state.Coherent g)
    (generated : generate g a = .ok table) {s : StateId} {t : TerminalId} {act : Action} :
    table.action s t = some act ↔ ∃ state c r, a.states[s]? = some state ∧ state.Asks g t c ∧
      Resolution.ofCandidates g s t c = .ok r ∧ r.action = act := by
  obtain ⟨rows, mem_rows, rows_eq, _⟩ := exists_rows generated
  rw [action, rows_eq, List.getElem?_map]
  cases row : rows[s]? with
  | none =>
    -- A state without a row is not there, for each state has its resolutions.
    refine iff_of_false (by simp) ?_
    rintro ⟨state, c, r, found, _⟩
    obtain ⟨rs, resolved⟩ := (coherent state (List.mem_of_getElem? found)).exists_resolutions s
    have there := (mem_rows s state rs).mpr ⟨found, resolved⟩
    rw [row] at there
    cases there
  | some pair =>
    obtain ⟨state, rs⟩ := pair
    obtain ⟨found, resolved⟩ := (mem_rows s state rs).mp row
    have fits := coherent state (List.mem_of_getElem? found)
    -- The row has one entry for each terminal, since the candidates determine what wins.
    have settled (u : TerminalId) (r : Resolution) :=
      fits.mem_resolutions resolved (t := u) (r := r)
    have entry (u : TerminalId) (act : Action) : (u, act) ∈ (state.row rs).actions ↔
        ∃ c r, state.Asks g u c ∧ Resolution.ofCandidates g s u c = .ok r ∧ r.action = act := by
      simp only [State.row, List.mem_map, Prod.exists, Prod.mk.injEq, settled]
      constructor
      · rintro ⟨_, r, ⟨c, asks, result⟩, rfl, chosen⟩
        exact ⟨c, r, asks, result, chosen⟩
      · rintro ⟨c, r, asks, result, chosen⟩
        exact ⟨u, r, ⟨c, asks, result⟩, rfl, chosen⟩
    have functional (u act act') (member : (u, act) ∈ (state.row rs).actions)
        (member' : (u, act') ∈ (state.row rs).actions) : act = act' := by
      obtain ⟨c, r, asks, result, rfl⟩ := (entry u act).mp member
      obtain ⟨c', r', asks', result', rfl⟩ := (entry u act').mp member'
      obtain rfl := asks.unique asks'
      rw [Except.ok.inj (result.symm.trans result')]
    simp only [Option.map_some, Option.bind_some, lookup_eq_some_iff_mem functional, entry, found,
      Option.some.injEq, exists_and_left, exists_eq_left']

/-- Gotos are the automaton's moves on nonterminals. -/
theorem goto_eq_some_iff (coherent : ∀ state ∈ a.states, state.Coherent g)
    (generated : generate g a = .ok table) {s u : StateId} {n : NonterminalId} :
    table.goto s n = some u ↔ a.goto s (.nonterminal n) = some u := by
  obtain ⟨rows, mem_rows, rows_eq, _⟩ := exists_rows generated
  rw [goto, rows_eq, List.getElem?_map, Automaton.goto]
  cases found : a.states[s]? with
  | none =>
    cases row : rows[s]? with
    | none => simp
    | some pair =>
      have there := ((mem_rows s pair.1 pair.2).mp row).1
      rw [found] at there
      cases there
  | some state =>
    have fits := coherent state (List.mem_of_getElem? found)
    obtain ⟨rs, resolved⟩ := fits.exists_resolutions s
    rw [(mem_rows s state rs).mpr ⟨found, resolved⟩]
    have gotos_functional (n u u') (member : (n, u) ∈ state.gotos)
        (member' : (n, u') ∈ state.gotos) : u = u' :=
      fits.functional _ _ _ (State.mem_gotos.mp member) (State.mem_gotos.mp member')
    simp only [Option.map_some, Option.bind_some, State.row]
    rw [lookup_eq_some_iff_mem gotos_functional, lookup_eq_some_iff_mem fits.functional,
      State.mem_gotos]

theorem conflicts_total_eq_none_iff {cs : List Conflicts} :
    Conflicts.total cs = .none ↔ ∀ c ∈ cs, c = .none := by
  induction cs with
  | nil => simp [Conflicts.total]
  | cons c cs ih =>
    have sum (d : Conflicts) : c.add d = .none ↔ c = .none ∧ d = .none := by
      obtain ⟨m, n⟩ := c
      obtain ⟨m', n'⟩ := d
      simp only [Conflicts.add, Conflicts.none, Conflicts.mk.injEq]
      omega
    rw [Conflicts.total, List.foldr_cons, ← Conflicts.total, sum, ih]
    simp

/-- No conflicts are counted if none was settled in any cell. -/
theorem conflicts_eq_none_iff (coherent : ∀ state ∈ a.states, state.Coherent g)
    (generated : generate g a = .ok table) :
    table.conflicts = .none ↔ ∀ (s : StateId) state (t : TerminalId) c r,
      a.states[s]? = some state → state.Asks g t c → Resolution.ofCandidates g s t c = .ok r →
        r.conflicts = .none := by
  obtain ⟨rows, mem_rows, _, conflicts, _⟩ := exists_rows generated
  rw [conflicts, conflicts_total_eq_none_iff]
  constructor
  · intro all s state t c r found asks settled
    have fits := coherent state (List.mem_of_getElem? found)
    obtain ⟨rs, resolved⟩ := fits.exists_resolutions s
    have member := List.mem_of_getElem? ((mem_rows s state rs).mpr ⟨found, resolved⟩)
    refine all _ (List.mem_flatMap.mpr ⟨_, member, List.mem_map.mpr ⟨(t, r), ?_, rfl⟩⟩)
    exact (fits.mem_resolutions resolved).mpr ⟨c, asks, settled⟩
  · intro each count member
    obtain ⟨⟨state, rs⟩, in_rows, counted⟩ := List.mem_flatMap.mp member
    obtain ⟨⟨t, r⟩, in_row, rfl⟩ := List.mem_map.mp counted
    obtain ⟨s, row⟩ := List.getElem?_of_mem in_rows
    obtain ⟨found, resolved⟩ := (mem_rows s state rs).mp row
    have fits := coherent state (List.mem_of_getElem? found)
    obtain ⟨c, asks, settled⟩ := (fits.mem_resolutions resolved).mp in_row
    exact each s state t c r found asks settled

end Table

/-! ### Competing candidates -/

/-- There is more than one candidate. -/
def Candidates.Compete (c : Candidates) : Prop :=
  (∃ s rule, c.shift = some s ∧ rule ∈ c.reduces) ∨
    ∃ rule other, rule ≠ other ∧ rule ∈ c.reduces ∧ other ∈ c.reduces

namespace State

variable {g : Grammar} {state : State} {t : TerminalId} {c : Candidates}

theorem Asks.exists_shift (coherent : state.Coherent g) (asks : state.Asks g t c)
    (shifts : state.Shifts g t) : ∃ s, c.shift = some s := by
  obtain ⟨s, move⟩ := coherent.moves t shifts
  exact ⟨s, (asks.shift s).mpr ⟨shifts, move⟩⟩

theorem Asks.contested_iff (coherent : state.Coherent g) (asks : state.Asks g t c) :
    state.Contested g t ↔ c.Compete := by
  simp only [Contested, Candidates.Compete, asks.reduces]
  refine or_congr_left ?_
  constructor
  · rintro ⟨rule, shifts, reduces⟩
    obtain ⟨s, shift⟩ := asks.exists_shift coherent shifts
    exact ⟨s, rule, shift, reduces⟩
  · rintro ⟨s, rule, shift, reduces⟩
    exact ⟨rule, ((asks.shift s).mp shift).1, reduces⟩

end State

/-- No precedence is declared for a terminal or a rule. -/
structure Grammar.Unranked (g : Grammar) : Prop where
  terminals : ∀ t ∈ g.terminals, t.precedence = none
  rules : ∀ r ∈ g.rules, r.override = none

namespace Resolution

variable {g : Grammar} {id : StateId} {t : TerminalId} {c : Candidates}

theorem terminalPrecedence_of_unranked (unranked : g.Unranked) (t : TerminalId) :
    g.terminalPrecedence t = none := by
  rw [Vocabulary.terminalPrecedence]
  cases found : g.terminals[t]? with
  | none => rfl
  | some terminal => exact unranked.terminals terminal (List.mem_of_getElem? found)

theorem rulePrecedence_of_unranked (unranked : g.Unranked) (rule : RuleId) :
    g.rulePrecedence (g.rule rule) = none := by
  have override : (g.rule rule).override = none := by
    rw [Grammar.rule, List.getD_eq_getElem?_getD]
    cases found : g.rules[rule]? with
    | none => rfl
    | some r => exact unranked.rules r (List.mem_of_getElem? found)
  simp only [Vocabulary.rulePrecedence, override]
  exact Option.bind_eq_none_iff.mpr fun t _ => terminalPrecedence_of_unranked unranked t

/-- Without precedences a shift against a reduction counts as a conflict. -/
theorem shiftOrReduce_conflicts (unranked : g.Unranked) (target : StateId) (rule : RuleId) :
    (shiftOrReduce g id t target rule).conflicts = ⟨1, 0⟩ := by
  simp only [shiftOrReduce, terminalPrecedence_of_unranked unranked,
    rulePrecedence_of_unranked unranked]
  rfl

theorem conflicts_eq_none_iff (unranked : g.Unranked) {r : Resolution}
    (settled : ofCandidates g id t c = .ok r) :
    r.conflicts = .none ↔ ¬ c.Compete := by
  simp only [Candidates.Compete, ← OrderedSet.mem_toList]
  have distinct := c.reduces.nodup
  simp only [ofCandidates] at settled
  split at settled
  · cases settled
  next shift reduces =>
    cases settled
    simp [reduces, uncontested]
  next rule losers shift reduces =>
    cases settled
    rw [reduces] at distinct
    cases losers with
    | nil => simp [reduces, shift, uncontested, outdoing, Conflicts.add, Conflicts.none]
    | cons loser losers =>
      -- Each reduction that loses counts.
      have different : rule ≠ loser := fun same => (List.nodup_cons.mp distinct).1 (by simp [same])
      have counted : ((uncontested (if rule = .accept then .accept else .reduce rule)).outdoing
          (loser :: losers).length).conflicts ≠ .none := by
        simp [uncontested, outdoing, Conflicts.add, Conflicts.none]
      refine iff_of_false counted (not_not_intro (.inr ⟨rule, loser, different, ?_, ?_⟩))
      · simp [reduces]
      · simp [reduces]
  next target rule losers shift reduces =>
    -- The shift against the reduction counts, whatever other reductions lose.
    split at settled
    · cases settled
    · cases settled
      have counted : ((shiftOrReduce g id t target rule).outdoing losers.length).conflicts ≠
          .none := by
        simp [outdoing, shiftOrReduce_conflicts unranked, Conflicts.add, Conflicts.none]
      exact iff_of_false counted (not_not_intro (.inl ⟨target, rule, shift, by simp [reduces]⟩))

end Resolution

/-! ### Tables of grammars -/

namespace Grammar.WellFormed

variable {g : Grammar} {built : Construction} {s u : StateId} {state : State} {t : TerminalId}

theorem deterministic (wf : g.WellFormed) {h : Grammar} (read : h.WellFormed) :
    ∀ state ∈ (Automaton.ofGrammar g).states, state.Deterministic h := by
  intro state member
  rw [wf.states_eq] at member
  obtain ⟨kernel, _, rfl⟩ := List.mem_map.mp member
  refine { functional := fun _ _ _ => moves_functional, eoi_not_shifted := ?_ }
  rintro ⟨i, _, next⟩
  obtain ⟨proper, _⟩ := read.knows_next next
  exact proper rfl

theorem coherent (wf : g.WellFormed) : ∀ state ∈ (Automaton.ofGrammar g).states,
    state.Coherent g := by
  intro state member
  refine { toDeterministic := wf.deterministic wf state member, moves := ?_ }
  rw [wf.states_eq] at member
  obtain ⟨kernel, _, rfl⟩ := List.mem_map.mp member
  rintro t ⟨i, closed, next⟩
  exact ⟨_, mem_moves_iff.mpr ⟨mem_departing.mpr ⟨i, closed, next⟩, rfl⟩⟩

/-- Making a table of a grammar's automaton does not fail. -/
theorem exists_construct (wf : g.WellFormed) : ∃ built, g.construct = .ok built := by
  obtain ⟨table, generated⟩ := Table.exists_generate wf.coherent
  exact ⟨_, bind_ok_iff.mpr ⟨table, generated, rfl⟩⟩

theorem generate_of_construct (constructed : g.construct = .ok built) :
    Table.generate g (.ofGrammar g) = .ok built.table := by
  obtain ⟨table, generated, returned⟩ := bind_ok_iff.mp constructed
  cases returned
  exact generated

theorem table_goto_iff (wf : g.WellFormed) (constructed : g.construct = .ok built)
    {n : NonterminalId} :
    built.table.goto s n = some u ↔ (Automaton.ofGrammar g).goto s (.nonterminal n) = some u :=
  Table.goto_eq_some_iff wf.coherent (generate_of_construct constructed)

/-- A shift that is asked for leads where the automaton moves. -/
theorem goto_of_asks (wf : g.WellFormed) (found : (Automaton.ofGrammar g).states[s]? = some state)
    {c : Candidates} (asks : state.Asks g t c) (shift : c.shift = some u) :
    (Automaton.ofGrammar g).goto s (.terminal t) = some u := by
  have functional := (wf.coherent state (List.mem_of_getElem? found)).functional
  rw [Automaton.goto, found, Option.bind_some, lookup_eq_some_iff_mem functional]
  exact ((asks.shift u).mp shift).2

/-- The action in a cell follows a move of the automaton or completes the rule of an item. -/
theorem action_cases (wf : g.WellFormed) (constructed : g.construct = .ok built) {act : Action}
    (action : built.table.action s t = some act) :
    (∃ u, act = .shift u ∧ (Automaton.ofGrammar g).goto s (.terminal t) = some u) ∨
      ∃ rule state, act = .completing rule ∧ (Automaton.ofGrammar g).states[s]? = some state ∧
        state.Reduces g t rule := by
  obtain ⟨state, c, r, found, asks, settled, rfl⟩ :=
    (Table.action_eq_some_iff wf.coherent (generate_of_construct constructed)).mp action
  rcases Resolution.action_cases settled with ⟨u, shift, won⟩ | ⟨rule, member, won⟩
  · exact .inl ⟨u, won, wf.goto_of_asks found asks shift⟩
  · exact .inr ⟨rule, state, won, found, (asks.reduces rule).mp member⟩

theorem goto_of_shift (wf : g.WellFormed) (constructed : g.construct = .ok built)
    (action : built.table.action s t = some (.shift u)) :
    (Automaton.ofGrammar g).goto s (.terminal t) = some u := by
  rcases wf.action_cases constructed action with ⟨target, chosen, moved⟩ | ⟨rule, _, chosen, _⟩
  · rw [Action.shift.inj chosen]
    exact moved
  · exact absurd chosen.symm Action.completing_ne_shift

theorem reduces_of_reduce (wf : g.WellFormed) (constructed : g.construct = .ok built)
    {rule : RuleId} (action : built.table.action s t = some (.reduce rule)) :
    ∃ state, (Automaton.ofGrammar g).states[s]? = some state ∧ state.Reduces g t rule := by
  rcases wf.action_cases constructed action with
    ⟨_, chosen, _⟩ | ⟨id, state, chosen, found, reduces⟩
  · cases chosen
  · obtain ⟨rfl, _⟩ := Action.completing_eq_reduce_iff.mp chosen.symm
    exact ⟨state, found, reduces⟩

/-- Rule 0 is accepted and never reduced. -/
theorem ne_accept_of_reduce (wf : g.WellFormed) (constructed : g.construct = .ok built)
    {rule : RuleId} (action : built.table.action s t = some (.reduce rule)) : rule ≠ .accept := by
  rcases wf.action_cases constructed action with ⟨_, chosen, _⟩ | ⟨_, _, chosen, _, _⟩
  · cases chosen
  · exact (Action.completing_eq_reduce_iff.mp chosen.symm).2

theorem reduces_of_accept (wf : g.WellFormed) (constructed : g.construct = .ok built)
    (action : built.table.action s t = some .accept) :
    ∃ state, (Automaton.ofGrammar g).states[s]? = some state ∧ state.Reduces g t .accept := by
  rcases wf.action_cases constructed action with
    ⟨_, chosen, _⟩ | ⟨id, state, chosen, found, reduces⟩
  · cases chosen
  · obtain rfl := Action.completing_eq_accept_iff.mp chosen.symm
    exact ⟨state, found, reduces⟩

theorem action_of_asks (wf : g.WellFormed) (constructed : g.construct = .ok built)
    (found : (Automaton.ofGrammar g).states[s]? = some state) {c : Candidates}
    (asks : state.Asks g t c) {r : Resolution} (settled : Resolution.ofCandidates g s t c = .ok r) :
    built.table.action s t = some r.action :=
  (Table.action_eq_some_iff wf.coherent (generate_of_construct constructed)).mpr
    ⟨state, c, r, found, asks, settled, rfl⟩

/-- A shift that nothing is up against follows the move of the automaton. -/
theorem exists_shift_alone (wf : g.WellFormed) (constructed : g.construct = .ok built)
    (found : (Automaton.ofGrammar g).states[s]? = some state) (shifts : state.Shifts g t)
    (no_rule : ∀ rule, ¬ state.Reduces g t rule) :
    ∃ target, (Automaton.ofGrammar g).goto s (.terminal t) = some target ∧
      built.table.action s t = some (.shift target) := by
  have fits := wf.coherent state (List.mem_of_getElem? found)
  obtain ⟨c, asks⟩ := fits.exists_asks t
  obtain ⟨target, shift⟩ := asks.exists_shift fits shifts
  have alone (rule : RuleId) : rule ∉ c.reduces :=
    fun member => no_rule rule ((asks.reduces rule).mp member)
  exact ⟨target, wf.goto_of_asks found asks shift,
    wf.action_of_asks constructed found asks (Resolution.ofCandidates_shift shift alone)⟩

/-- A shift that nothing is up against is in the cell. -/
theorem action_of_shifts (wf : g.WellFormed) (constructed : g.construct = .ok built)
    (found : (Automaton.ofGrammar g).states[s]? = some state) (alone : ¬ state.Contested g t)
    (shifts : state.Shifts g t) : ∃ u, built.table.action s t = some (.shift u) := by
  obtain ⟨u, _, action⟩ := wf.exists_shift_alone constructed found shifts
    fun rule reduces => alone (.inl ⟨rule, shifts, reduces⟩)
  exact ⟨u, action⟩

/-- A reduction that nothing is up against is in the cell. -/
theorem action_of_reduces (wf : g.WellFormed) (constructed : g.construct = .ok built)
    (found : (Automaton.ofGrammar g).states[s]? = some state) (alone : ¬ state.Contested g t)
    {rule : RuleId} (reduces : state.Reduces g t rule) :
    built.table.action s t = some (.completing rule) := by
  have fits := wf.coherent state (List.mem_of_getElem? found)
  obtain ⟨c, asks⟩ := fits.exists_asks t
  have member := (asks.reduces rule).mpr reduces
  have uncontested : ¬ c.Compete := fun compete => alone ((asks.contested_iff fits).mpr compete)
  have no_shift : c.shift = none :=
    Option.eq_none_iff_forall_ne_some.mpr fun u shift => uncontested (.inl ⟨u, rule, shift, member⟩)
  have only (other : RuleId) : other ∈ c.reduces ↔ other = rule := by
    refine ⟨fun member' => ?_, fun same => same ▸ member⟩
    by_contra different
    exact uncontested (.inr ⟨other, rule, different, member', member⟩)
  exact wf.action_of_asks constructed found asks (Resolution.ofCandidates_reduce no_shift only)

/-- Without precedences the conflicts that are counted tell of all contested cells. -/
theorem conflicts_eq_none_iff (wf : g.WellFormed) (constructed : g.construct = .ok built)
    (unranked : g.Unranked) :
    built.table.conflicts = .none ↔ (Automaton.ofGrammar g).Uncontested g := by
  rw [Table.conflicts_eq_none_iff wf.coherent (generate_of_construct constructed)]
  constructor
  · intro none state member t contested
    have fits := wf.coherent state member
    obtain ⟨s, found⟩ := List.getElem?_of_mem member
    obtain ⟨c, asks⟩ := fits.exists_asks t
    have compete := (asks.contested_iff fits).mp contested
    have asked : (∃ s, c.shift = some s) ∨ ∃ rule, rule ∈ c.reduces := by
      rcases compete with ⟨s, _, shift, _⟩ | ⟨rule, _, _, reduces, _⟩
      · exact .inl ⟨s, shift⟩
      · exact .inr ⟨rule, reduces⟩
    obtain ⟨r, settled⟩ := Resolution.exists_ofCandidates asked (fits.accepts_alone asks)
    exact (Resolution.conflicts_eq_none_iff unranked settled).mp
      (none s state t c r found asks settled) compete
  · intro uncontested s state t c r found asks settled
    have member := List.mem_of_getElem? found
    refine (Resolution.conflicts_eq_none_iff unranked settled).mpr fun compete => ?_
    exact uncontested state member t ((asks.contested_iff (wf.coherent state member)).mpr compete)

end Grammar.WellFormed

end CanonicalLR
