import CanonicalLR.Proofs.ConflictAccounting
import CanonicalLR.Proofs.LeftRecursion

/-!
# Runs without an end

A table without any warning may still make a parser reduce for ever. That takes two things. Some
nonterminal has to derive itself, or to stand in what it derives behind symbols that vanish, or
nothing could be reduced without end on one terminal. And the items by which something is reduced
have to be without a rival although the next terminal is never read: either a conflict was settled
against the shift, which is not reported if both sides declare a precedence, or no derivation comes
to an end that would have read the terminal. Each of the four combinations occurs. All this is said
of right sides that the markers suffice for: on others a run may go round without anything else.
-/
namespace CanonicalLR

/-! ### Runs that never end -/

namespace Parser

variable {g : Grammar} {t : Table}

/-- The state that is entered when a state reduces an empty right side. -/
def pushed? (g : Grammar) (t : Table) (input : List TerminalId) (s : StateId) : Option StateId :=
  match t.action s (input.headD .eoi) with
  | some (.reduce id) =>
    if (g.rule id).right = [] then t.goto s (g.rule id).left else none
  | _ => none

variable {s s' : StateId} {below : List StateId} {input : List TerminalId}

theorem next_of_pushed (pushed : pushed? g t input s = some s') :
    next? g t ⟨s :: below, input⟩ = some ⟨s' :: s :: below, input⟩ := by
  simp only [pushed?] at pushed
  split at pushed
  next id action =>
    split at pushed
    next empty =>
      simp only [next?, step, Config.lookahead, action, reduce, empty, List.length_nil,
        List.drop_zero, pushed]
    next => cases pushed
  next => cases pushed

/-- A parser that goes from one state to another by empty right sides only never ends. -/
theorem run_eq_none_of_pushed {loop : List StateId}
    (closed : ∀ s ∈ loop, ∃ s' ∈ loop, pushed? g t input s = some s') (fuel : Nat)
    (here : s ∈ loop) : run g t fuel ⟨s :: below, input⟩ = none := by
  let holds (c : Config) : Prop := ∃ s ∈ loop, ∃ below, c = ⟨s :: below, input⟩
  refine run_eq_none_of_next holds ?_ fuel ⟨s, here, below, rfl⟩
  rintro _ ⟨s, here, below, rfl⟩
  obtain ⟨s', there, pushed⟩ := closed s here
  exact ⟨_, next_of_pushed pushed, s', there, s :: below, rfl⟩

end Parser

/-- Where nothing is contested, a table gives no warnings. -/
theorem Accounted.warnings_eq_nil {g : Grammar} {a : Automaton} {table : Table}
    (accounted : Accounted g a table) (uncontested : a.Uncontested g) : table.warnings = [] := by
  have no_contest (s t rule) : ¬ a.Contest g s t rule := by
    rintro ⟨state, found, shifts, lowest⟩
    exact uncontested state (List.mem_of_getElem? found) t (.inl ⟨rule, shifts, lowest.1⟩)
  have no_report {s t report} (reports : Reports g a table s t report) : report = [] := by
    cases reports <;> first | rfl | exact absurd ‹_› (no_contest s t _)
  have one_rule (s t) : (a.rulesAt g s t).Subsingleton := by
    rintro rule ⟨state, found, reduces⟩ other ⟨state', found', reduces'⟩
    obtain rfl := Option.some.inj (found.symm.trans found')
    by_contra apart
    exact uncontested state (List.mem_of_getElem? found) t (.inr ⟨_, _, apart, reduces, reduces'⟩)
  have ties : a.ties g = 0 := by
    classical
    rw [Automaton.ties, List.countP_eq_zero]
    rintro ⟨s, t⟩ _ tied
    rw [decide_eq_true_eq] at tied
    obtain ⟨rule, contest, _⟩ := tied
    exact no_contest s t rule contest
  have losers : a.losers g = 0 := by
    rw [Automaton.losers, List.sum_eq_zero_iff, List.forall_mem_map]
    rintro ⟨s, t⟩ _
    have single := one_rule s t
    exact Nat.sub_eq_zero_of_le ((Set.ncard_le_one single.finite).mpr fun _ h _ h' => single h h')
  obtain ⟨reports, cells, warnings⟩ := accounted.warnings
  rw [warnings, if_pos ⟨ties, losers⟩, List.append_nil, List.flatten_eq_nil_iff]
  intro report member
  obtain ⟨_, _, reported⟩ := exists_of_forall₂ cells member
  exact no_report reported

namespace Grammar

/-- No warning is given, but the run on some declared terminals has no end. -/
def LoopsSilently (ds : List Declaration) (tokens : List TerminalId) : Prop :=
  ∃ g built, defineAccepted ds = .ok g ∧ g.construct = .ok built ∧ built.warnings = [] ∧
    (∀ t ∈ tokens, t < g.terminals.length) ∧ ∀ fuel, built.table.parse? g fuel tokens = none

section Loops

variable {ds : List Declaration} {g : Grammar} {tokens : List TerminalId}

theorem loopsSilently_of_pushed (loop : List StateId) (defined : defineAccepted ds = .ok g)
    (known : ∀ t ∈ tokens, t < g.terminals.length) (initial : .initial ∈ loop)
    (loops : ∀ built ∈ g.construct.toOption, built.warnings = [] ∧
      ∀ s ∈ loop, ∃ s' ∈ loop, Parser.pushed? g built.table tokens s = some s') :
    LoopsSilently ds tokens := by
  obtain ⟨built, constructed⟩ := (wellFormed_of_defined defined).exists_construct
  obtain ⟨silent, closed⟩ := loops built (by rw [constructed]; rfl)
  exact ⟨g, built, defined, constructed, silent, known,
    fun fuel => Parser.run_eq_none_of_pushed closed fuel initial⟩

theorem loopsSilently_of_next (loop : List Parser.Config) (defined : defineAccepted ds = .ok g)
    (known : ∀ t ∈ tokens, t < g.terminals.length) (initial : .initial tokens ∈ loop)
    (loops : ∀ built ∈ g.construct.toOption, built.warnings = [] ∧
      ∀ c ∈ loop, ∃ c' ∈ loop, Parser.next? g built.table c = some c') :
    LoopsSilently ds tokens := by
  obtain ⟨built, constructed⟩ := (wellFormed_of_defined defined).exists_construct
  obtain ⟨silent, closed⟩ := loops built (by rw [constructed]; rfl)
  refine ⟨g, built, defined, constructed, silent, known, fun fuel => ?_⟩
  refine Parser.run_eq_none_of_next (· ∈ loop) (fun c here => ?_) fuel initial
  obtain ⟨c', there, next⟩ := closed c here
  exact ⟨c', next, there⟩

/-- What vanishes is reduced without end, and nothing is reported. -/
theorem loopsSilently_vanishing : LoopsSilently (Examples.vanishing markerNumbers) [] := by
  obtain ⟨g, defined, vanishes⟩ := Examples.exists_vanishing markerNumbers_pos
  obtain ⟨built, constructed⟩ := vanishes.exists_construct
  have accounted := Table.accounted vanishes.coherent vanishes.covered
    (WellFormed.generate_of_construct constructed)
  have free := vanishes.conflictFree_of_alone (vanishes.completesAlone (Nat.le_refl _))
  refine ⟨g, built, defined, constructed, ?_, nofun,
    vanishes.run_eq_none (Nat.le_refl _) constructed⟩
  rw [warnings_of_construct constructed, vanishes.silent, automaton_warnings,
    accounted.warnings_eq_nil free.uncontested]
  rfl

end Loops

end Grammar

/-- In some state a table reduces although an item has the terminal next. -/
def Table.GivesUpShift (g : Grammar) (a : Automaton) (table : Table) : Prop :=
  ∃ s state t id, a.states[s]? = some state ∧ state.Shifts g t ∧
    table.action s t = some (.reduce id)

/-- It is enough to look at the terminals that the states shift. -/
theorem Table.givesUpShift_iff {g : Grammar} {a : Automaton} {table : Table} :
    table.GivesUpShift g a ↔ ∃ p ∈ a.states.zipIdx, ∃ t ∈ p.1.shiftable g,
      table.action p.2 t matches some (.reduce _) := by
  constructor
  · rintro ⟨s, state, t, id, found, shifts, action⟩
    exact ⟨(state, s), List.mem_zipIdx_iff_getElem?.mpr found, t, State.mem_shiftable.mpr shifts,
      by rw [action]⟩
  · rintro ⟨⟨state, s⟩, numbered, t, shifts, reduces⟩
    split at reduces
    next id action =>
      exact ⟨s, state, t, id, List.mem_zipIdx_iff_getElem?.mp numbered,
        State.mem_shiftable.mp shifts, action⟩
    next => cases reduces

instance (g : Grammar) (a : Automaton) (table : Table) : Decidable (table.GivesUpShift g a) :=
  decidable_of_iff _ Table.givesUpShift_iff.symm

/-- A table without warnings has no rules that lose against lower ones. -/
theorem Accounted.losers_eq_zero {g : Grammar} {a : Automaton} {table : Table}
    (accounted : Accounted g a table) (silent : table.warnings = []) : a.losers g = 0 := by
  obtain ⟨reports, _, warnings⟩ := accounted.warnings
  rw [silent] at warnings
  have last := (List.append_eq_nil_iff.mp warnings.symm).2
  by_contra some
  rw [if_neg fun none => some none.2] at last
  cases last

namespace Grammar

variable {g : Grammar} {built : Construction}

/-- In a cell without losers only one rule is complete. -/
theorem WellFormed.reduces_unique (wf : g.WellFormed) (none : (Automaton.ofGrammar g).losers g = 0)
    {s : StateId} {state : State} {t : TerminalId} {rule rule' : RuleId}
    (found : (Automaton.ofGrammar g).states[s]? = some state) (reduces : state.Reduces g t rule)
    (reduces' : state.Reduces g t rule') : rule = rule' := by
  have coherent := wf.coherent _ (List.mem_of_getElem? found)
  have cell := Automaton.mem_cells.mpr
    ⟨(List.getElem?_eq_some_iff.mp found).1, wf.covered s state t found (.inr ⟨rule, reduces⟩)⟩
  -- A sum that is nothing has no summands, and all rules but one are counted.
  have alone : ((Automaton.ofGrammar g).rulesAt g s t).ncard ≤ 1 := by
    rw [Automaton.losers, List.sum_eq_zero_iff, List.forall_mem_map] at none
    exact Nat.sub_eq_zero_iff_le.mp (none (s, t) cell)
  obtain ⟨c, asks⟩ := coherent.exists_asks t
  have finite : ((Automaton.ofGrammar g).rulesAt g s t).Finite := by
    simp only [rulesAt_of_found found, ← asks.reduces]
    exact List.finite_toSet c.reduces.toList
  exact (Set.ncard_le_one finite).mp alone _ ⟨state, found, reduces⟩ _ ⟨state, found, reduces'⟩

/-- Without warnings, and if no shift is given up, nothing is up against a reduction. -/
theorem Augmented.reducesUnopposed (augmented : g.Augmented) (constructed : g.construct = .ok built)
    (silent : built.warnings = []) (kept : ¬ built.table.GivesUpShift g (.ofGrammar g)) :
    built.table.ReducesUnopposed g := by
  have wf := augmented.toWellFormed
  have generated := WellFormed.generate_of_construct constructed
  have accounted := Table.accounted wf.coherent wf.covered generated
  rw [warnings_of_construct constructed] at silent
  have none := accounted.losers_eq_zero (List.append_eq_nil_iff.mp silent).2
  refine { one_rule := ?_, no_shift := ?_ }
  · intro u i j valid complete valid' complete' same
    obtain ⟨s, walked⟩ := wf.exists_walk_of_valid valid
    obtain ⟨state, found, items⟩ := wf.state_of_walk walked
    have reduces : state.Reduces g i.lookahead i.rule :=
      ⟨i, (items i).mpr valid, complete, rfl, rfl, valid.lookahead_of_accept augmented⟩
    have reduces' : state.Reduces g i.lookahead j.rule :=
      ⟨j, (items j).mpr valid', complete', same, rfl,
        fun accepting => same ▸ valid'.lookahead_of_accept augmented accepting⟩
    exact wf.reduces_unique none found reduces reduces'
  · intro u i s t valid next walked id action
    obtain ⟨state, found, items⟩ := wf.state_of_walk walked
    exact kept ⟨s, state, t, id, found, ⟨i, (items i).mpr valid, next⟩, action⟩

end Grammar

end CanonicalLR
