import CanonicalLR.Examples.Small
import CanonicalLR.Proofs.TableCells

/-!
# How making a table can fail

A table may be made with other rules than those that its automaton was made of. Markers then stand
before other symbols or beyond the end of a right side, and an item may ask for a shift on a
terminal on which its state does not move. That is the only failure there is. A state moves on a
symbol in one way, a terminal that gets into a row does so by a shift or a reduction, and as long as
no rule mentions the end of the input, nothing is shifted where the input may be accepted. An
automaton has all the moves that its own grammar asks for.
-/
namespace CanonicalLR

namespace State

variable {g : Grammar} {state : State} {t : TerminalId} {id : StateId} {e : TableError}

/-- An item asks for a shift that the state has no move for. -/
def Lacks (g : Grammar) (state : State) (t : TerminalId) : Prop :=
  state.Shifts g t ∧ ∀ s, (.terminal t, s) ∉ state.moves

/-- Where each shift has been given a target, the state has a move for it. -/
theorem Deterministic.exists_move (fits : state.Deterministic g)
    {targets : List (TerminalId × StateId)}
    (shifted : ((state.shiftable g).mapM fun t => do return (t, ← state.shiftTarget g id t)) =
      .ok targets) (shifts : state.Shifts g t) : ∃ s, (.terminal t, s) ∈ state.moves := by
  obtain ⟨_, paired⟩ := exists_ok_of_mapM_ok shifted (mem_shiftable.mpr shifts)
  obtain ⟨s, target, _⟩ := bind_ok_iff.mp paired
  exact ⟨s, fits.shiftTarget_eq_ok_iff.mp target⟩

theorem Deterministic.not_lacks_of_resolutions (fits : state.Deterministic g)
    {rs : List (TerminalId × Resolution)} (resolved : state.resolutions g id = .ok rs)
    (t : TerminalId) : ¬ state.Lacks g t := by
  rintro ⟨shifts, none⟩
  obtain ⟨targets, shifted, _⟩ := bind_ok_iff.mp resolved
  obtain ⟨s, move⟩ := fits.exists_move shifted shifts
  exact none s move

/-- If the actions of a state cannot be told, it is for a move that it lacks. -/
theorem Deterministic.lacks_of_resolutions_error (fits : state.Deterministic g)
    (failed : state.resolutions g id = .error e) :
    ∃ t, state.Lacks g t ∧ e = .missingTransition id (g.terminalName t) := by
  rcases bind_error_iff.mp failed with no_targets | ⟨targets, shifted, _⟩
  · obtain ⟨t, member, no_target⟩ := exists_error_of_paired_error no_targets
    have none (s : StateId) : (.terminal t, s) ∉ state.moves := by
      intro move
      rw [fits.shiftTarget_of_move move] at no_target
      cases no_target
    rw [shiftTarget_of_no_move none] at no_target
    exact ⟨t, ⟨mem_shiftable.mp member, none⟩, (Except.error.inj no_target).symm⟩
  · -- With a move for each shift there is no reason left to fail.
    have coherent : state.Coherent g :=
      { toDeterministic := fits, moves := fun _ shifts => fits.exists_move shifted shifts }
    obtain ⟨rs, resolved⟩ := coherent.exists_resolutions id
    rw [failed] at resolved
    cases resolved

end State

/-- Some item of the state has the terminal next, as the rules are read, and the automaton does not
move on it from there. -/
def Automaton.LacksMove (g : Grammar) (a : Automaton) (s : StateId) (t : TerminalId) : Prop :=
  ∃ state, a.states[s]? = some state ∧ (∃ i ∈ state.items, i.next? g = some (.terminal t)) ∧
    a.goto s (.terminal t) = none

namespace Automaton

variable {g : Grammar} {a : Automaton} {s : StateId} {t : TerminalId}

theorem goto_eq_none_iff {state : State} (found : a.states[s]? = some state) {x : Symbol} :
    a.goto s x = none ↔ ∀ u, (x, u) ∉ state.moves := by
  rw [goto, found, Option.bind_some, List.lookup_eq_none_iff]
  constructor
  · intro other u move
    simpa using other _ move
  · rintro none ⟨y, u⟩ move
    have different : x ≠ y := fun same => none u (same ▸ move)
    simpa using different

theorem lacksMove_iff :
    a.LacksMove g s t ↔ ∃ state, a.states[s]? = some state ∧ state.Lacks g t := by
  constructor
  · rintro ⟨state, found, shifts, none⟩
    exact ⟨state, found, shifts, (goto_eq_none_iff found).mp none⟩
  · rintro ⟨state, found, shifts, none⟩
    exact ⟨state, found, shifts, (goto_eq_none_iff found).mpr none⟩

end Automaton

namespace Table

variable {g : Grammar} {a : Automaton}

/-- A table fails to be made for a move that the automaton lacks. -/
theorem lacksMove_of_generate_error (fits : ∀ state ∈ a.states, state.Deterministic g)
    {e : TableError} (failed : generate g a = .error e) :
    ∃ s t, a.LacksMove g s t ∧ e = .missingTransition s (g.terminalName t) := by
  -- Nothing can go wrong once there are rows, and a row needs only the actions of its state.
  rcases bind_error_iff.mp failed with no_rows | ⟨rows, _, returned⟩
  · obtain ⟨⟨state, s⟩, member, no_row⟩ := exists_error_of_mapM_error no_rows
    have found := List.mem_zipIdx_iff_getElem?.mp member
    rcases bind_error_iff.mp no_row with cause | ⟨_, _, returned⟩
    · obtain ⟨t, lacks, rfl⟩ :=
        (fits state (List.mem_of_getElem? found)).lacks_of_resolutions_error cause
      exact ⟨s, t, Automaton.lacksMove_iff.mpr ⟨state, found, lacks⟩, rfl⟩
    · cases returned
  · cases returned

theorem not_lacksMove_of_generate (fits : ∀ state ∈ a.states, state.Deterministic g)
    {table : Table} (generated : generate g a = .ok table) (s : StateId) (t : TerminalId) :
    ¬ a.LacksMove g s t := by
  intro lacks
  obtain ⟨state, found, lacks⟩ := Automaton.lacksMove_iff.mp lacks
  -- The state has a row, which is made of its actions.
  obtain ⟨rows, all, _⟩ := bind_ok_iff.mp generated
  have listed : (state, s) ∈ a.states.zipIdx := List.mem_zipIdx_iff_getElem?.mpr found
  obtain ⟨_, row⟩ := exists_ok_of_mapM_ok all listed
  obtain ⟨rs, resolved, _⟩ := bind_ok_iff.mp row
  exact (fits state (List.mem_of_getElem? found)).not_lacks_of_resolutions resolved t lacks

/-- Lacking a move and failing with that cause are the same. -/
theorem generate_error_iff (fits : ∀ state ∈ a.states, state.Deterministic g) :
    (∃ s name, generate g a = .error (.missingTransition s name)) ↔ ∃ s t, a.LacksMove g s t := by
  constructor
  · rintro ⟨s, name, failed⟩
    obtain ⟨s', t, lacks, _⟩ := lacksMove_of_generate_error fits failed
    exact ⟨s', t, lacks⟩
  · rintro ⟨s, t, lacks⟩
    cases made : generate g a with
    | ok table => exact absurd lacks (not_lacksMove_of_generate fits made s t)
    | error e =>
      obtain ⟨s', t', _, rfl⟩ := lacksMove_of_generate_error fits made
      exact ⟨s', _, rfl⟩

end Table

namespace Grammar

theorem MarkersFit.ofGrammarChecked?_eq {g : Grammar} (fits : g.MarkersFit) :
    Automaton.ofGrammarChecked? g = some (.ofGrammar g) := by
  rw [Automaton.ofGrammarChecked?,
    Exploration.completeChecked?_of_fits (p := .ofGrammar g) fits, Option.map_some]
  rfl

/-- Where the markers suffice it makes no difference whether the additions are checked. -/
theorem MarkersFit.constructChecked_eq {g : Grammar} (fits : g.MarkersFit) {built : Construction}
    (constructed : g.construct = .ok built) : g.constructChecked = .ok built := by
  rw [constructChecked, fits.ofGrammarChecked?_eq]
  rw [construct] at constructed
  simp only [constructed]
  rfl

/-- An addition that is checked fails where a valid item has the last marker before a symbol. -/
theorem WellFormed.constructChecked_of_last {g : Grammar} (wf : g.WellFormed) {w : List Symbol}
    {i : Item} {x : Symbol} (valid : Valid g w i) (next : i.next? g = some x)
    (last : i.marker + 1 = markerNumbers) : g.constructChecked = .error .markerOverflow := by
  obtain ⟨s, walked⟩ := wf.exists_walk_of_valid valid
  obtain ⟨state, found, items⟩ := wf.state_of_walk walked
  have overflows : state.items.overflows g = true :=
    overflows_iff.mpr ⟨i, (items i).mpr valid, ⟨x, next⟩, last⟩
  have stopped : Exploration.initial.completeChecked? (.ofGrammar g) g.rightSymbols g.maxStates =
      none :=
    Exploration.completeChecked?_eq_none (List.mem_of_getElem? found) List.not_mem_nil overflows
  rw [constructChecked, Automaton.ofGrammarChecked?, stopped]
  rfl

end Grammar

end CanonicalLR
