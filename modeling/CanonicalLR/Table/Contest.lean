import CanonicalLR.Table.Generation

/-!
# What the items of a state ask for

The actions that a state's items ask for on a terminal, whichever of them a table chooses. A cell is
contested if the items ask for more than one.
-/
namespace CanonicalLR

namespace State

/-- Some item has the terminal after its marker. -/
def Shifts (g : Grammar) (s : State) (t : TerminalId) : Prop :=
  ∃ i ∈ s.items, i.next? g = some (.terminal t)

/-- Some complete item of the rule has the terminal as its lookahead. Rule 0 is completed at the end
of the input only. -/
def Reduces (g : Grammar) (s : State) (t : TerminalId) (rule : RuleId) : Prop :=
  ∃ i ∈ s.items, i.next? g = none ∧ i.lookahead = t ∧ i.rule = rule ∧
    (rule = .accept → t = .eoi)

def Contested (g : Grammar) (s : State) (t : TerminalId) : Prop :=
  (∃ rule, s.Shifts g t ∧ s.Reduces g t rule) ∨
    ∃ rule other, rule ≠ other ∧ s.Reduces g t rule ∧ s.Reduces g t other

/-- Some complete item of the rule has the terminal as its lookahead. -/
def Completes (g : Grammar) (s : State) (t : TerminalId) (rule : RuleId) : Prop :=
  ∃ i ∈ s.items, i.next? g = none ∧ i.lookahead = t ∧ i.rule = rule

/-- A shift and a complete rule are candidates for the terminal, or two complete rules are. -/
def Competing (g : Grammar) (s : State) (t : TerminalId) : Prop :=
  (∃ rule, s.Shifts g t ∧ s.Completes g t rule) ∨
    ∃ rule other, rule ≠ other ∧ s.Completes g t rule ∧ s.Completes g t other

theorem Reduces.completes {g : Grammar} {s : State} {t : TerminalId} {rule : RuleId}
    (reduces : s.Reduces g t rule) : s.Completes g t rule := by
  obtain ⟨i, member, complete, lookahead, same, _⟩ := reduces
  exact ⟨i, member, complete, lookahead, same⟩

theorem mem_shiftable {g : Grammar} {s : State} {t : TerminalId} :
    t ∈ s.shiftable g ↔ s.Shifts g t := by
  simp only [shiftable, Shifts, List.mem_filterMap, Option.bind_eq_some_iff,
    Symbol.terminal?_eq_some_iff, OrderedSet.mem_toList]
  constructor
  · rintro ⟨i, member, x, next, rfl⟩
    exact ⟨i, member, next⟩
  · rintro ⟨i, member, next⟩
    exact ⟨i, member, _, next, rfl⟩

theorem mem_reducible {g : Grammar} {s : State} {t : TerminalId} {rule : RuleId} :
    (t, rule) ∈ s.reducible g ↔ s.Reduces g t rule := by
  simp only [reducible, Reduces, List.mem_filterMap, OrderedSet.mem_toList]
  constructor
  · rintro ⟨i, member, selected⟩
    split at selected
    next allowed =>
      cases selected
      rw [Bool.and_eq_true, Bool.or_eq_true, bne_iff_ne, beq_iff_eq] at allowed
      obtain ⟨complete, at_end⟩ := allowed
      refine ⟨i, member, Option.isNone_iff_eq_none.mp complete, rfl, rfl, fun accepting => ?_⟩
      exact at_end.resolve_left fun other => other accepting
    next => cases selected
  · rintro ⟨i, member, complete, rfl, rfl, at_end⟩
    refine ⟨i, member, if_pos ?_⟩
    rw [Bool.and_eq_true, Bool.or_eq_true, bne_iff_ne, beq_iff_eq]
    refine ⟨Option.isNone_iff_eq_none.mpr complete, ?_⟩
    by_cases accepting : i.rule = .accept
    · exact .inr (at_end accepting)
    · exact .inl accepting

end State

namespace Automaton

/-- No state has a contested terminal. -/
def Uncontested (g : Grammar) (a : Automaton) : Prop :=
  ∀ s ∈ a.states, ∀ t, ¬ s.Contested g t

/-- No state has competing candidates for any terminal. -/
def ConflictFree (g : Grammar) (a : Automaton) : Prop :=
  ∀ s ∈ a.states, ∀ t, ¬ s.Competing g t

theorem ConflictFree.uncontested {g : Grammar} {a : Automaton} (free : a.ConflictFree g) :
    a.Uncontested g := by
  rintro s member t (⟨rule, shifts, reduces⟩ | ⟨rule, other, apart, reduces, reduces'⟩)
  · exact free s member t (.inl ⟨rule, shifts, reduces.completes⟩)
  · exact free s member t (.inr ⟨rule, other, apart, reduces.completes, reduces'.completes⟩)

end Automaton

end CanonicalLR
