import CanonicalLR.Examples.Small
import CanonicalLR.Proofs.ParserSoundness
import CanonicalLR.Proofs.RuleSquares
import CanonicalLR.Proofs.StateNumbering
import CanonicalLR.Proofs.TableEntries

/-!
# Where parsers accept

Rule 0 has the start symbol for a right side and is predicted nowhere but at the beginning, before
the end of the input. So there are two items of it, one with the start symbol to come and one with
the start symbol read, and each is valid for one string and stands in the one state that the string
leads to. The second is complete, and where it asks to accept nothing wins against it: the end of
the input is not shifted, and of the rules that may be reduced the lowest is taken, which is rule 0.
-/
namespace CanonicalLR

/-- A table accepts in one cell, and its automaton has the rule that is accepted in two states. -/
structure AcceptsOnce (g : Grammar) (a : Automaton) (table : Table) (final : StateId) : Prop where
  reached : a.goto .initial (.nonterminal g.start) = some final
  one_entry : table.actionEntries.filter (·.action = .accept) = [⟨final, .eoi, .accept⟩]
  not_reduced : ∀ e ∈ table.actionEntries, e.action ≠ .reduce .accept
  items : ∀ s i, i.rule = .accept →
    ((∃ state, a.states[s]? = some state ∧ i ∈ state.items) ↔
      s = .initial ∧ i = ⟨.accept, 0, .eoi⟩ ∨ s = final ∧ i = ⟨.accept, 1, .eoi⟩)

namespace Grammar

variable {g : Grammar} {built : Construction} {w : List Symbol} {i : Item} {s final : StateId}
  {t : TerminalId}

/-! ### Items of rule 0 -/

/-- Before anything is read rule 0 has all to come, and after the start symbol it is complete. -/
theorem Augmented.valid_accept_iff (augmented : g.Augmented) (accepting : i.rule = .accept) :
    Valid g w i ↔ w = [] ∧ i = ⟨.accept, 0, .eoi⟩ ∨
      w = [.nonterminal g.start] ∧ i = ⟨.accept, 1, .eoi⟩ := by
  have right := augmented.right_accept accepting
  constructor
  · intro valid
    have read := valid.eq_before_of_accept augmented accepting
    have lookahead := valid.lookahead_of_accept augmented accepting
    have inside := valid.marker_le
    rw [right, List.length_singleton] at inside
    obtain ⟨rule, marker, lookahead'⟩ := i
    obtain rfl : rule = .accept := accepting
    obtain rfl : lookahead' = .eoi := lookahead
    rw [Item.before, right] at read
    obtain rfl | rfl := Nat.le_one_iff_eq_zero_or_eq_one.mp inside
    · exact .inl ⟨read, rfl⟩
    · exact .inr ⟨read, rfl⟩
  · rintro (⟨rfl, rfl⟩ | ⟨rfl, rfl⟩)
    · exact .start
    · have next : Item.next? g ⟨.accept, 0, .eoi⟩ = some (.nonterminal g.start) := by
        rw [Item.next?, augmented.right_accept rfl]
        rfl
      exact .advance .start next

/-- An item stands in a state if it is valid for some string that leads there. -/
theorem WellFormed.exists_item_iff (wf : g.WellFormed) :
    (∃ state, (Automaton.ofGrammar g).states[s]? = some state ∧ i ∈ state.items) ↔
      ∃ w, (Automaton.ofGrammar g).walk? .initial w = some s ∧ Valid g w i := by
  constructor
  · rintro ⟨state, found, member⟩
    obtain ⟨w, walked⟩ := wf.exists_walk s (List.getElem?_eq_some_iff.mp found).1
    obtain ⟨state', found', items⟩ := wf.state_of_walk walked
    obtain rfl := Option.some.inj (found.symm.trans found')
    exact ⟨w, walked, (items i).mp member⟩
  · rintro ⟨w, walked, valid⟩
    obtain ⟨state, found, items⟩ := wf.state_of_walk walked
    exact ⟨state, found, (items i).mpr valid⟩

/-- The start symbol leads to the state after it. -/
theorem walk?_start (a : Automaton) (g : Grammar) :
    a.walk? .initial [.nonterminal g.start] = a.goto .initial (.nonterminal g.start) :=
  a.walk?_concat .initial [] _

theorem Augmented.exists_final (augmented : g.Augmented) :
    ∃ final, (Automaton.ofGrammar g).goto .initial (.nonterminal g.start) = some final := by
  have valid : Valid g [.nonterminal g.start] ⟨.accept, 1, .eoi⟩ :=
    (augmented.valid_accept_iff rfl).mpr (.inr ⟨rfl, rfl⟩)
  rw [← walk?_start]
  exact augmented.toWellFormed.exists_walk_of_valid valid

theorem Augmented.exists_accepting_item_iff (augmented : g.Augmented)
    (reached : (Automaton.ofGrammar g).goto .initial (.nonterminal g.start) = some final)
    (accepting : i.rule = .accept) :
    (∃ state, (Automaton.ofGrammar g).states[s]? = some state ∧ i ∈ state.items) ↔
      s = .initial ∧ i = ⟨.accept, 0, .eoi⟩ ∨ s = final ∧ i = ⟨.accept, 1, .eoi⟩ := by
  rw [augmented.toWellFormed.exists_item_iff]
  simp only [augmented.valid_accept_iff accepting]
  constructor
  · rintro ⟨w, walked, ⟨rfl, front⟩ | ⟨rfl, back⟩⟩
    · exact .inl ⟨(Option.some.inj walked).symm, front⟩
    · rw [walk?_start, reached] at walked
      exact .inr ⟨(Option.some.inj walked).symm, back⟩
  · rintro (⟨rfl, front⟩ | ⟨rfl, back⟩)
    · exact ⟨[], rfl, .inl ⟨rfl, front⟩⟩
    · exact ⟨_, (walk?_start _ g).trans reached, .inr ⟨rfl, back⟩⟩

/-! ### The cell -/

/-- The state after the start symbol asks to accept at the end of the input. -/
theorem Augmented.exists_reduces_accept (augmented : g.Augmented)
    (reached : (Automaton.ofGrammar g).goto .initial (.nonterminal g.start) = some final) :
    ∃ state, (Automaton.ofGrammar g).states[final]? = some state ∧
      state.Reduces g .eoi .accept := by
  obtain ⟨state, found, member⟩ :=
    (augmented.exists_accepting_item_iff reached rfl).mpr (.inr ⟨rfl, rfl⟩)
  have complete : Item.next? g ⟨.accept, 1, .eoi⟩ = none := by
    rw [Item.next?, augmented.right_accept rfl]
    rfl
  exact ⟨state, found, _, member, complete, rfl, rfl, fun _ => rfl⟩

/-- A cell accepts if it is that of the state after the start symbol at the end of the input. -/
theorem Augmented.action_eq_accept_iff (augmented : g.Augmented)
    (constructed : g.construct = .ok built)
    (reached : (Automaton.ofGrammar g).goto .initial (.nonterminal g.start) = some final) :
    built.table.action s t = some .accept ↔ s = final ∧ t = .eoi := by
  have wf := augmented.toWellFormed
  constructor
  · intro action
    obtain ⟨state, found, i, member, complete, _, accepting, at_end⟩ :=
      wf.reduces_of_accept constructed action
    refine ⟨?_, at_end rfl⟩
    rcases (augmented.exists_accepting_item_iff reached accepting).mp ⟨state, found, member⟩ with
      ⟨_, rfl⟩ | ⟨same, _⟩
    · -- The item with the start symbol to come is not complete.
      rw [Item.next?, augmented.right_accept rfl] at complete
      cases complete
    · exact same
  · rintro ⟨rfl, rfl⟩
    obtain ⟨state, found, reduces⟩ := augmented.exists_reduces_accept reached
    have fits := wf.coherent state (List.mem_of_getElem? found)
    have lowest : state.LowestReduction g .eoi .accept := ⟨reduces, fun id _ => Nat.zero_le id⟩
    rw [wf.action_of_lowest constructed found fits.eoi_not_shifted lowest, if_pos rfl]

theorem Augmented.acceptsOnce (augmented : g.Augmented) (constructed : g.construct = .ok built)
    (reached : (Automaton.ofGrammar g).goto .initial (.nonterminal g.start) = some final) :
    AcceptsOnce g (.ofGrammar g) built.table final := by
  have wf := augmented.toWellFormed
  have distinct (row) (member : row ∈ built.table.rows) :=
    (wf.nodup_rows constructed row member).1
  refine { reached := reached, one_entry := ?_, not_reduced := ?_, items := ?_ }
  · -- The entries have no repetitions, so those that accept are told by their members.
    refine List.perm_singleton.mp ((List.perm_ext_iff_of_nodup
      ((nodup_actionEntries distinct).filter _) (List.nodup_singleton _)).mpr ?_)
    rintro ⟨s, t, act⟩
    rw [List.mem_filter, mem_actionEntries distinct, decide_eq_true_iff, List.mem_singleton,
      ActionEntry.mk.injEq, ← and_assoc,
      ← augmented.action_eq_accept_iff constructed reached]
    constructor
    · rintro ⟨action, rfl⟩
      exact ⟨action, rfl⟩
    · rintro ⟨action, rfl⟩
      exact ⟨action, rfl⟩
  · rintro ⟨s, t, act⟩ listed rfl
    exact wf.ne_accept_of_reduce constructed ((mem_actionEntries distinct).mp listed) rfl
  · exact fun _ _ => augmented.exists_accepting_item_iff reached

end Grammar

end CanonicalLR
