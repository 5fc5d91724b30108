import CanonicalLR.Examples.Small
import CanonicalLR.Proofs.ParserSafety
import CanonicalLR.Proofs.StateNumbering

/-!
# Where items come from

Different paths of an automaton meet in one state, and the items of that state can be followed back
along each of them. A path ends in what an item has read, and as many edges back the item stands
with its marker at the front, next to an item that predicts its rule and so can read the left side.
Only the rule with which parsing begins is not predicted. This is what a reduction relies on, along
whichever path its state was entered. It also shows that a state is entered on one symbol only, the
one before the marker of the items that were advanced into it, and that nothing leads back to the
state in which parsing begins.
-/
namespace CanonicalLR

/-- The item before anything of its right side was read. -/
def Item.atFront (i : Item) : Item := { i with marker := 0 }

/-- A path, its latest state first, accounts for an item of that state: its string ends in what the
item has read, and the state so many edges back has the item with its marker at the front and can
move on its left side. -/
structure Automaton.AccountsFor (g : Grammar) (a : Automaton) (w : List Symbol)
    (path : List StateId) (i : Item) : Prop where
  marker_le : i.marker ≤ (i.right g).length
  read : i.before g <:+ w
  origin : ∃ t state, path[i.marker]? = some t ∧ a.states[t]? = some state ∧
    i.atFront ∈ state.items ∧
    (i.rule ≠ .accept → ∃ next, a.goto t (.nonterminal (g.rule i.rule).left) = some next)

/-! ### Items and strings -/

namespace Valid

variable {g : Grammar} {w : List Symbol} {i : Item}

/-- What an item has read is read from a string for which the item stands at its front. -/
theorem exists_atFront (fits : g.MarkersFit) (valid : Valid g w i) :
    ∃ v, w = v ++ i.before g ∧ Valid g v i.atFront := by
  induction valid with
  | start => exact ⟨[], rfl, .start⟩
  | @predict w i q b valid known next begins =>
    exact ⟨w, by simp [Item.before], .predict valid known next begins⟩
  | advance _ next ih =>
    obtain ⟨v, rfl, front⟩ := ih
    exact ⟨v, by rw [Item.before_advance next (fits.right_lt _), List.append_assoc], front⟩

/-- Where an item of a rule other than the first stands at its front, the left side can be read. -/
theorem exists_left_of_atFront (fits : g.MarkersFit) (front : Valid g w i.atFront)
    (proper : i.rule ≠ .accept) : ∃ j, Valid g (w ++ [.nonterminal (g.rule i.rule).left]) j := by
  obtain ⟨v, j, whole, predictor, predicted⟩ := front.exists_predictor proper (fits.right_lt _)
  obtain rfl : w = v := by simpa [Item.before, Item.atFront] using whole
  exact ⟨_, .advance predictor predicted⟩

end Valid

namespace Grammar.WellFormed

variable {g : Grammar} {w : List Symbol} {s s' t : StateId} {x x' : Symbol}

/-! ### Paths -/

theorem accountsFor_of_valid (wf : g.WellFormed) (fits : g.MarkersFit) {path : List StateId}
    (spells : Parser.Spells (.ofGrammar g) w path) {i : Item} (valid : Valid g w i) :
    (Automaton.ofGrammar g).AccountsFor g w path i := by
  obtain ⟨v, rfl, front⟩ := valid.exists_atFront fits
  have inside := valid.marker_le
  refine { marker_le := inside, read := List.suffix_append _ _, origin := ?_ }
  -- What is left of the path without the last edges spells the string up to the marker.
  have back := spells.drop
  rw [Item.length_before inside] at back
  obtain ⟨t, below, rest⟩ := back.exists_top
  rw [rest] at back
  obtain ⟨state, found, items⟩ := wf.state_of_walk back.walk
  refine ⟨t, state, ?_, found, (items _).mpr front, fun proper => ?_⟩
  · rw [← List.head?_drop, rest, List.head?_cons]
  · obtain ⟨j, readable⟩ := front.exists_left_of_atFront fits proper
    obtain ⟨next, walked⟩ := wf.exists_walk_of_valid readable
    rw [Automaton.walk?_concat, back.walk, Option.bind_some] at walked
    exact ⟨next, walked⟩

/-- A path accounts for all items of the state where it ends. -/
theorem accountsFor (wf : g.WellFormed) (fits : g.MarkersFit) {below : List StateId}
    (spells : Parser.Spells (.ofGrammar g) w (s :: below)) {state : State}
    (found : (Automaton.ofGrammar g).states[s]? = some state) {i : Item}
    (member : i ∈ state.items) :
    (Automaton.ofGrammar g).AccountsFor g w (s :: below) i := by
  obtain ⟨state', found', items⟩ := wf.state_of_walk spells.walk
  obtain rfl := Option.some.inj (found.symm.trans found')
  exact wf.accountsFor_of_valid fits spells ((items i).mp member)

/-! ### Edges -/

/-- Every edge is the last one of some path. -/
theorem exists_walk_of_goto (wf : g.WellFormed)
    (moved : (Automaton.ofGrammar g).goto s x = some t) :
    ∃ w, (Automaton.ofGrammar g).walk? .initial (w ++ [x]) = some t := by
  obtain ⟨kernel, found, _⟩ := wf.goto_eq_some_iff.mp moved
  have inside : s < (Automaton.ofGrammar g).size :=
    wf.size_eq ▸ (List.getElem?_eq_some_iff.mp found).1
  obtain ⟨w, walked⟩ := wf.exists_walk s inside
  exact ⟨w, by rw [Automaton.walk?_concat, walked, Option.bind_some, moved]⟩

/-- The strings that lead to the target of an edge all end in its symbol: the target has an item
that was advanced over it. -/
theorem suffix_of_goto (wf : g.WellFormed) (fits : g.MarkersFit)
    (moved : (Automaton.ofGrammar g).goto s x = some t)
    (walked : (Automaton.ofGrammar g).walk? .initial w = some t) : [x] <:+ w := by
  obtain ⟨v, through⟩ := wf.exists_walk_of_goto moved
  obtain ⟨state, found, items⟩ := wf.state_of_walk through
  obtain ⟨_, valid⟩ := wf.exists_walk_iff.mp ⟨t, through⟩
  obtain ⟨j, earlier, next⟩ := valid.exists_next
  have member : j.advance ∈ state.items := (items _).mpr (.advance earlier next)
  obtain ⟨state', found', items'⟩ := wf.state_of_walk walked
  obtain rfl := Option.some.inj (found.symm.trans found')
  obtain ⟨u, rfl⟩ := ((items' _).mp member).exists_before
  rw [Item.before_advance next (fits.right_lt j), ← List.append_assoc]
  exact List.suffix_append _ _

/-- All edges into a state carry the same symbol. -/
theorem symbol_unique (wf : g.WellFormed) (fits : g.MarkersFit)
    (moved : (Automaton.ofGrammar g).goto s x = some t)
    (moved' : (Automaton.ofGrammar g).goto s' x' = some t) : x = x' := by
  obtain ⟨w, walked⟩ := wf.exists_walk_of_goto moved'
  obtain ⟨v, whole⟩ := wf.suffix_of_goto fits moved walked
  exact List.singleton_inj.mp (List.append_inj' whole rfl).2

theorem goto_ne_initial (wf : g.WellFormed) (fits : g.MarkersFit) :
    (Automaton.ofGrammar g).goto s x ≠ some .initial := by
  intro moved
  have nothing_read := wf.suffix_of_goto fits (w := []) moved rfl
  simp at nothing_read

end Grammar.WellFormed

namespace Grammar

end Grammar

end CanonicalLR
