import CanonicalLR.Grammar.Derivation
import CanonicalLR.Item.Basic

/-!
# Validity of items

An item is valid for a string of symbols if a parser that has read strings which these symbols
derive may be where the item says. Before anything is read the parser is at the front of rule 0 and
the end of the input is to follow; where it expects a nonterminal it may be at the front of any rule
for it; and reading a symbol moves the marker.

The items of the canonical collection are those that are valid if markers have no bound. Where the
markers suffice for every right side these are the valid items.
-/
namespace CanonicalLR

inductive Valid (g : Grammar) : List Symbol → Item → Prop where
  | start : Valid g [] { rule := .accept, marker := 0, lookahead := .eoi }
  | predict {w : List Symbol} {i : Item} {q : RuleId} {b : TerminalId} (valid : Valid g w i)
      (known : q < g.rules.length) (next : i.next? g = some (.nonterminal (g.rule q).left))
      (begins : Begins g.rules (i.afterNext g ++ [.terminal i.lookahead]) b) :
      Valid g w { rule := q, marker := 0, lookahead := b }
  | advance {w : List Symbol} {i : Item} {x : Symbol} (valid : Valid g w i)
      (next : i.next? g = some x) :
      Valid g (w ++ [x]) i.advance

/-- The items that a string has in the canonical collection. -/
inductive Canonical (g : Grammar) : List Symbol → Item → Prop where
  | start : Canonical g [] { rule := .accept, marker := 0, lookahead := .eoi }
  | predict {w : List Symbol} {i : Item} {q : RuleId} {b : TerminalId} (canonical : Canonical g w i)
      (known : q < g.rules.length) (next : i.next? g = some (.nonterminal (g.rule q).left))
      (begins : Begins g.rules (i.afterNext g ++ [.terminal i.lookahead]) b) :
      Canonical g w { rule := q, marker := 0, lookahead := b }
  | advance {w : List Symbol} {i : Item} {x : Symbol} (canonical : Canonical g w i)
      (next : i.next? g = some x) :
      Canonical g (w ++ [x]) { i with marker := i.marker + 1 }

variable {g : Grammar} {w : List Symbol} {i : Item} {x : Symbol}

/-- A marker that fits moves as one without a bound. -/
theorem Grammar.MarkersFit.advance_eq (fits : g.MarkersFit) (next : i.next? g = some x) :
    i.advance = { i with marker := i.marker + 1 } :=
  Item.advance_of_lt (Nat.lt_of_le_of_lt (Item.marker_lt_of_next? next) (fits.right_lt i))

theorem Grammar.MarkersFit.canonical_iff_valid (fits : g.MarkersFit) :
    Canonical g w i ↔ Valid g w i := by
  constructor
  · intro canonical
    induction canonical with
    | start => exact .start
    | predict _ known next begins ih => exact .predict ih known next begins
    | advance _ next ih => exact fits.advance_eq next ▸ Valid.advance ih next
  · intro valid
    induction valid with
    | start => exact .start
    | predict _ known next begins ih => exact .predict ih known next begins
    | advance _ next ih => exact (fits.advance_eq next).symm ▸ Canonical.advance ih next

namespace Valid

/-- Valid items for a string are had by reading its last symbol in valid items for the rest. -/
theorem exists_next (valid : Valid g (w ++ [x]) i) : ∃ j, Valid g w j ∧ j.next? g = some x := by
  generalize whole : w ++ [x] = u at valid
  induction valid with
  | start => simp at whole
  | predict _ _ _ _ ih => exact ih whole
  | advance valid next =>
    obtain ⟨rfl, last⟩ := List.append_inj' whole rfl
    obtain rfl := List.singleton_inj.mp last
    exact ⟨_, valid, next⟩

theorem marker_lt (valid : Valid g w i) : i.marker < markerNumbers := by
  cases valid with
  | start | predict => exact Nat.succ_pos _
  | advance => exact Item.advance_marker_lt _

/-- The marker of a valid item is not beyond its right side. -/
theorem marker_le (valid : Valid g w i) : i.marker ≤ (i.right g).length := by
  cases valid with
  | start | predict => exact Nat.zero_le _
  | advance _ next => exact Nat.le_trans (Item.advance_marker_le _) (Item.marker_lt_of_next? next)

/-- A string ends in what its valid items have read. -/
theorem exists_before (valid : Valid g w i) : ∃ v, w = v ++ i.before g := by
  -- A predicted item has read nothing, and an advanced one no more than one symbol more.
  induction valid with
  | start => exact ⟨[], rfl⟩
  | @predict w => exact ⟨w, by simp [Item.before]⟩
  | @advance w i x valid next ih =>
    obtain ⟨v, rfl⟩ := ih
    obtain ⟨u, more⟩ := Item.before_advance_suffix next valid.marker_lt
    exact ⟨v ++ u, by rw [List.append_assoc, List.append_assoc, more]⟩

/-- Rules that are complete somewhere have a right side that the markers suffice for. -/
theorem length_lt_of_complete (valid : Valid g w i) (complete : i.next? g = none) :
    (i.right g).length < markerNumbers :=
  Item.length_lt_of_complete complete valid.marker_lt

end Valid

/-- Beside a complete item, valid items have nothing but nonterminals next. -/
def Grammar.CompletesAlone (g : Grammar) : Prop :=
  ∀ w i j, Valid g w i → Valid g w j → i.next? g = none →
    j = i ∨ ∃ n, j.next? g = some (.nonterminal n)

end CanonicalLR
