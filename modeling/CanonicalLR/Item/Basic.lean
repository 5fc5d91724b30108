import CanonicalLR.Grammar.Basic
import CanonicalLR.OrderedSet

/-!
# LR(1) items

An item is a rule with a marker in its right side and a terminal: the part before the marker has
been read, and the terminal may follow once the rest has been read too. Items are ordered by rule,
then by marker, then by lookahead.

A marker is a number of sixteen bits. On a right side of 65536 symbols or more it does not come to
the end: after the last number it is at the front again.
-/
namespace CanonicalLR

/-- Markers have sixteen bits, so there are this many of them. -/
def markerNumbers : Nat := 65536

theorem markerNumbers_pos : 0 < markerNumbers := Nat.succ_pos _

structure Item where
  rule : RuleId
  /-- How many symbols of the right side stand before the marker, up to a multiple of
  `markerNumbers`. -/
  marker : Nat
  lookahead : TerminalId
deriving DecidableEq, Repr, Inhabited

namespace Item

instance : LT Item where
  lt i j := i.rule < j.rule ∨ i.rule = j.rule ∧
    (i.marker < j.marker ∨ i.marker = j.marker ∧ i.lookahead < j.lookahead)

theorem lt_def {i j : Item} : i < j ↔ i.rule < j.rule ∨ i.rule = j.rule ∧
    (i.marker < j.marker ∨ i.marker = j.marker ∧ i.lookahead < j.lookahead) := Iff.rfl

instance : DecidableLT Item := fun _ _ => decidable_of_iff _ lt_def.symm

instance : StrictTotal Item where
  irrefl i := by simp [lt_def]
  trans := by
    intro i j k
    simp only [lt_def]
    lia
  connected i j := by
    obtain ⟨r, m, a⟩ := i
    obtain ⟨r', m', a'⟩ := j
    simp only [lt_def, Item.mk.injEq]
    lia

/-- The items that tell a state from others: those that reading a symbol leads to, and those of the
rule with which parsing begins. -/
def isKernel (i : Item) : Bool :=
  0 < i.marker || i.rule == .accept

/-- Move the marker behind the next symbol. The last marker is followed by the first. -/
def advance (i : Item) : Item :=
  { i with marker := (i.marker + 1) % markerNumbers }

@[simp] theorem advance_rule (i : Item) : i.advance.rule = i.rule := rfl

@[simp] theorem advance_lookahead (i : Item) : i.advance.lookahead = i.lookahead := rfl

theorem advance_marker_lt (i : Item) : i.advance.marker < markerNumbers :=
  Nat.mod_lt _ (Nat.succ_pos _)

theorem advance_of_lt {i : Item} (room : i.marker + 1 < markerNumbers) :
    i.advance = { i with marker := i.marker + 1 } := by
  rw [advance, Nat.mod_eq_of_lt room]

theorem advance_marker_le (i : Item) : i.advance.marker ≤ i.marker + 1 :=
  Nat.mod_le _ _

variable (g : Grammar) (i : Item)

def right : List Symbol := (g.rule i.rule).right

/-- What has been read. -/
def before : List Symbol := (i.right g).take i.marker

/-- The symbol after the marker. -/
def next? : Option Symbol := (i.right g)[i.marker]?

/-- What follows the symbol after the marker. -/
def afterNext : List Symbol := (i.right g).drop (i.marker + 1)

def isComplete : Bool := (i.next? g).isNone

variable {g i}

theorem next?_mem {x : Symbol} (next : i.next? g = some x) : x ∈ i.right g :=
  List.mem_of_getElem? next

/-- An item whose rule the grammar lacks has no right side. -/
theorem right_of_unknown (unknown : g.rules.length ≤ i.rule) : i.right g = [] := by
  rw [right, Grammar.rule, List.getD_eq_getElem?_getD, List.getElem?_eq_none unknown]
  rfl

theorem rule_known_of_next? {x : Symbol} (next : i.next? g = some x) :
    i.rule < g.rules.length := by
  refine Nat.lt_of_not_le fun unknown => ?_
  have member := next?_mem next
  rw [right_of_unknown unknown] at member
  exact absurd member List.not_mem_nil

theorem right_eq_of_next? {x : Symbol} (next : i.next? g = some x) :
    i.right g = i.before g ++ x :: i.afterNext g := by
  obtain ⟨inside, rfl⟩ := List.getElem?_eq_some_iff.mp next
  rw [before, afterNext, List.getElem_cons_drop, List.take_append_drop]

theorem length_before (inside : i.marker ≤ (i.right g).length) :
    (i.before g).length = i.marker := by
  rw [before, List.length_take]
  omega

theorem marker_lt_of_next? {x : Symbol} (next : i.next? g = some x) :
    i.marker < (i.right g).length :=
  (List.getElem?_eq_some_iff.mp next).1

theorem before_advance_of_lt {x : Symbol} (next : i.next? g = some x)
    (room : i.marker + 1 < markerNumbers) : i.advance.before g = i.before g ++ [x] := by
  rw [advance_of_lt room, before, before]
  change (i.right g).take (i.marker + 1) = _
  rw [List.take_add_one]
  exact congrArg _ (congrArg Option.toList next)

/-- On a right side that the markers suffice for, what has been read grows by the next symbol. -/
theorem before_advance {x : Symbol} (next : i.next? g = some x)
    (fits : (i.right g).length < markerNumbers) :
    i.advance.before g = i.before g ++ [x] :=
  before_advance_of_lt next (Nat.lt_of_le_of_lt (marker_lt_of_next? next) fits)

/-- On any right side, what the marker says to have been read is the end of what has been. -/
theorem before_advance_suffix {x : Symbol} (next : i.next? g = some x)
    (bounded : i.marker < markerNumbers) : i.advance.before g <:+ i.before g ++ [x] := by
  rcases Nat.lt_or_ge (i.marker + 1) markerNumbers with room | full
  · exact before_advance_of_lt next room ▸ List.suffix_rfl
  · have front : i.advance.marker = 0 := by
      have last : i.marker + 1 = markerNumbers := Nat.le_antisymm bounded full
      exact (congrArg (· % markerNumbers) last).trans (Nat.mod_self _)
    rw [before, front, List.take_zero]
    exact List.nil_suffix

/-- A rule that is complete with a marker in range has a right side that the markers suffice for. -/
theorem length_lt_of_complete (complete : i.next? g = none) (bounded : i.marker < markerNumbers) :
    (i.right g).length < markerNumbers :=
  Nat.lt_of_le_of_lt (List.getElem?_eq_none_iff.mp complete) bounded

/-- A complete item has read its right side. -/
theorem before_of_complete (complete : i.next? g = none) : i.before g = i.right g :=
  List.take_of_length_le (List.getElem?_eq_none_iff.mp complete)

variable (g i)

/-- The marker is written as a dot, and not at all if it lies beyond the right side. -/
def text : String :=
  let names := (i.right g).map g.symbolName
  let marked :=
    if i.marker ≤ names.length then names.take i.marker ++ "." :: names.drop i.marker else names
  let words := g.nonterminalName (g.rule i.rule).left :: ":=" :: marked
  "[" ++ " ".intercalate words ++ ", " ++ g.terminalName i.lookahead ++ "]"

end Item

namespace Grammar

/-- The markers suffice for every right side. -/
def MarkersFit (g : Grammar) : Prop :=
  ∀ r ∈ g.rules, r.right.length < markerNumbers

instance (g : Grammar) : Decidable g.MarkersFit :=
  inferInstanceAs (Decidable (∀ r ∈ g.rules, r.right.length < markerNumbers))

theorem MarkersFit.right_lt {g : Grammar} (fits : g.MarkersFit) (i : Item) :
    (i.right g).length < markerNumbers := by
  rcases Nat.lt_or_ge i.rule g.rules.length with known | unknown
  · exact fits _ (rule_mem known)
  · rw [Item.right_of_unknown unknown]
    exact Nat.succ_pos _

end Grammar

abbrev ItemSet := OrderedSet Item

namespace ItemSet

def kernel (s : ItemSet) : ItemSet := s.filter Item.isKernel

@[simp] theorem mem_kernel {s : ItemSet} {i : Item} :
    i ∈ s.kernel ↔ i ∈ s ∧ i.isKernel = true :=
  OrderedSet.mem_filter

/-- Item sets are the same state if they have the same kernel. -/
def sameState (s t : ItemSet) : Bool := s.kernel == t.kernel

end ItemSet

end CanonicalLR
