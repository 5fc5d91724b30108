import CanonicalLR.Symbol
import CanonicalLR.Fixpoint

/-!
# Terminals that flow between nonterminals

Some analyses give each nonterminal a set of terminals, subject to inclusions: where the set of one
nonterminal has a member, the set of another has certain terminals, and perhaps every member of the
first. `Flow.solve` enlarges given sets until all inclusions hold. Each round that does not end the
work adds a member somewhere, and there are no members but those that some set began with or some
inclusion names; this bounds the rounds.
-/
namespace CanonicalLR

structure Flow where
  source : NonterminalId
  target : NonterminalId
  /-- What the target has as soon as the source has a member. -/
  emits : TerminalSet
  /-- Whether the target has every member of the source. -/
  passes : Bool
deriving DecidableEq

namespace Flow

/-- What an inclusion demands in its target, given the set of its source. -/
def delivers (f : Flow) (s : TerminalSet) : TerminalSet :=
  if s.isEmpty then ∅
  else if f.passes then f.emits ∪ s
  else f.emits

/-- The set of a nonterminal, in a list with one set for each. -/
def setOf (sets : List TerminalSet) (n : NonterminalId) : TerminalSet := sets.getD n ∅

def addTo (sets : List TerminalSet) (n : NonterminalId) (s : TerminalSet) : List TerminalSet :=
  sets.modify n (· ∪ s)

def pass (flows : List Flow) (sets : List TerminalSet) : List TerminalSet :=
  flows.foldl (fun sets f => addTo sets f.target (f.delivers (setOf sets f.source))) sets

/-- How many members all sets have together. -/
def mass (sets : List TerminalSet) : Nat := (sets.flatMap OrderedSet.toList).length

def rounds (flows : List Flow) (sets : List TerminalSet) : Nat :=
  sets.length * mass (sets ++ flows.map (·.emits))

def solve (flows : List Flow) (sets : List TerminalSet) : List TerminalSet :=
  iterate (pass flows) (rounds flows sets) sets

@[simp] theorem mem_delivers {f : Flow} {s : TerminalSet} {t : TerminalId} :
    t ∈ f.delivers s ↔ (∃ u, u ∈ s) ∧ (t ∈ f.emits ∨ f.passes = true ∧ t ∈ s) := by
  simp only [delivers]
  split
  next empty =>
    have none_in := OrderedSet.isEmpty_iff.mp empty
    simp [none_in]
  next occupied =>
    have member : ∃ u, u ∈ s := by
      refine Classical.byContradiction fun none_in => occupied ?_
      exact OrderedSet.isEmpty_iff.mpr fun u u_in => none_in ⟨u, u_in⟩
    split
    next passes => simp [member, passes]
    next blocks => simp [member, blocks]

theorem mem_setOf_addTo {sets : List TerminalSet} {n m : NonterminalId} {s : TerminalSet}
    {t : TerminalId} :
    t ∈ setOf (addTo sets n s) m ↔
      t ∈ setOf sets m ∨ n = m ∧ m < sets.length ∧ t ∈ s := by
  simp only [setOf, addTo, List.getD_eq_getElem?_getD, List.getElem?_modify]
  by_cases equal : n = m
  · cases found : sets[m]? with
    | none =>
      have outside := List.getElem?_eq_none_iff.mp found
      simp [equal, Nat.not_lt.mpr outside]
    | some u =>
      have inside := (List.getElem?_eq_some_iff.mp found).1
      simp [equal, inside]
  · cases sets[m]? <;> simp [equal]

end Flow

end CanonicalLR
