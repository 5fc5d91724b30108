import CanonicalLR.Symbol

/-!
# How terminal sets are stored

A terminal set is kept in a store of natural numbers, which says by itself whether a number that is
inserted is new and whether one that is removed was there. What else terminal sets are used for is
made of the operations of the store: a union has added something if the store is larger after it.
-/
namespace CanonicalLR

/-- There are this many numbers of terminals, for they have sixteen bits. -/
def terminalNumbers : Nat := 65536

structure NumberStore (σ : Type) where
  empty : σ
  contains : σ → Nat → Bool
  /-- Insert a number and say whether it is new. -/
  insert : σ → Nat → Bool × σ
  /-- Remove a number and say whether it was there. -/
  remove : σ → Nat → Bool × σ
  collect : List Nat → σ
  union : σ → σ → σ
  size : σ → Nat
  isEmpty : σ → Bool
  members : σ → List Nat
  equal : σ → σ → Bool

namespace NumberStore

variable {σ : Type} (ops : NumberStore σ)

/-- Join another set and say whether anything was added. -/
def joining (s t : σ) : Bool × σ :=
  let before := ops.size s
  let both := ops.union s t
  (ops.size both != before, both)

def insertAll (s : σ) (ts : List TerminalId) : σ :=
  ts.foldl (fun s t => (ops.insert s t).2) s

/-- The members as terminals, whose numbers are cut to sixteen bits. -/
def terminals (s : σ) : List TerminalId :=
  (ops.members s).map (· % terminalNumbers)

/-- Ascending lists as a store. -/
def ordered : NumberStore TerminalSet where
  empty := ∅
  contains := OrderedSet.contains
  insert := OrderedSet.inserting
  remove := OrderedSet.erasing
  collect := OrderedSet.ofList
  union := (· ∪ ·)
  size := OrderedSet.size
  isEmpty := OrderedSet.isEmpty
  members := OrderedSet.toList
  equal := (· == ·)

end NumberStore

end CanonicalLR
