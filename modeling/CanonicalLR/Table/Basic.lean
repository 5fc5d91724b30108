import CanonicalLR.Grammar.Basic

/-!
# Parse tables

A table has a row for each state of the automaton: the action on each lookahead terminal, in
ascending order of the terminals, and the state to enter after a reduction to each nonterminal. It
also has what is known of the conflicts that were settled on the way.
-/
namespace CanonicalLR

structure Row where
  actions : List (TerminalId × Action)
  gotos : List (NonterminalId × StateId)
deriving DecidableEq, Repr

/-- How many conflicts of each kind were settled. -/
structure Conflicts where
  shiftReduce : Nat
  reduceReduce : Nat
deriving DecidableEq, Repr, Inhabited

namespace Conflicts

def none : Conflicts := ⟨0, 0⟩

def add (c d : Conflicts) : Conflicts :=
  ⟨c.shiftReduce + d.shiftReduce, c.reduceReduce + d.reduceReduce⟩

def total (cs : List Conflicts) : Conflicts := cs.foldr add none

/-- Conflicts are summed up in one warning, if there are any. -/
def warnings (c : Conflicts) : List Warning :=
  if c = none then [] else [.conflicts c.shiftReduce c.reduceReduce]

end Conflicts

structure Table where
  rows : List Row
  conflicts : Conflicts
  warnings : List Warning
deriving DecidableEq, Repr

structure ActionEntry where
  state : StateId
  terminal : TerminalId
  action : Action
deriving DecidableEq, Repr

structure GotoEntry where
  state : StateId
  nonterminal : NonterminalId
  target : StateId
deriving DecidableEq, Repr

namespace Table

variable (t : Table)

def action (s : StateId) (terminal : TerminalId) : Option Action :=
  t.rows[s]?.bind fun row => row.actions.lookup terminal

def goto (s : StateId) (n : NonterminalId) : Option StateId :=
  t.rows[s]?.bind fun row => row.gotos.lookup n

def actionEntries : List ActionEntry :=
  t.rows.zipIdx.flatMap fun (row, s) => row.actions.map fun (terminal, action) =>
    { state := s, terminal := terminal, action := action }

def gotoEntries : List GotoEntry :=
  t.rows.zipIdx.flatMap fun (row, s) => row.gotos.map fun (n, target) =>
    { state := s, nonterminal := n, target := target }

end Table

end CanonicalLR
