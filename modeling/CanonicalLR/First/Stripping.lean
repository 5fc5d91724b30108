import CanonicalLR.First.Expansion

/-!
# Stripping productions in passes

Expanded productions and nullable nonterminals can be found together, in a list of productions that
is extended while it is walked. A production that begins with a nonterminal known to be nullable
gives another one without it, which goes to the end of the list if it is not there yet. If nothing
is left of its right side, its left side is known to be nullable from then on, also by productions
that have been passed before. So the list is walked again until a walk adds no production to it.
Whether a walk adds a nullable nonterminal is not asked.

Nothing in this bounds the number of turns: the list may grow in front of the walk as it goes on.
-/
namespace CanonicalLR

structure Stripping where
  /-- In the order in which they were found. -/
  productions : List (NonterminalId × List Symbol)
  nullables : List NonterminalId
  /-- How many productions the walk has passed. -/
  position : Nat
  /-- Whether the walk has added a production. -/
  changed : Bool
deriving DecidableEq, Repr

namespace Stripping

/-- What is left of a production without the nullable nonterminal in front of its right side. -/
def stripped? (nullables : List NonterminalId) :
    NonterminalId × List Symbol → Option (NonterminalId × List Symbol)
  | (left, .nonterminal n :: rest) => if n ∈ nullables then some (left, rest) else none
  | _ => none

/-- The beginning of the first walk, over the productions of the rules. -/
def start (g : Grammar) : Stripping :=
  let productions := discoverAll [] (g.rules.map fun r => (r.left, r.right))
  { productions := productions
    nullables := discoverAll [] ((productions.filter (·.2.isEmpty)).map (·.1))
    position := 0
    changed := false }

variable (s : Stripping)

/-- Take in a production that was had by stripping another one. -/
def takeIn (p : NonterminalId × List Symbol) : Stripping :=
  { s with
    productions := discover s.productions p
    nullables := if p.2.isEmpty then discover s.nullables p.1 else s.nullables
    changed := s.changed || p ∉ s.productions }

/-- Pass the next production, or begin another walk if this one has passed all of them and has
added some. -/
def turn? : Option Stripping :=
  match s.productions[s.position]? with
  | some p =>
    let passed := { s with position := s.position + 1 }
    match stripped? s.nullables p with
    | some p' => some (passed.takeIn p')
    | none => some passed
  | none => if s.changed then some { s with position := 0, changed := false } else none

/-- Turns are taken until none is left to take, and this has been found then. -/
inductive Ends : Stripping → Stripping → Prop where
  | done {s : Stripping} (ended : s.turn? = none) : Ends s s
  | turn {s next last : Stripping} (turned : s.turn? = some next) (rest : Ends next last) :
      Ends s last

end Stripping

end CanonicalLR
