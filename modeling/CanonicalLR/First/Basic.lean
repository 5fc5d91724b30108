import CanonicalLR.First.Expansion
import CanonicalLR.TerminalSet.Flow

/-!
# FIRST sets

The FIRST set of a symbol or string has the terminals that begin what it derives, and the marker for
the empty string if that is derived too. A nonterminal's set begins with the leading terminals of
its expanded productions; where an expanded production begins with another nonterminal, the members
of that one's set flow in.
-/
namespace CanonicalLR

structure FirstSets where
  nullable : List NonterminalId
  /-- The terminals of each nonterminal's set, without the marker for the empty string. -/
  sets : List TerminalSet

namespace FirstSets

def leadingTerminals (expansions : List (NonterminalId × List Symbol)) (n : NonterminalId) :
    TerminalSet :=
  .ofList <| expansions.filterMap fun
    | (left, .terminal t :: _) => if left = n then some t else none
    | _ => none

def leadingFlow? : NonterminalId × List Symbol → Option Flow
  | (left, .nonterminal n :: _) => some { source := n, target := left, emits := ∅, passes := true }
  | _ => none

def ofGrammar (g : Grammar) : FirstSets :=
  let nullable := g.nullable
  let expansions := g.expansions nullable
  { nullable := nullable
    sets := Flow.solve (expansions.filterMap leadingFlow?)
      ((List.range g.nonterminals.length).map (leadingTerminals expansions)) }

variable (f : FirstSets)

def isNullable (n : NonterminalId) : Bool := n ∈ f.nullable

def first : Symbol → TerminalSet
  | .terminal t => .ofList [t]
  | .nonterminal n =>
    let s := Flow.setOf f.sets n
    if f.isNullable n then s.insert .epsilon else s

/-- The marker for the empty string is among the members only if every symbol has it in its set. -/
def firstOf : List Symbol → TerminalSet
  | [] => .ofList [.epsilon]
  | x :: xs =>
    let s := f.first x
    if s.contains .epsilon then s.erase .epsilon ∪ firstOf xs else s

/-- The FIRST set of a string that is followed by a lookahead terminal. -/
def lookaheads (xs : List Symbol) (lookahead : TerminalId) : TerminalSet :=
  let s := f.firstOf xs
  if s.contains .epsilon then (s.erase .epsilon).insert lookahead else s

end FirstSets

end CanonicalLR
