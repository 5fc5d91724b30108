import CanonicalLR.Grammar.Definition

/-!
# Outlines of grammars

An outline names the symbols of a grammar once and writes its productions by these names. It stands
for the declarations that introduce the terminals, then the nonterminals, then the productions, none
of them with a precedence.
-/
namespace CanonicalLR

structure Outline where
  terminals : List String
  nonterminals : List String
  /-- Left and right sides, in the order of the rules. The first left side is the start symbol. -/
  productions : List (String × List String)
deriving DecidableEq, Repr

namespace Outline

variable (o : Outline)

/-- Declared symbols come after the reserved ones. -/
def nonterminalId (name : String) : NonterminalId :=
  Vocabulary.reserved.nonterminals.length + o.nonterminals.idxOf name

def symbol (name : String) : Symbol :=
  if name ∈ o.terminals then
    .terminal (Vocabulary.reserved.terminals.length + o.terminals.idxOf name)
  else .nonterminal (o.nonterminalId name)

def declarations : List Declaration :=
  o.terminals.map (.terminal · none) ++ o.nonterminals.map .nonterminal ++
    o.productions.map fun (left, right) => .rule (o.nonterminalId left) (right.map o.symbol) none

end Outline

end CanonicalLR
