import CanonicalLR.OrderedSet

/-!
# Grammar symbols

Terminals and nonterminals are numbered separately, in the order of their declaration. The first
numbers of each kind are taken by symbols that every grammar has: three terminals and one
nonterminal. Rules and parser states are numbered as well.
-/
namespace CanonicalLR

abbrev TerminalId := Nat
abbrev NonterminalId := Nat
abbrev RuleId := Nat
abbrev StateId := Nat

/-- The end of the input, which follows every sentence. -/
def TerminalId.eoi : TerminalId := 0

/-- Stands for the empty string in FIRST sets; it is no part of a rule or of a table. -/
def TerminalId.epsilon : TerminalId := 1

/-- The error token. Rules may mention it. -/
def TerminalId.error : TerminalId := 2

/-- The left side of the rule that is added to every grammar. -/
def NonterminalId.start : NonterminalId := 0

/-- The rule that is added to every grammar. Completing it means accepting the input. -/
def RuleId.accept : RuleId := 0

/-- The state in which parsing begins. -/
def StateId.initial : StateId := 0

inductive Symbol where
  | terminal (t : TerminalId)
  | nonterminal (n : NonterminalId)
deriving DecidableEq, Repr, Inhabited

namespace Symbol

def terminal? : Symbol → Option TerminalId
  | terminal t => some t
  | nonterminal _ => none

def nonterminal? : Symbol → Option NonterminalId
  | terminal _ => none
  | nonterminal n => some n

@[simp] theorem terminal?_eq_some_iff {x : Symbol} {t : TerminalId} :
    x.terminal? = some t ↔ x = terminal t := by
  cases x <;> simp [terminal?]

@[simp] theorem nonterminal?_eq_some_iff {x : Symbol} {n : NonterminalId} :
    x.nonterminal? = some n ↔ x = nonterminal n := by
  cases x <;> simp [nonterminal?]

end Symbol

/-- Sets list their terminals in ascending order of their numbers. The marker for the empty string
is an element like any other. -/
abbrev TerminalSet := OrderedSet TerminalId

end CanonicalLR
