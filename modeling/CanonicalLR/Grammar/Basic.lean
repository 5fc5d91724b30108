import CanonicalLR.Symbol
import CanonicalLR.Precedence
import CanonicalLR.Diagnostic

/-!
# Context-free grammars

A vocabulary lists the terminals and the nonterminals, and the number of a symbol is its position
in its list. A grammar adds the numbered rules and the start symbol. Its rule 0 takes
the reserved nonterminal to the start symbol, and completing that rule means accepting.

Looking up a number that is not in the vocabulary gives an empty name.
-/
namespace CanonicalLR

structure Terminal where
  name : String
  /-- The type of the values that go with the symbol, for those who generate code. -/
  typeTag : Option String
  precedence : Option Precedence
deriving DecidableEq, Repr, Inhabited

structure Nonterminal where
  name : String
  typeTag : Option String
deriving DecidableEq, Repr, Inhabited

structure Vocabulary where
  terminals : List Terminal
  nonterminals : List Nonterminal
deriving DecidableEq, Repr, Inhabited

structure Rule where
  left : NonterminalId
  right : List Symbol
  /-- A precedence that is given to the rule itself. -/
  override : Option Precedence
  /-- What a parser is to do on reducing by this rule. -/
  action : Option String
deriving DecidableEq, Repr, Inhabited

structure Grammar extends Vocabulary where
  rules : List Rule
  start : NonterminalId
  warnings : List Warning
deriving DecidableEq, Repr, Inhabited

namespace Vocabulary

/-- The symbols that every grammar has. -/
def reserved : Vocabulary where
  terminals := ["$eoi", "$epsilon", "$error"].map fun name => ⟨name, none, none⟩
  nonterminals := [⟨"$start", none⟩]

variable (v : Vocabulary)

def terminalName (t : TerminalId) : String :=
  (v.terminals[t]?.map (·.name)).getD ""

def nonterminalName (n : NonterminalId) : String :=
  (v.nonterminals[n]?.map (·.name)).getD ""

def symbolName : Symbol → String
  | .terminal t => v.terminalName t
  | .nonterminal n => v.nonterminalName n

def terminalNamed? (name : String) : Option TerminalId :=
  v.terminals.findIdx? fun t => t.name == name

def nonterminalNamed? (name : String) : Option NonterminalId :=
  v.nonterminals.findIdx? fun n => n.name == name

def terminalPrecedence (t : TerminalId) : Option Precedence :=
  v.terminals[t]?.bind (·.precedence)

/-- A rule's own precedence or else that of the last terminal on its right side. -/
def rulePrecedence (r : Rule) : Option Precedence :=
  match r.override with
  | some p => some p
  | none => (r.right.reverse.findSome? Symbol.terminal?).bind v.terminalPrecedence

/-- The left side, then each symbol of the right side, or an epsilon if there is none. -/
def productionText (left : NonterminalId) (right : List Symbol) : String :=
  let words := if right.isEmpty then ["ε"] else right.map v.symbolName
  " ".intercalate (v.nonterminalName left :: ":=" :: words)

def ruleText (r : Rule) : String :=
  v.productionText r.left r.right

end Vocabulary

namespace Grammar

variable (g : Grammar)

def rule (id : RuleId) : Rule := g.rules.getD id default

theorem rule_of_getElem? {g : Grammar} {id : RuleId} {r : Rule} (found : g.rules[id]? = some r) :
    g.rule id = r := by
  rw [rule, List.getD_eq_getElem?_getD, found, Option.getD_some]

theorem getElem?_rule {g : Grammar} {id : RuleId} (known : id < g.rules.length) :
    g.rules[id]? = some (g.rule id) := by
  rw [List.getElem?_eq_getElem known, rule, List.getD_eq_getElem?_getD,
    List.getElem?_eq_getElem known, Option.getD_some]

theorem rule_mem {g : Grammar} {id : RuleId} (known : id < g.rules.length) : g.rule id ∈ g.rules :=
  List.mem_of_getElem? (getElem?_rule known)

/-- The rules with a given left side, in ascending order. -/
def rulesOf (n : NonterminalId) : List RuleId :=
  (List.range g.rules.length).filter fun id => (g.rule id).left == n

end Grammar

end CanonicalLR
