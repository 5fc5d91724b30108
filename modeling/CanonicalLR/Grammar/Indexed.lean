import CanonicalLR.Grammar.Definition

/-!
# Building large grammars

A builder that finds a rule without looking at all the others: its rules are in an array, and each
nonterminal has a list of the positions of the rules with that left side. The rest of the work is
left to a builder without rules. When a grammar is finished, the kept rules are numbered at once.
-/
namespace CanonicalLR

structure IndexedBuilder where
  /-- All but the rules. -/
  base : Builder
  rules : Array Rule
  /-- For each left side the positions of its rules, the last one first. -/
  positions : Array (List Nat)

namespace IndexedBuilder

def initial : IndexedBuilder where
  base := .initial
  rules := #[]
  positions := .replicate Builder.initial.nonterminals.length []

variable (x : IndexedBuilder)

/-- The builder with the rules in their place. -/
def builder : Builder := { x.base with rules := x.rules.toList }

def positionsOf (n : NonterminalId) : List Nat := x.positions.getD n []

def position? (left : NonterminalId) (right : List Symbol) : Option Nat :=
  (x.positionsOf left).find? fun i => (x.rules.getD i default).right == right

def addRule (r : Rule) : IndexedBuilder :=
  -- The position is taken before the array is changed, so that this needs no copy of it.
  let positions := x.positions.modify r.left (x.rules.size :: ·)
  { x with rules := x.rules.push r, positions := positions }

def modifyRule (index : Nat) (f : Rule → Rule) : IndexedBuilder :=
  { x with rules := x.rules.modify index f }

/-- Exchange all but the rules, and make room for the rules of new nonterminals. -/
def rebase (base : Builder) : IndexedBuilder :=
  let missing := base.nonterminals.length - x.positions.size
  { x with base := base, positions := x.positions ++ Array.replicate missing [] }

def attemptRule (left : NonterminalId) (right : List Symbol) (override : Option Precedence) :
    Except DefinitionError Declared × IndexedBuilder :=
  if !x.base.usableNonterminal left then (.error .undeclaredLeftSide, x)
  else if !right.all x.base.usable then (.error .undeclaredRightSide, x)
  else
    match x.position? left right with
    | some index => (.ok (.rule index),
        x.rebase (x.base.warn (.duplicateRule (x.base.productionText left right))))
    | none => (.ok (.rule x.rules.size), x.addRule ⟨left, right, override, none⟩)

def declarePrecedenceOf (rule : Nat) (terminal : String) : IndexedBuilder :=
  match x.base.terminals.find? (·.name == terminal) with
  | some t => x.modifyRule rule fun r => { r with override := t.precedence }
  | none =>
    let text := (x.rules[rule]?.map x.base.ruleText).getD ""
    x.rebase (x.base.warn (.unknownPrecedenceTerminal terminal text))

def attempt : Declaration → Except DefinitionError Declared × IndexedBuilder
  | .rule left right override => x.attemptRule left right override
  | .action rule action => (.ok .done, x.modifyRule rule fun r => { r with action := some action })
  | .precedenceOf rule terminal => (.ok .done, x.declarePrecedenceOf rule terminal)
  | d =>
    let (answer, base) := x.base.attempt d
    (answer, x.rebase base)

/-- Take every declaration, refused or not, and collect the answers. -/
def attemptAll (x : IndexedBuilder) :
    List Declaration → List (Except DefinitionError Declared) × IndexedBuilder
  | [] => ([], x)
  | d :: ds =>
    let (answer, x') := x.attempt d
    let (answers, last) := x'.attemptAll ds
    (answer :: answers, last)

/-- The grammar of the declared rules that can be reached from a start symbol. -/
def grammar (start : NonterminalId) (declared : List Rule) : Grammar :=
  let reached := reachable declared start
  let rules := numberedRules (.accepting start) (declared.filter fun r => r.left ∈ reached)
  let dropped := declared.filter fun r => r.left ∉ reached
  { x.base with
    rules := rules
    start := start
    warnings := x.base.warnings ++ x.base.droppedWarnings dropped ++
      x.base.emptyWarnings reached rules }

def finish : Except DefinitionError Grammar :=
  let declared := x.rules.toList
  match x.base.start <|> declared.head?.map (·.left) with
  | none => .error .noRules
  | some start =>
    if start < x.base.nonterminals.length then .ok (x.grammar start declared)
    else .error .undeclaredStart

end IndexedBuilder

end CanonicalLR
