import CanonicalLR.Grammar.Basic
import CanonicalLR.Text.Identifier

/-!
# Building a grammar by declarations

A builder takes one declaration at a time. It answers with the number or the precedence that the
declaration is given, or refuses it with a cause and stays as it was. Symbols are declared before
the rules that mention them, and a rule is told apart by its two sides: declaring it again gives a
warning and the number of the first one.
-/
namespace CanonicalLR

inductive Declaration where
  | terminal (name : String) (precedence : Option Precedence)
  | nonterminal (name : String)
  /-- Open a precedence level above all earlier ones, with the named associativity. -/
  | precedence (assoc : String)
  | typeTag (symbol : Symbol) (tag : String)
  | rule (left : NonterminalId) (right : List Symbol) (override : Option Precedence)
  | action (rule : Nat) (action : String)
  /-- Give a rule the precedence of the named terminal, which may be none. -/
  | precedenceOf (rule : Nat) (terminal : String)
  | start (symbol : NonterminalId)
deriving DecidableEq, Repr

/-- The answer to a declaration. Rules are numbered from 0 in the order of declaration. -/
inductive Declared where
  | terminal (t : TerminalId)
  | nonterminal (n : NonterminalId)
  | precedence (p : Precedence)
  | rule (index : Nat)
  | done
deriving DecidableEq, Repr

structure Builder extends Vocabulary where
  rules : List Rule
  start : Option NonterminalId
  /-- How many precedence levels are open. -/
  levels : Nat
  warnings : List Warning
deriving DecidableEq, Repr

namespace Builder

def initial : Builder where
  toVocabulary := .reserved
  rules := []
  start := none
  levels := 0
  warnings := []

variable (b : Builder)

/-- The nonterminals that rules may mention: all but the reserved one. -/
def usableNonterminal (n : NonterminalId) : Bool :=
  n != .start && n < b.nonterminals.length

/-- The symbols that may stand on a right side. The error token is one of them. -/
def usable : Symbol → Bool
  | .terminal t => t != .eoi && t != .epsilon && t < b.terminals.length
  | .nonterminal n => b.usableNonterminal n

def warn (w : Warning) : Builder :=
  { b with warnings := b.warnings ++ [w] }

def declareTerminal (name : String) (precedence : Option Precedence) :
    Except DefinitionError (Declared × Builder) :=
  if !isIdentifier name then .error (.invalidTerminalName name)
  else if b.terminals.any (·.name == name) then .error (.terminalTaken name)
  else .ok (.terminal b.terminals.length,
    { b with terminals := b.terminals ++ [⟨name, none, precedence⟩] })

def declareNonterminal (name : String) : Except DefinitionError (Declared × Builder) :=
  if !isIdentifier name then .error (.invalidNonterminalName name)
  else if b.nonterminals.any (·.name == name) then .error (.nonterminalTaken name)
  else .ok (.nonterminal b.nonterminals.length,
    { b with nonterminals := b.nonterminals ++ [⟨name, none⟩] })

def declarePrecedence (assoc : String) : Declared × Builder :=
  let opened := { b with levels := b.levels + 1 }
  match Assoc.ofName? assoc with
  | some a => (.precedence ⟨b.levels + 1, a⟩, opened)
  | none => (.precedence ⟨b.levels + 1, .unspecified⟩, opened.warn (.unknownAssoc assoc))

def declareTypeTag (symbol : Symbol) (tag : String) : Builder :=
  match symbol with
  | .terminal t =>
    { b with terminals := b.terminals.modify t fun x => { x with typeTag := some tag } }
  | .nonterminal n =>
    { b with nonterminals := b.nonterminals.modify n fun x => { x with typeTag := some tag } }

def declareRule (left : NonterminalId) (right : List Symbol) (override : Option Precedence) :
    Except DefinitionError (Declared × Builder) :=
  if !b.usableNonterminal left then .error .undeclaredLeftSide
  else if !right.all b.usable then .error .undeclaredRightSide
  else
    match b.rules.findIdx? fun r => r.left == left && r.right == right with
    | some index => .ok (.rule index, b.warn (.duplicateRule (b.productionText left right)))
    | none => .ok (.rule b.rules.length,
        { b with rules := b.rules ++ [⟨left, right, override, none⟩] })

def declareAction (rule : Nat) (action : String) : Builder :=
  { b with rules := b.rules.modify rule fun r => { r with action := some action } }

def declarePrecedenceOf (rule : Nat) (terminal : String) : Builder :=
  match b.terminals.find? (·.name == terminal) with
  | some t => { b with rules := b.rules.modify rule fun r => { r with override := t.precedence } }
  | none =>
    let text := (b.rules[rule]?.map b.ruleText).getD ""
    b.warn (.unknownPrecedenceTerminal terminal text)

def declare : Declaration → Except DefinitionError (Declared × Builder)
  | .terminal name precedence => b.declareTerminal name precedence
  | .nonterminal name => b.declareNonterminal name
  | .precedence assoc => .ok (b.declarePrecedence assoc)
  | .typeTag symbol tag => .ok (.done, b.declareTypeTag symbol tag)
  | .rule left right override => b.declareRule left right override
  | .action rule action => .ok (.done, b.declareAction rule action)
  | .precedenceOf rule terminal => .ok (.done, b.declarePrecedenceOf rule terminal)
  | .start symbol => .ok (.done, { b with start := some symbol })

/-- A refused declaration leaves the builder alone. -/
def attempt (d : Declaration) : Except DefinitionError Declared × Builder :=
  match b.declare d with
  | .ok (answer, b') => (.ok answer, b')
  | .error e => (.error e, b)

/-- Take every declaration, refused or not, and collect the answers. -/
def attemptAll (b : Builder) :
    List Declaration → List (Except DefinitionError Declared) × Builder
  | [] => ([], b)
  | d :: ds =>
    let (answer, b') := b.attempt d
    let (answers, last) := b'.attemptAll ds
    (answer :: answers, last)

/-- Take declarations up to the first that is refused. -/
def declareAll (b : Builder) : List Declaration → Except DefinitionError Builder
  | [] => .ok b
  | d :: ds => do
    let (_, b') ← b.declare d
    b'.declareAll ds

end Builder

end CanonicalLR
