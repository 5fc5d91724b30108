import CanonicalLR.Action

/-!
# Warnings and errors

A warning tells of something that was put up with; an error ends the work. Each is a cause with
the names it is about, and `message` words it.
-/
namespace CanonicalLR

inductive Warning where
  | unreachableRules (rules : List String)
  | nonterminalWithoutRules (name : String)
  | unknownAssoc (name : String)
  | unknownPrecedenceTerminal (name rule : String)
  | duplicateRule (rule : String)
  | unspecifiedAssoc (state : StateId) (terminal : String)
  | oneSidedPrecedence (state : StateId) (terminal rule : String) (resolved : ActionKind)
  | nonassocConflict (state : StateId) (terminal : String)
  | gotoConflict (state : StateId) (symbol : String) (kept discarded : StateId)
  | conflicts (shiftReduce reduceReduce : Nat)
deriving DecidableEq, Repr, Inhabited

/-- Why a declaration is refused, or a grammar cannot be finished. -/
inductive DefinitionError where
  | invalidTerminalName (name : String)
  | terminalTaken (name : String)
  | invalidNonterminalName (name : String)
  | nonterminalTaken (name : String)
  | undeclaredLeftSide
  | undeclaredRightSide
  | noRules
  | undeclaredStart
deriving DecidableEq, Repr, Inhabited

/-- Why an automaton gives no parse table for a grammar. -/
inductive TableError where
  | multipleShifts (state : StateId) (terminal : String) (first second : StateId)
  | missingTransition (state : StateId) (terminal : String)
  | emptyActions (state : StateId) (terminal : String)
  | shiftAcceptConflict (state : StateId) (terminal : String)
deriving DecidableEq, Repr, Inhabited

/-- Why a run of the parser ends without accepting. -/
inductive ParseError where
  | unexpectedToken (state : StateId) (token : String)
  | missingGoto (state : StateId) (nonterminal : String)
  | emptyStack
deriving DecidableEq, Repr, Inhabited

namespace Warning

def message : Warning → String
  | unreachableRules rules =>
    s!"{rules.length} production rule(s) are not reachable from the start symbol " ++
      "and were removed: " ++ ", ".intercalate rules
  | nonterminalWithoutRules name =>
    s!"The nonterminal `{name}' has no associated production rule"
  | unknownAssoc name =>
    s!"unknown associativity `{name}', defaulting to `none'"
  | unknownPrecedenceTerminal name rule =>
    s!"unknown precedence terminal `{name}' referenced by `{rule}', using the default precedence"
  | duplicateRule rule =>
    s!"duplicate production rule ignored: `{rule}'"
  | unspecifiedAssoc state terminal =>
    s!"state {state.text}: shift/reduce conflict on `{terminal}' with unspecified " ++
      "associativity, resolved as shift"
  | oneSidedPrecedence state terminal rule resolved =>
    s!"state {state.text}: shift/reduce conflict on `{terminal}' against `{rule}' decided by " ++
      s!"a precedence declared on one side only, resolved as {resolved.name}"
  | nonassocConflict state terminal =>
    s!"state {state.text}: nonassociative `{terminal}' used associatively, resolved as shift"
  | gotoConflict state symbol kept discarded =>
    s!"state {state.text}: goto on `{symbol}' computed as both state {kept.text} and " ++
      s!"state {discarded.text}, keeping {kept.text}"
  | conflicts shiftReduce reduceReduce =>
    s!"{shiftReduce} shift/reduce conflict(s) and {reduceReduce} reduce/reduce conflict(s) " ++
      "were resolved"

end Warning

namespace DefinitionError

def message : DefinitionError → String
  | invalidTerminalName name => s!"Other error: incorrect token name: `{name}'"
  | terminalTaken name => s!"Other error: The terminal `{name}' has already been declared"
  | invalidNonterminalName name => s!"Other error: incorrect symbol name: `{name}'"
  | nonterminalTaken name => s!"Other error: The nonterminal `{name}' has already been declared"
  | undeclaredLeftSide => "Other error: undeclared left-hand side of production rule"
  | undeclaredRightSide => "Other error: undeclared or reserved symbol in production rule"
  | noRules => "Other error: empty production rules"
  | undeclaredStart => "Other error: undeclared start symbol"

end DefinitionError

namespace TableError

def message : TableError → String
  | multipleShifts state terminal first second =>
    s!"state {state.text}: multiple shift targets on `{terminal}' " ++
      s!"(state {first.text} and state {second.text})"
  | missingTransition state terminal =>
    s!"state {state.text}: no transition is recorded for the shift on `{terminal}'"
  | emptyActions state terminal =>
    s!"state {state.text}: there is no actions on `{terminal}'"
  | shiftAcceptConflict state terminal =>
    s!"state {state.text}: detected shift/accept conflict on `{terminal}'"

end TableError

namespace ParseError

def message : ParseError → String
  | unexpectedToken state token => s!"unexpected token `{token}' in state {state.text}"
  | missingGoto state nonterminal => s!"no goto from state {state.text} on `{nonterminal}'"
  | emptyStack => "empty state stack"

end ParseError

end CanonicalLR
