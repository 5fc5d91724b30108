import CanonicalLR.Table.Basic
import CanonicalLR.OrderedSet

/-!
# Settling conflicts

The items of a state may allow several actions on one terminal: a shift, and reductions by some
rules. Of the reductions the lowest rule wins. Between it and a shift the higher precedence level
wins, the terminal's for the shift and the rule's for the reduction; on equal levels the terminal's
associativity decides, and a terminal that has none is shifted.
-/
namespace CanonicalLR

/-- What the items of a state allow on one terminal. Accepting counts as a reduction by rule 0. -/
structure Candidates where
  shift : Option StateId
  reduces : OrderedSet RuleId
deriving DecidableEq

/-- The action that wins, with the conflicts it was in. -/
structure Resolution where
  action : Action
  conflicts : Conflicts
  warnings : List Warning
deriving DecidableEq, Repr

namespace Resolution

def uncontested (action : Action) : Resolution := ⟨action, .none, []⟩

/-- A decision by unequal levels, reported if only one side declares a precedence. -/
def byLevel (g : Grammar) (state : StateId) (terminal : TerminalId) (rule : RuleId)
    (oneSided : Bool) (action : Action) : Resolution where
  action := action
  conflicts := .none
  warnings :=
    if oneSided then
      [.oneSidedPrecedence state (g.terminalName terminal) (g.ruleText (g.rule rule)) action.kind]
    else []

/-- A decision on equal levels, which counts as a conflict. -/
def byAssoc (g : Grammar) (state : StateId) (terminal : TerminalId) (target : StateId)
    (rule : RuleId) : Assoc → Resolution
  | .left => ⟨.reduce rule, ⟨1, 0⟩, []⟩
  | .right => ⟨.shift target, ⟨1, 0⟩, []⟩
  | .nonassoc => ⟨.shift target, ⟨1, 0⟩, [.nonassocConflict state (g.terminalName terminal)]⟩
  | .unspecified => ⟨.shift target, ⟨1, 0⟩, [.unspecifiedAssoc state (g.terminalName terminal)]⟩

/-- Settle a shift against the reduction by a rule. -/
def shiftOrReduce (g : Grammar) (state : StateId) (terminal : TerminalId) (target : StateId)
    (rule : RuleId) : Resolution :=
  let shiftPrecedence := g.terminalPrecedence terminal
  let rulePrecedence := g.rulePrecedence (g.rule rule)
  let oneSided := shiftPrecedence.isNone || rulePrecedence.isNone
  if Precedence.level rulePrecedence < Precedence.level shiftPrecedence then
    byLevel g state terminal rule oneSided (.shift target)
  else if Precedence.level shiftPrecedence < Precedence.level rulePrecedence then
    byLevel g state terminal rule oneSided (.reduce rule)
  else
    byAssoc g state terminal target rule ((shiftPrecedence.map (·.assoc)).getD .unspecified)

/-- Count the reductions that lose against the lowest one. -/
def outdoing (r : Resolution) (losers : Nat) : Resolution :=
  { r with conflicts := r.conflicts.add ⟨0, losers⟩ }

def ofCandidates (g : Grammar) (state : StateId) (terminal : TerminalId) (c : Candidates) :
    Except TableError Resolution :=
  match c.shift, c.reduces.toList with
  | none, [] => .error (.emptyActions state (g.terminalName terminal))
  | some target, [] => .ok (uncontested (.shift target))
  | none, rule :: losers =>
    let action : Action := if rule = .accept then .accept else .reduce rule
    .ok ((uncontested action).outdoing losers.length)
  | some target, rule :: losers =>
    if rule = .accept then .error (.shiftAcceptConflict state (g.terminalName terminal))
    else .ok ((shiftOrReduce g state terminal target rule).outdoing losers.length)

end Resolution

end CanonicalLR
