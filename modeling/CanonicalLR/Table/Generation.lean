import CanonicalLR.Automaton.Exploration
import CanonicalLR.Table.Resolution

/-!
# Parse tables of automata

The items of a state tell what it allows on each terminal: a terminal after a marker is shifted, and
a complete item is reduced on its lookahead, where completing rule 0 means to accept and is allowed
on the end of the input only. The moves of the state tell where shifts and gotos lead.

The grammar need not be the one the automaton was made of, as long as it has the rules and terminals
that the items mention; then the state may lack a move that its items ask for.

A grammar is taken to its table by way of its automaton. Whether the additions that move markers are
checked is up to how the program is built, so there are two ways to do so.
-/
namespace CanonicalLR

namespace State

variable (g : Grammar) (state : State)

/-- The terminals after markers, in the order of the items. -/
def shiftable : List TerminalId :=
  state.items.toList.filterMap fun i => (i.next? g).bind Symbol.terminal?

/-- The complete items as lookaheads and rules, in the order of the items. -/
def reducible : List (TerminalId × RuleId) :=
  state.items.toList.filterMap fun i =>
    if i.isComplete g && (i.rule != .accept || i.lookahead == .eoi) then some (i.lookahead, i.rule)
    else none

/-- Where the moves of a state lead on a terminal; there must be one such state. -/
def shiftTarget (id : StateId) (t : TerminalId) : Except TableError StateId :=
  match state.moves.filterMap fun (x, s) => if x = .terminal t then some s else none with
  | [] => .error (.missingTransition id (g.terminalName t))
  | first :: others =>
    match others.find? (· != first) with
    | none => .ok first
    | some second => .error (.multipleShifts id (g.terminalName t) first second)

/-- What a state allows on a terminal, given the shifts and reductions of all its items. -/
def candidates (shifts : List (TerminalId × StateId)) (reduces : List (TerminalId × RuleId))
    (t : TerminalId) : Candidates where
  shift := shifts.lookup t
  reduces := .ofList (reduces.filterMap fun (u, rule) => if u = t then some rule else none)

/-- The action on each terminal that is shifted or reduced on, in ascending order. -/
def settle (id : StateId) (shiftable : List TerminalId) (reduces : List (TerminalId × RuleId)) :
    Except TableError (List (TerminalId × Resolution)) := do
  let shifts ← shiftable.mapM fun t => do return (t, ← state.shiftTarget g id t)
  let terminals : OrderedSet TerminalId := .ofList (shifts.map (·.1) ++ reduces.map (·.1))
  terminals.toList.mapM fun t => do
    return (t, ← Resolution.ofCandidates g id t (candidates shifts reduces t))

/-- The action on each terminal for which some item asks, in ascending order. -/
def resolutions (id : StateId) : Except TableError (List (TerminalId × Resolution)) :=
  state.settle g id (state.shiftable g) (state.reducible g)

def gotos : List (NonterminalId × StateId) :=
  state.moves.filterMap fun (x, s) => x.nonterminal?.map fun n => (n, s)

def row (resolved : List (TerminalId × Resolution)) : Row where
  actions := resolved.map fun (t, r) => (t, r.action)
  gotos := state.gotos

end State

namespace Table

/-- The table of the states with what is settled in them. -/
def ofRows (rows : List (State × List (TerminalId × Resolution))) : Table :=
  let resolutions := rows.flatMap fun (_, resolved) => resolved.map (·.2)
  let conflicts := Conflicts.total (resolutions.map (·.conflicts))
  { rows := rows.map fun (state, resolved) => state.row resolved
    conflicts := conflicts
    warnings := resolutions.flatMap (·.warnings) ++ conflicts.warnings }

def generate (g : Grammar) (a : Automaton) : Except TableError Table := do
  let rows ← a.states.zipIdx.mapM fun (state, id) => do
    return (state, ← state.resolutions g id)
  return ofRows rows

end Table

structure Construction where
  automaton : Automaton
  table : Table
  /-- What the grammar, the automaton and the table warn of, in this order. -/
  warnings : List Warning

inductive ConstructionError where
  | markerOverflow
  | table (cause : TableError)
deriving DecidableEq, Repr

namespace Grammar

variable (g : Grammar)

def constructFrom (automaton : Automaton) : Except TableError Construction := do
  let table ← Table.generate g automaton
  return {
    automaton := automaton
    table := table
    warnings := g.warnings ++ automaton.warnings ++ table.warnings }

def construct : Except TableError Construction := g.constructFrom (.ofGrammar g)

/-- As `construct`, where a marker that has no next number is an error. -/
def constructChecked : Except ConstructionError Construction :=
  match Automaton.ofGrammarChecked? g with
  | none => .error .markerOverflow
  | some automaton => (g.constructFrom automaton).mapError .table

end Grammar

end CanonicalLR
