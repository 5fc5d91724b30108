import CanonicalLR.Discovery.Numbering
import CanonicalLR.Table.Generation

/-!
# Tables of large automata

The way from a grammar to its table, for right sides and automata of many thousand symbols and
states: the symbol after a marker is found in an array, and a kernel that has been met is found by a
key. What is done is otherwise what exploration and table generation do.
-/
namespace CanonicalLR

/-- The right sides of the rules, in arrays. -/
def Grammar.rightSides (g : Grammar) : Array (Array Symbol) :=
  (g.rules.map fun r => r.right.toArray).toArray

def Item.nextIn? (rightSides : Array (Array Symbol)) (i : Item) : Option Symbol :=
  rightSides[i.rule]?.bind (·[i.marker]?)

/-- A number by which kernels are filed. It depends on the first item alone. -/
def ItemSet.key (s : ItemSet) : Nat :=
  match s.toList with
  | [] => 0
  | i :: _ => 31 * (i.rule + 31 * i.lookahead) + i.marker

section Lookup

-- In what follows the symbol after a marker is given by a lookup.
variable (next : Item → Option Symbol)

def ItemSet.advancesBy (items : ItemSet) : List (Symbol × Item) :=
  items.toList.filterMap fun i => (next i).map fun x => (x, i.advance)

def Predictor.closureBy (p : Predictor) (items : ItemSet) : ItemSet :=
  let none := List.replicate p.grammar.nonterminals.length (∅ : TerminalSet)
  let predicted := items.toList.foldl (fun sets i => p.predictOn sets i (next i)) none
  items ∪ .ofList (p.predictedItems (Flow.solve p.flows predicted))

def State.shiftableBy (state : State) : List TerminalId :=
  state.items.toList.filterMap fun i => (next i).bind Symbol.terminal?

def State.reducibleBy (state : State) : List (TerminalId × RuleId) :=
  state.items.toList.filterMap fun i =>
    if (next i).isNone && (i.rule != .accept || i.lookahead == .eoi) then
      some (i.lookahead, i.rule)
    else none

def Table.generateBy (g : Grammar) (a : Automaton) : Except TableError Table := do
  let rows ← a.states.zipIdx.mapM fun (state, id) => do
    return (state, ← state.settle g id (state.shiftableBy next) (state.reducibleBy next))
  return ofRows rows

end Lookup

structure IndexedExploration where
  kernels : Numbering ItemSet ItemSet.key
  states : Array State
  warnings : List Warning

structure IndexedDepartures where
  kernels : Numbering ItemSet ItemSet.key
  /-- All but the kernels. -/
  base : Departures

namespace IndexedDepartures

def follow (g : Grammar) (source : StateId) (advances : List (Symbol × Item))
    (d : IndexedDepartures) (x : Symbol) : IndexedDepartures :=
  let kernel := successorKernel advances x
  if kernel.isEmpty then d
  else
    let (target, kernels) := d.kernels.number kernel
    { kernels := kernels, base := d.base.connect g source x target }

end IndexedDepartures

namespace IndexedExploration

def initial (files : Nat) : IndexedExploration where
  kernels := ((Numbering.empty files).number .startKernel).2
  states := #[]
  warnings := []

def visit (next : Item → Option Symbol) (p : Predictor) (symbols : List Symbol)
    (e : IndexedExploration) (kernel : ItemSet) : IndexedExploration :=
  let items := p.closureBy next kernel
  let source := e.states.size
  let departures := symbols.foldl
    (IndexedDepartures.follow p.grammar source (items.advancesBy next))
    { kernels := e.kernels, base := { kernels := [], moves := [], warnings := e.warnings } }
  { kernels := departures.kernels
    states := e.states.push { items := items, moves := departures.base.moves }
    warnings := departures.base.warnings }

def complete (next : Item → Option Symbol) (p : Predictor) (symbols : List Symbol)
    (e : IndexedExploration) : Nat → IndexedExploration
  | 0 => e
  | limit + 1 =>
    match e.kernels.elements[e.states.size]? with
    | none => e
    | some kernel => (e.visit next p symbols kernel).complete next p symbols limit

end IndexedExploration

def Automaton.ofGrammarBy (next : Item → Option Symbol) (g : Grammar) : Automaton :=
  let files := g.rules.foldl (fun length r => length + r.right.length) 0
  let start := IndexedExploration.initial files
  let e := start.complete next (.ofGrammar g) g.rightSymbols g.maxStates
  { states := e.states.toList, warnings := e.warnings }

def Grammar.constructIndexed (g : Grammar) : Except TableError Construction := do
  let rightSides := g.rightSides
  let automaton := Automaton.ofGrammarBy (·.nextIn? rightSides) g
  let table ← Table.generateBy (·.nextIn? rightSides) g automaton
  return {
    automaton := automaton
    table := table
    warnings := g.warnings ++ automaton.warnings ++ table.warnings }

end CanonicalLR
