import CanonicalLR.Automaton.Exploration

/-!
# The worklists behind the canonical collection

The states of an automaton are made from a queue of numbers. A kernel that is met for the first time
is closed, gets the next number, and its number is put at the end of the queue. In each turn the
number in front is taken away and the symbols after the markers of its state are followed. A kernel
is closed by a queue too, which has the items that have not yet been asked what they predict.

Nothing in this bounds the number of turns: a turn may put more into a queue than it takes away.
-/
namespace CanonicalLR

/-! ### Closing a kernel -/

/-- The items of a closure that have been met, and those among them that wait for their turn. -/
structure ItemQueue where
  items : ItemSet
  pending : List Item
deriving DecidableEq

namespace Predictor

/-- What an item predicts: the rules of the nonterminal after its marker, each with each lookahead.
-/
def predicts (p : Predictor) (i : Item) : List Item :=
  match i.next? p.grammar with
  | some (.nonterminal n) => (p.grammar.rulesOf n).flatMap fun rule =>
    (p.first.lookaheads (i.afterNext p.grammar) i.lookahead).toList.map fun lookahead =>
      { rule := rule, marker := 0, lookahead := lookahead }
  | _ => []

end Predictor

namespace ItemQueue

variable (q : ItemQueue)

/-- An item waits for its turn when it is met for the first time. -/
def enter (i : Item) : ItemQueue :=
  if i ∈ q.items then q else { items := q.items.insert i, pending := q.pending ++ [i] }

/-- The queue of items that are supplied in this order, be it that some are supplied again. -/
def ofItems (items : List Item) : ItemQueue :=
  items.foldl enter { items := ∅, pending := [] }

def start (kernel : ItemSet) : ItemQueue :=
  kernel.toList.foldl enter { items := ∅, pending := [] }

def turn? (p : Predictor) : Option ItemQueue :=
  match q.pending with
  | [] => none
  | i :: rest => some ((p.predicts i).foldl enter { q with pending := rest })

/-- Turns are taken until no item is left in the queue, and these items have been met then. -/
inductive Empties (p : Predictor) : ItemQueue → ItemSet → Prop where
  | done {q : ItemQueue} (empty : q.pending = []) : Empties p q q.items
  | turn {q next : ItemQueue} {items : ItemSet} (turned : q.turn? p = some next)
      (rest : Empties p next items) : Empties p q items

end ItemQueue

/-! ### Finding the states -/

/-- The tables that are filled while an automaton is made. -/
structure Worklist where
  states : List ItemSet
  kernels : List (ItemSet × StateId)
  edges : List Edge
  pending : List StateId
  warnings : List Warning
deriving DecidableEq

namespace Worklist

variable (p : Predictor) (w : Worklist)

/-- Close a kernel and give it the next number. -/
def addState (kernel : ItemSet) : Worklist :=
  { w with
    states := w.states ++ [p.closure kernel]
    kernels := w.kernels ++ [(kernel, w.states.length)]
    pending := w.pending ++ [w.states.length] }

def start : Worklist :=
  addState p { states := [], kernels := [], edges := [], pending := [], warnings := [] }
    .startKernel

def target? (source : StateId) (x : Symbol) : Option StateId :=
  (w.edges.find? fun e => e.source = source ∧ e.symbol = x).map (·.target)

/-- Record an edge. A second one for the same symbol is only reported, if its target is another. -/
def addEdge (source : StateId) (x : Symbol) (target : StateId) : Worklist :=
  match w.target? source x with
  | none => { w with edges := w.edges ++ [⟨source, x, target⟩] }
  | some kept =>
    if kept = target then w
    else
      let warning := .gotoConflict source (p.grammar.symbolName x) kept target
      { w with warnings := w.warnings ++ [warning] }

/-- Follow a symbol, if some item can be advanced over it, to the state that has this kernel. -/
def follow (source : StateId) (advances : List (Symbol × Item)) (x : Symbol) : Worklist :=
  let kernel := successorKernel advances x
  if kernel.isEmpty then w
  else
    match w.kernels.lookup kernel with
    | some target => w.addEdge p source x target
    | none => (w.addState p kernel).addEdge p source x w.states.length

/-- Take the number in front of the queue and follow each symbol from its state. -/
def turn? (symbols : List Symbol) : Option (StateId × Worklist) :=
  match w.pending with
  | [] => none
  | current :: rest => w.states[current]?.map fun items =>
    let advances := items.advances p.grammar
    (current, symbols.foldl (fun w x => w.follow p current advances x) { w with pending := rest })

/-- Turns lead from one stage to another and take these numbers from the queue. -/
inductive Runs (p : Predictor) (symbols : List Symbol) :
    Worklist → List StateId → Worklist → Prop where
  | stay {w : Worklist} : Runs p symbols w [] w
  | turn {w next last : Worklist} {s : StateId} {popped : List StateId}
      (turned : w.turn? p symbols = some (s, next)) (rest : Runs p symbols next popped last) :
      Runs p symbols w (s :: popped) last

end Worklist

end CanonicalLR
