import CanonicalLR.Automaton.Basic
import CanonicalLR.Item.Closure
import CanonicalLR.Discovery

/-!
# The canonical collection of item sets

Exploration starts from the item that begins every parse. Each state in turn is closed, and every
symbol after a marker leads to the state whose kernel is made of the items advanced over it. A
kernel that is met for the first time becomes the next state, so states are numbered breadth first.

An item whose marker is at the last number cannot be advanced by an addition that is checked, and
exploration then fails.

There are finitely many kernels: apart from the first, each is a nonempty set of items whose marker
is behind some symbol of a rule. This bounds the number of states to explore.
-/
namespace CanonicalLR

/-- The items with a symbol after the marker, advanced over it, in order. -/
def ItemSet.advances (g : Grammar) (items : ItemSet) : List (Symbol × Item) :=
  items.toList.filterMap fun i => (i.next? g).map fun x => (x, i.advance)

/-- Some item has a symbol after its marker, and the marker has the last number. -/
def ItemSet.overflows (g : Grammar) (items : ItemSet) : Bool :=
  items.toList.any fun i => (i.next? g).isSome && i.marker + 1 == markerNumbers

/-- The kernel of the state in which parsing begins. -/
def ItemSet.startKernel : ItemSet :=
  .ofList [{ rule := .accept, marker := 0, lookahead := .eoi }]

@[simp] theorem mem_startKernel {i : Item} :
    i ∈ ItemSet.startKernel ↔ i = { rule := .accept, marker := 0, lookahead := .eoi } := by
  simp [ItemSet.startKernel]

/-- The kernel of the state that reading a symbol leads to. -/
def successorKernel (advances : List (Symbol × Item)) (x : Symbol) : ItemSet :=
  .ofList <| advances.filterMap fun (y, i) => if y = x then some i else none

theorem mem_advances {g : Grammar} {items : ItemSet} {x : Symbol} {i : Item} :
    (x, i) ∈ items.advances g ↔ ∃ j ∈ items, j.next? g = some x ∧ j.advance = i := by
  simp only [ItemSet.advances, List.mem_filterMap, Option.map_eq_some_iff, Prod.mk.injEq,
    OrderedSet.mem_toList]
  constructor
  · rintro ⟨j, member, y, next, rfl, advanced⟩
    exact ⟨j, member, next, advanced⟩
  · rintro ⟨j, member, next, advanced⟩
    exact ⟨j, member, x, next, rfl, advanced⟩

@[simp] theorem mem_successorKernel {advances : List (Symbol × Item)} {x : Symbol} {i : Item} :
    i ∈ successorKernel advances x ↔ (x, i) ∈ advances := by
  simp only [successorKernel, OrderedSet.mem_ofList, List.mem_filterMap]
  constructor
  · rintro ⟨⟨y, j⟩, member, selected⟩
    split at selected
    next equal =>
      cases selected
      exact equal ▸ member
    next => cases selected
  · intro member
    exact ⟨(x, i), member, by simp⟩

namespace Grammar

variable (g : Grammar)

/-- The symbols on right sides, in order of first appearance. -/
def rightSymbols : List Symbol :=
  discoverAll [] (g.rules.flatMap (·.right))

/-- One state for the first kernel, and one for each nonempty set of items with the marker behind a
symbol: two to the number of such items. -/
def maxStates : Nat :=
  Nat.pow 2 ((g.rules.flatMap (·.right)).length * g.terminals.length)

end Grammar

/-- The kernels that have been met, in the order of their state numbers, and the states among them
that have been explored, which are the first ones. -/
structure Exploration where
  kernels : List ItemSet
  states : List State
  warnings : List Warning

/-- The kernels that have been met when some moves of a state are known. -/
structure Departures where
  kernels : List ItemSet
  moves : List (Symbol × StateId)
  warnings : List Warning

namespace Departures

/-- Record a move. A symbol keeps its first target, and another one is reported. -/
def connect (d : Departures) (g : Grammar) (source : StateId) (x : Symbol) (target : StateId) :
    Departures :=
  match d.moves.lookup x with
  | none => { d with moves := d.moves ++ [(x, target)] }
  | some kept =>
    if kept = target then d
    else
      let warning := .gotoConflict source (g.symbolName x) kept target
      { d with warnings := d.warnings ++ [warning] }

/-- Follow a symbol, if the state has an item that can be advanced over it. -/
def follow (g : Grammar) (source : StateId) (advances : List (Symbol × Item)) (d : Departures)
    (x : Symbol) : Departures :=
  let kernel := successorKernel advances x
  if kernel.isEmpty then d
  else
    let kernels := discover d.kernels kernel
    { d with kernels := kernels }.connect g source x (kernels.idxOf kernel)

end Departures

namespace Exploration

def initial : Exploration where
  kernels := [.startKernel]
  states := []
  warnings := []

/-- Explore the state of the next kernel. -/
def visit (p : Predictor) (symbols : List Symbol) (e : Exploration) (kernel : ItemSet) :
    Exploration :=
  let items := p.closure kernel
  let source := e.states.length
  let departures := symbols.foldl
    (Departures.follow p.grammar source (items.advances p.grammar))
    { kernels := e.kernels, moves := [], warnings := e.warnings }
  { kernels := departures.kernels
    states := e.states ++ [{ items := items, moves := departures.moves }]
    warnings := departures.warnings }

/-- Explore kernels until none is left, or so many states. -/
def complete (e : Exploration) (p : Predictor) (symbols : List Symbol) : Nat → Exploration
  | 0 => e
  | limit + 1 =>
    match e.kernels[e.states.length]? with
    | none => e
    | some kernel => (e.visit p symbols kernel).complete p symbols limit

/-- As `complete`, but without a result if a marker has no next number. -/
def completeChecked? (e : Exploration) (p : Predictor) (symbols : List Symbol) :
    Nat → Option Exploration
  | 0 => some e
  | limit + 1 =>
    match e.kernels[e.states.length]? with
    | none => some e
    | some kernel =>
      if (p.closure kernel).overflows p.grammar then none
      else (e.visit p symbols kernel).completeChecked? p symbols limit

end Exploration

namespace Automaton

def ofGrammar (g : Grammar) : Automaton :=
  let e := Exploration.initial.complete (.ofGrammar g) g.rightSymbols g.maxStates
  { states := e.states, warnings := e.warnings }

/-- The automaton, where the additions that move markers are checked. -/
def ofGrammarChecked? (g : Grammar) : Option Automaton :=
  (Exploration.initial.completeChecked? (.ofGrammar g) g.rightSymbols g.maxStates).map fun e =>
    { states := e.states, warnings := e.warnings }

end Automaton

end CanonicalLR
