import CanonicalLR.Item.Basic

/-!
# LR(1) automata

A state is a closed item set with its moves: the symbols that can be read in it, each with the state
that reading it leads to. States are numbered by their positions, and parsing begins in state 0.
-/
namespace CanonicalLR

structure State where
  items : ItemSet
  moves : List (Symbol × StateId)

structure Edge where
  source : StateId
  symbol : Symbol
  target : StateId
deriving DecidableEq, Repr

structure Automaton where
  states : List State
  warnings : List Warning

namespace Automaton

variable (a : Automaton)

def size : Nat := a.states.length

def isEmpty : Bool := a.states.isEmpty

def goto (s : StateId) (x : Symbol) : Option StateId :=
  a.states[s]?.bind fun state => state.moves.lookup x

/-- All moves, state by state. -/
def edges : List Edge :=
  a.states.zipIdx.flatMap fun (state, source) => state.moves.map fun (x, target) =>
    { source := source, symbol := x, target := target }

/-- The state that is reached by reading a string, if every move on the way exists. -/
def walk? (s : StateId) : List Symbol → Option StateId
  | [] => some s
  | x :: xs => (a.goto s x).bind fun next => walk? next xs

theorem walk?_append (a : Automaton) (s : StateId) (xs ys : List Symbol) :
    a.walk? s (xs ++ ys) = (a.walk? s xs).bind fun t => a.walk? t ys := by
  induction xs generalizing s with
  | nil => rfl
  | cons x xs ih =>
    simp only [List.cons_append, walk?]
    cases a.goto s x with
    | none => rfl
    | some next => exact ih next

theorem walk?_concat (a : Automaton) (s : StateId) (xs : List Symbol) (x : Symbol) :
    a.walk? s (xs ++ [x]) = (a.walk? s xs).bind fun t => a.goto t x := by
  simp only [walk?_append, walk?, Option.bind_fun_some]

/-- The states after each prefix of a string, the empty one excepted. -/
def trace (s : StateId) (xs : List Symbol) : List (Option StateId) :=
  (List.range xs.length).map fun n => a.walk? s (xs.take (n + 1))

end Automaton

end CanonicalLR
