import CanonicalLR.TerminalSet.Storage

/-!
# Registers of terminal sets

A bank of terminal sets that commands read and change, one register at a time. Registers are empty
until a command fills them.
-/
namespace CanonicalLR

/-- What to do with a register. A `source` is the number of another register, or of the same. -/
inductive SetCommand where
  | insert (t : TerminalId)
  | remove (t : TerminalId)
  | contains (t : TerminalId)
  /-- Replace the register by the set of the listed terminals. -/
  | collect (ts : List TerminalId)
  /-- Insert the listed terminals. -/
  | extend (ts : List TerminalId)
  | copy (source : Nat)
  | union (source : Nat)
  | equal (source : Nat)
deriving DecidableEq, Repr

namespace NumberStore

variable {σ : Type} (ops : NumberStore σ)

def register (r : List σ) (i : Nat) : σ := r.getD i ops.empty

def put (r : List σ) (i : Nat) (s : σ) : List σ :=
  (r ++ List.replicate (i + 1 - r.length) ops.empty).set i s

theorem register_put (r : List σ) (i j : Nat) (s : σ) :
    ops.register (ops.put r i s) j = if i = j then s else ops.register r j := by
  simp only [register, put, List.getD_eq_getElem?_getD, List.getElem?_set]
  split
  next equal =>
    have inside : i < (r ++ List.replicate (i + 1 - r.length) ops.empty).length := by
      simp only [List.length_append, List.length_replicate]
      omega
    rw [if_pos inside]
    rfl
  next =>
    rw [List.getElem?_append]
    split
    · rfl
    next beyond =>
      -- The registers that are added, like those that are missing, are empty.
      rw [List.getElem?_eq_none (Nat.not_lt.mp beyond), List.getElem?_replicate]
      split <;> rfl

/-- Carry out a command on register `i`; commands that ask or change something answer. -/
def execute (r : List σ) (i : Nat) : SetCommand → Option Bool × List σ
  | .insert t => (ops.insert (ops.register r i) t).map some (ops.put r i)
  | .remove t => (ops.remove (ops.register r i) t).map some (ops.put r i)
  | .contains t => (some (ops.contains (ops.register r i) t), r)
  | .collect ts => (none, ops.put r i (ops.collect ts))
  | .extend ts => (none, ops.put r i (ops.insertAll (ops.register r i) ts))
  | .copy source => (none, ops.put r i (ops.register r source))
  | .union source =>
    (ops.joining (ops.register r i) (ops.register r source)).map some (ops.put r i)
  | .equal source => (some (ops.equal (ops.register r i) (ops.register r source)), r)

/-- Carry out commands in order. Each answer comes with the register it left behind. -/
def run (r : List σ) : List (Nat × SetCommand) → List (Option Bool × σ)
  | [] => []
  | (i, c) :: rest =>
    let (answer, r') := ops.execute r i c
    (answer, ops.register r' i) :: run r' rest

theorem run_cons (r : List σ) (i : Nat) (c : SetCommand) (rest : List (Nat × SetCommand)) :
    ops.run r ((i, c) :: rest) =
      ((ops.execute r i c).1, ops.register (ops.execute r i c).2 i) ::
        ops.run (ops.execute r i c).2 rest := rfl

end NumberStore

abbrev SetRegisters := List TerminalSet

namespace SetRegisters

def run (r : SetRegisters) (commands : List (Nat × SetCommand)) :
    List (Option Bool × TerminalSet) :=
  NumberStore.run .ordered r commands

end SetRegisters

end CanonicalLR
