import CanonicalLR.Symbol

/-!
# Parser actions

What a parser does in a state on a lookahead terminal.
-/
namespace CanonicalLR

/-- The decimal digits of `n`, with zeros in front if they are fewer than `width`. -/
def padded (width n : Nat) : String :=
  let digits := toString n
  String.ofList (List.replicate (width - digits.length) '0') ++ digits

/-- States are written with two digits at least. -/
def StateId.text (s : StateId) : String := padded 2 s

inductive ActionKind where
  | shift
  | reduce
  | accept
deriving DecidableEq, Repr, Inhabited

def ActionKind.name : ActionKind → String
  | shift => "shift"
  | reduce => "reduce"
  | accept => "accept"

inductive Action where
  /-- Consume the lookahead and enter a state. -/
  | shift (target : StateId)
  /-- Replace the right side of a rule by its left side. -/
  | reduce (rule : RuleId)
  | accept
deriving DecidableEq, Repr, Inhabited

def Action.kind : Action → ActionKind
  | shift _ => .shift
  | reduce _ => .reduce
  | accept => .accept

end CanonicalLR
