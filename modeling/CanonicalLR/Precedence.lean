/-!
# Precedence and associativity

A precedence has a priority, where a larger one binds tighter, and an associativity, which decides
between operators of one priority. A symbol without precedence has level 0, below every declared
priority.
-/
namespace CanonicalLR

inductive Assoc where
  | unspecified
  | left
  | right
  | nonassoc
deriving DecidableEq, Repr, Inhabited

namespace Assoc

def name : Assoc → String
  | unspecified => "none"
  | left => "left"
  | right => "right"
  | nonassoc => "nonassoc"

def ofName? (s : String) : Option Assoc :=
  [left, right, nonassoc, unspecified].find? fun a => a.name == s

end Assoc

structure Precedence where
  priority : Nat
  assoc : Assoc
deriving DecidableEq, Repr, Inhabited

namespace Precedence

def level : Option Precedence → Nat
  | none => 0
  | some p => p.priority

def text (p : Precedence) : String :=
  s!"(priority={p.priority}, assoc={p.assoc.name})"

@[simp] theorem level_none : level none = 0 := rfl

@[simp] theorem level_some (p : Precedence) : level (some p) = p.priority := rfl

end Precedence

end CanonicalLR
