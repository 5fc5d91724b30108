import CanonicalLR.Text.IdentifierRanges

/-!
# Identifiers

The names of symbols are identifiers: a starting character or an underscore, then characters that
may continue an identifier. Names are compared as they are written, without normalisation.
-/
namespace CanonicalLR

namespace Identifier

/-- Whether a code point lies in one of the ranges, which are listed in ascending order. -/
def inRanges (c : Nat) : List (Nat × Nat) → Bool
  | [] => false
  | (low, high) :: rest =>
    if c < low then false
    else if c ≤ high then true
    else inRanges c rest

def isStart (c : Char) : Bool :=
  c == '_' || inRanges c.toNat startRanges

def isContinue (c : Char) : Bool :=
  inRanges c.toNat startRanges || inRanges c.toNat continueOnlyRanges

end Identifier

def isIdentifier (name : String) : Bool :=
  match name.toList with
  | [] => false
  | c :: cs => Identifier.isStart c && cs.all Identifier.isContinue

end CanonicalLR
