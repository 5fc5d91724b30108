import CanonicalLR.Grammar.Basic
import Mathlib.Logic.Relation

/-!
# Derivations

What a grammar generates, without regard to how it is parsed. A string of symbols yields another if
one of its nonterminals is exchanged for the right side of a rule for it, and it derives what can be
had by any number of such steps. In a rightmost derivation only terminals stand to the right of the
nonterminal that is exchanged, so the list of the rules determines all of it.
-/
namespace CanonicalLR

inductive Yields (rules : List Rule) : List Symbol → List Symbol → Prop where
  | exchange {r : Rule} (member : r ∈ rules) (before after : List Symbol) :
      Yields rules (before ++ .nonterminal r.left :: after) (before ++ r.right ++ after)

def Derives (rules : List Rule) : List Symbol → List Symbol → Prop :=
  Relation.ReflTransGen (Yields rules)

/-- The rules, given by their numbers, of a rightmost derivation of one string from another. -/
inductive RightmostDerivation (rules : List Rule) :
    List RuleId → List Symbol → List Symbol → Prop where
  | nil (u : List Symbol) : RightmostDerivation rules [] u u
  | cons {id : RuleId} {r : Rule} {ids : List RuleId} {before v : List Symbol}
      {after : List TerminalId} (found : rules[id]? = some r)
      (rest : RightmostDerivation rules ids (before ++ r.right ++ after.map .terminal) v) :
      RightmostDerivation rules (id :: ids)
        (before ++ .nonterminal r.left :: after.map .terminal) v

/-- Some string that starts with the terminal is derived. -/
def Begins (rules : List Rule) (u : List Symbol) (t : TerminalId) : Prop :=
  ∃ rest, Derives rules u (.terminal t :: rest)

/-- Some string of terminals is derived. -/
def Productive (rules : List Rule) (n : NonterminalId) : Prop :=
  ∃ w : List TerminalId, Derives rules [.nonterminal n] (w.map .terminal)

/-- The strings of terminals that a grammar generates. -/
def Grammar.Sentence (g : Grammar) (w : List TerminalId) : Prop :=
  Derives g.rules [.nonterminal g.start] (w.map .terminal)

/-- Each nonterminal in the rules derives some terminals. -/
def Grammar.AllProductive (g : Grammar) : Prop :=
  ∀ r ∈ g.rules, Productive g.rules r.left ∧
    ∀ n, .nonterminal n ∈ r.right → Productive g.rules n

variable {rules : List Rule}

theorem Derives.refl (u : List Symbol) : Derives rules u u := Relation.ReflTransGen.refl

theorem Derives.trans {u v w : List Symbol} (first : Derives rules u v)
    (second : Derives rules v w) : Derives rules u w :=
  Relation.ReflTransGen.trans first second

theorem Yields.append_left {u v : List Symbol} (step : Yields rules u v) (w : List Symbol) :
    Yields rules (w ++ u) (w ++ v) := by
  obtain ⟨member, before, after⟩ := step
  simpa using Yields.exchange member (w ++ before) after

theorem Yields.append_right {u v : List Symbol} (step : Yields rules u v) (w : List Symbol) :
    Yields rules (u ++ w) (v ++ w) := by
  obtain ⟨member, before, after⟩ := step
  simpa using Yields.exchange member before (after ++ w)

theorem Derives.append {u v u' v' : List Symbol} (left : Derives rules u v)
    (right : Derives rules u' v') : Derives rules (u ++ u') (v ++ v') := by
  have lefts : Derives rules (u ++ u') (v ++ u') :=
    Relation.ReflTransGen.lift (· ++ u') (fun _ _ step => Yields.append_right step u') _ _ left
  have rights : Derives rules (v ++ u') (v ++ v') :=
    Relation.ReflTransGen.lift (v ++ ·) (fun _ _ step => Yields.append_left step v) _ _ right
  exact lefts.trans rights

/-- A rule's left side derives its right side. -/
theorem Derives.of_rule {r : Rule} (member : r ∈ rules) :
    Derives rules [.nonterminal r.left] r.right := by
  have step := Yields.exchange member [] []
  exact Relation.ReflTransGen.single (by simpa using step)

/-- A rightmost derivation is a derivation. -/
theorem RightmostDerivation.derives {ids : List RuleId} {u v : List Symbol}
    (derivation : RightmostDerivation rules ids u v) : Derives rules u v := by
  induction derivation with
  | nil u => exact .refl u
  | cons found rest ih =>
    have member := List.mem_of_getElem? found
    exact Relation.ReflTransGen.head (Yields.exchange member _ _) ih

theorem RightmostDerivation.trans {ids ids' : List RuleId} {u v w : List Symbol}
    (first : RightmostDerivation rules ids u v) (second : RightmostDerivation rules ids' v w) :
    RightmostDerivation rules (ids ++ ids') u w := by
  induction first with
  | nil u => exact second
  | cons found rest ih => exact .cons found (ih second)

end CanonicalLR
