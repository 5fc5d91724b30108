import CanonicalLR.Discovery
import CanonicalLR.Fixpoint
import CanonicalLR.Grammar.Builder

/-!
# Finishing a grammar

A finished grammar has the rule that takes the reserved nonterminal to the start symbol, followed
by the declared rules whose left side is reachable, in the order of declaration. The other declared
rules are dropped with a warning, and there is a warning for each reachable nonterminal without
rules. Without a declared start symbol the left side of the first rule is taken.

A nonterminal is reachable if the start symbol derives some string that contains it. The reachable
ones are listed in the order in which passes over the rules discover them; a pass already uses what
it has discovered itself.
-/
namespace CanonicalLR

/-! ### Reachable nonterminals -/

/-- Discover the nonterminals on the right sides of the rules whose left side is known. -/
def reachPass (rules : List Rule) (known : List NonterminalId) : List NonterminalId :=
  rules.foldl (fun known r =>
    if r.left ∈ known then discoverAll known (r.right.filterMap Symbol.nonterminal?) else known)
    known

/-- Each pass but the last discovers a nonterminal that occurs on some right side. -/
def reachable (rules : List Rule) (start : NonterminalId) : List NonterminalId :=
  iterate (reachPass rules) (rules.flatMap (·.right)).length [start]

/-! ### Numbers -/

/-- Rule numbers have sixteen bits, so there are this many of them. -/
def ruleNumbers : Nat := 65536

/-- Give a rule the next number. When all are taken the numbers start again at 0, and the rule takes
the place of the one that had its number. -/
def addRule (rules : List Rule) (r : Rule) : List Rule :=
  if rules.length < ruleNumbers then rules ++ [r]
  else rules.set (rules.length % ruleNumbers) r

theorem addRule_of_lt {rules : List Rule} (room : rules.length < ruleNumbers) (r : Rule) :
    addRule rules r = rules ++ [r] :=
  if_pos room

/-- As long as there are numbers, the rules are numbered in their order. -/
theorem foldl_addRule {rules added : List Rule}
    (room : rules.length + added.length ≤ ruleNumbers) :
    added.foldl addRule rules = rules ++ added := by
  induction added generalizing rules with
  | nil => simp
  | cons r added ih =>
    simp only [List.length_cons] at room
    rw [List.foldl_cons, addRule_of_lt (by omega), ih (by simp; omega), List.append_assoc,
      List.singleton_append]

/-- The rules as they stand once every one has been given a number. Those for which no number is
left take the place of the first rule in turn, so the last of them stays. -/
def numberedRules (first : Rule) (added : List Rule) : List Rule :=
  let numbered := added.take (ruleNumbers - 1)
  let late := added.drop (ruleNumbers - 1)
  late.getLastD first :: numbered

/-- Where all numbers are taken, each rule replaces the first one. -/
theorem foldl_addRule_of_full {first : Rule} {rules late : List Rule}
    (full : rules.length = ruleNumbers - 1) :
    late.foldl addRule (first :: rules) = late.getLastD first :: rules := by
  induction late generalizing first with
  | nil => rfl
  | cons r late ih =>
    have replaced : addRule (first :: rules) r = r :: rules := by
      have taken : (first :: rules).length = ruleNumbers := by
        rw [List.length_cons, full]
        rfl
      rw [addRule, taken, if_neg (Nat.lt_irrefl _), Nat.mod_self, List.set_cons_zero]
    rw [List.foldl_cons, replaced, ih, List.getLastD_cons]

theorem foldl_addRule_singleton (first : Rule) (added : List Rule) :
    added.foldl addRule [first] = numberedRules first added := by
  have room : [first].length + (added.take (ruleNumbers - 1)).length ≤ ruleNumbers := by
    have := List.length_take_le (ruleNumbers - 1) added
    rw [List.length_singleton]
    simp only [ruleNumbers] at *
    omega
  -- First the rules for which there are numbers, then the others.
  conv => lhs; rw [← List.take_append_drop (ruleNumbers - 1) added]
  rw [List.foldl_append, foldl_addRule room, List.singleton_append, numberedRules]
  rcases Nat.lt_or_ge added.length (ruleNumbers - 1) with few | many
  · rw [List.drop_of_length_le (Nat.le_of_lt few)]
    rfl
  · exact foldl_addRule_of_full (List.length_take_of_le many)

/-! ### Grammars -/

def Rule.accepting (start : NonterminalId) : Rule where
  left := .start
  right := [.nonterminal start]
  override := none
  action := none

namespace Vocabulary

variable (v : Vocabulary)

def droppedWarnings (dropped : List Rule) : List Warning :=
  if dropped.isEmpty then [] else [.unreachableRules (dropped.map v.ruleText)]

def emptyWarnings (reached : List NonterminalId) (rules : List Rule) : List Warning :=
  (reached.filter fun n => rules.all (·.left != n)).map fun n =>
    .nonterminalWithoutRules (v.nonterminalName n)

/-- The grammar of the declared rules that can be reached from a start symbol. -/
def grammar (start : NonterminalId) (declared : List Rule) (warnings : List Warning) : Grammar :=
  let reached := reachable declared start
  let kept := declared.filter fun r => r.left ∈ reached
  let dropped := declared.filter fun r => r.left ∉ reached
  let rules := kept.foldl addRule [.accepting start]
  { v with
    rules := rules
    start := start
    warnings := warnings ++ v.droppedWarnings dropped ++ v.emptyWarnings reached rules }

end Vocabulary

def Builder.finish (b : Builder) : Except DefinitionError Grammar :=
  match b.start <|> b.rules.head?.map (·.left) with
  | none => .error .noRules
  | some start =>
    if start < b.nonterminals.length then .ok (b.grammar start b.rules b.warnings)
    else .error .undeclaredStart

namespace Grammar

/-- The grammar of a list of declarations, none of which may be refused. -/
def define (ds : List Declaration) : Except DefinitionError Grammar := do
  (← Builder.initial.declareAll ds).finish

/-- The grammar of the declarations in a list that are not refused. -/
def defineAccepted (ds : List Declaration) : Except DefinitionError Grammar :=
  (Builder.initial.attemptAll ds).2.finish

end Grammar

end CanonicalLR
