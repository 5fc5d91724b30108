import CanonicalLR.Grammar.Builder

/-!
# What accepted declarations do

The judgement says which declarations a builder accepts, with their answers and with the builder
that each leaves, one rule for each outcome. What holds of a builder after any declarations, refused
ones among them, is what these rules preserve.
-/
namespace CanonicalLR.Builder

inductive Accepts (b : Builder) : Declaration → Declared → Builder → Prop where
  | terminal {name : String} {precedence : Option Precedence}
      (identifier : isIdentifier name = true) (fresh : name ∉ b.terminals.map (·.name)) :
      Accepts b (.terminal name precedence) (.terminal b.terminals.length)
        { b with terminals := b.terminals ++ [⟨name, none, precedence⟩] }
  | nonterminal {name : String}
      (identifier : isIdentifier name = true) (fresh : name ∉ b.nonterminals.map (·.name)) :
      Accepts b (.nonterminal name) (.nonterminal b.nonterminals.length)
        { b with nonterminals := b.nonterminals ++ [⟨name, none⟩] }
  | precedence {assoc : String} {a : Assoc} (known : Assoc.ofName? assoc = some a) :
      Accepts b (.precedence assoc) (.precedence ⟨b.levels + 1, a⟩)
        { b with levels := b.levels + 1 }
  | unknownAssoc {assoc : String} (unknown : Assoc.ofName? assoc = none) :
      Accepts b (.precedence assoc) (.precedence ⟨b.levels + 1, .unspecified⟩)
        { b with levels := b.levels + 1, warnings := b.warnings ++ [.unknownAssoc assoc] }
  | typeTag {symbol : Symbol} {tag : String} :
      Accepts b (.typeTag symbol tag) .done (b.declareTypeTag symbol tag)
  | rule {left : NonterminalId} {right : List Symbol} {override : Option Precedence}
      (left_usable : b.usableNonterminal left = true) (right_usable : right.all b.usable = true)
      (fresh : ∀ r ∈ b.rules, ¬ (r.left = left ∧ r.right = right)) :
      Accepts b (.rule left right override) (.rule b.rules.length)
        { b with rules := b.rules ++ [⟨left, right, override, none⟩] }
  | duplicate {left : NonterminalId} {right : List Symbol} {override : Option Precedence}
      {index : Nat} (left_usable : b.usableNonterminal left = true)
      (right_usable : right.all b.usable = true)
      (first : b.rules.findIdx? (fun r => r.left == left && r.right == right) = some index) :
      Accepts b (.rule left right override) (.rule index)
        { b with warnings := b.warnings ++ [.duplicateRule (b.productionText left right)] }
  | action {rule : Nat} {action : String} :
      Accepts b (.action rule action) .done (b.declareAction rule action)
  | precedenceOf {rule : Nat} {terminal : String} {t : Terminal}
      (known : b.terminals.find? (·.name == terminal) = some t) :
      Accepts b (.precedenceOf rule terminal) .done
        { b with rules := b.rules.modify rule fun r => { r with override := t.precedence } }
  | unknownTerminal {rule : Nat} {terminal : String}
      (unknown : terminal ∉ b.terminals.map (·.name)) :
      Accepts b (.precedenceOf rule terminal) .done
        { b with
          warnings := b.warnings ++
            [.unknownPrecedenceTerminal terminal ((b.rules[rule]?.map b.ruleText).getD "")] }
  | start {symbol : NonterminalId} : Accepts b (.start symbol) .done { b with start := some symbol }

variable {b b' : Builder} {d : Declaration} {answer : Declared}

theorem accepts_of_declare (accepted : b.declare d = .ok (answer, b')) :
    b.Accepts d answer b' := by
  cases d with
  | terminal name precedence =>
    simp only [declare, declareTerminal] at accepted
    split at accepted
    · cases accepted
    next identifier =>
      split at accepted
      · cases accepted
      next fresh =>
        cases accepted
        exact .terminal (by simpa using identifier) (by simpa using fresh)
  | nonterminal name =>
    simp only [declare, declareNonterminal] at accepted
    split at accepted
    · cases accepted
    next identifier =>
      split at accepted
      · cases accepted
      next fresh =>
        cases accepted
        exact .nonterminal (by simpa using identifier) (by simpa using fresh)
  | precedence assoc =>
    simp only [declare, declarePrecedence] at accepted
    split at accepted
    next a known =>
      cases accepted
      exact .precedence known
    next unknown =>
      cases accepted
      exact .unknownAssoc unknown
  | typeTag symbol tag =>
    cases accepted
    exact .typeTag
  | rule left right override =>
    simp only [declare, declareRule] at accepted
    split at accepted
    · cases accepted
    next left_usable =>
      split at accepted
      · cases accepted
      next right_usable =>
        rw [Bool.not_eq_true, Bool.not_eq_false'] at left_usable right_usable
        split at accepted
        next index first =>
          cases accepted
          exact .duplicate left_usable right_usable first
        next fresh =>
          cases accepted
          exact .rule left_usable right_usable (by simpa using fresh)
  | action rule action =>
    cases accepted
    exact .action
  | precedenceOf rule terminal =>
    cases accepted
    simp only [declarePrecedenceOf]
    split
    next t known => exact .precedenceOf known
    next unknown => exact .unknownTerminal (by simpa using unknown)
  | start symbol =>
    cases accepted
    exact .start

/-- What each accepted declaration preserves, any list of declarations preserves. -/
theorem attemptAll_induction (holds : Builder → Prop)
    (step : ∀ b d answer b', holds b → b.Accepts d answer b' → holds b')
    (start : holds b) (ds : List Declaration) : holds (b.attemptAll ds).2 := by
  induction ds generalizing b with
  | nil => exact start
  | cons d ds ih =>
    refine ih (b := (b.attempt d).2) ?_
    rw [attempt]
    split
    next answer b' accepted => exact step b d answer b' start (accepts_of_declare accepted)
    next => exact start

end CanonicalLR.Builder
