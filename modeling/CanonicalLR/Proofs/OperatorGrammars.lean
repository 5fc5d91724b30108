import CanonicalLR.Parser.Tree
import CanonicalLR.Proofs.AskedSteps
import CanonicalLR.Proofs.SingleNonterminal

/-!
# Operator grammars

The rules of an operator grammar make an expression of a number, of an expression in parentheses and
of two expressions with an operator between them, so a sentence has many derivations, and only the
precedences tell which one a parser finds. What may come next while an expression is read depends on
how many parentheses are open and on whether an operand has just been read. The items of a state
agree with that: the strings that a parser can have read before an operand are made of opening
parentheses and of operands with an operator behind them, and every rule is predicted there with all
operators and with what closes the expression.
-/
namespace CanonicalLR

/-! ### Grammars -/

/-- The terminals of an operator grammar. -/
structure OperatorTerminals where
  operators : List TerminalId
  lparen : TerminalId
  rparen : TerminalId
  number : TerminalId

namespace OperatorTerminals

variable (o : OperatorTerminals) (e : NonterminalId)

/-- Two expressions and an operator. -/
def operation (e : NonterminalId) (op : TerminalId) : List Symbol :=
  [.nonterminal e, .terminal op, .nonterminal e]

def parens : List Symbol := [.terminal o.lparen, .nonterminal e, .terminal o.rparen]

/-- What an expression may be. -/
def rights : List (List Symbol) :=
  o.operators.map (operation e) ++ [o.parens e, [.terminal o.number]]

end OperatorTerminals

open OperatorTerminals (operation)

namespace Grammar

variable (g : Grammar) (op : TerminalId)

/-- An operation can be the left operand of another one: it binds tighter, or as tight and to the
left. -/
def GroupsLeft (op₁ : TerminalId) : Prop :=
  g.terminalLevel op < g.terminalLevel op₁ ∨
    g.terminalLevel op₁ = g.terminalLevel op ∧ g.LeftAssoc op

/-- An operation can be the right operand of another one: it binds tighter, or as tight and not to
the left. -/
def GroupsRight (op₂ : TerminalId) : Prop :=
  g.terminalLevel op < g.terminalLevel op₂ ∨
    g.terminalLevel op₂ = g.terminalLevel op ∧ ¬ g.LeftAssoc op

end Grammar

/-- Besides the one that is added to every grammar, the rules are those for expressions, in any
order. Operators have precedences, and those of one priority are grouped to the same side. -/
structure OperatorGrammar (g : Grammar) (o : OperatorTerminals) : Prop where
  distinct : (o.lparen :: o.rparen :: o.number :: o.operators).Nodup
  sides : (g.rules.tail.map fun r => (r.left, r.right)).Perm
    ((o.rights g.start).map fun right => (g.start, right))
  no_override : ∀ r ∈ g.rules, ∀ op ∈ o.operators, r.right = operation g.start op →
    r.override = none
  ranked : ∀ op ∈ o.operators, ∃ p ∈ g.terminalPrecedence op, 1 ≤ p.priority
  uniform : ∀ op ∈ o.operators, ∀ op' ∈ o.operators, ∀ p ∈ g.terminalPrecedence op,
    ∀ p' ∈ g.terminalPrecedence op', p.priority = p'.priority → p.assoc = p'.assoc

namespace OperatorGrammar

variable {g : Grammar} {o : OperatorTerminals} {q : RuleId} {r : Rule} {right : List Symbol}
  {op : TerminalId}

theorem distinct_parens (grammar : OperatorGrammar g o) :
    o.lparen ≠ o.rparen ∧ o.lparen ≠ o.number ∧ o.rparen ≠ o.number := by
  have distinct := grammar.distinct
  simp only [List.nodup_cons, List.mem_cons, not_or] at distinct
  exact ⟨distinct.1.1, distinct.1.2.1, distinct.2.1.1⟩

/-- Operators are none of the other terminals. -/
theorem operator_ne (grammar : OperatorGrammar g o) (member : op ∈ o.operators) :
    op ≠ o.lparen ∧ op ≠ o.rparen ∧ op ≠ o.number := by
  have distinct := grammar.distinct
  simp only [List.nodup_cons, List.mem_cons, not_or] at distinct
  obtain ⟨⟨_, _, no_lparen⟩, ⟨_, no_rparen⟩, no_number, _⟩ := distinct
  refine ⟨?_, ?_, ?_⟩ <;> rintro rfl <;> contradiction

theorem mem_rights : right ∈ o.rights g.start ↔ (∃ op ∈ o.operators, right = operation g.start op) ∨
    right = o.parens g.start ∨ right = [.terminal o.number] := by
  simp [OperatorTerminals.rights, eq_comm]

theorem operation_mem (member : op ∈ o.operators) : operation g.start op ∈ o.rights g.start :=
  mem_rights.mpr (.inl ⟨op, member, rfl⟩)

theorem parens_mem : o.parens g.start ∈ o.rights g.start := mem_rights.mpr (.inr (.inl rfl))

theorem number_mem : [.terminal o.number] ∈ o.rights g.start := mem_rights.mpr (.inr (.inr rfl))

theorem offers (grammar : OperatorGrammar g o) : g.Offers (o.rights g.start) := grammar.sides

theorem markersFit (grammar : OperatorGrammar g o) (augmented : g.Augmented) : g.MarkersFit := by
  refine grammar.offers.markersFit augmented fun right among => ?_
  rcases mem_rights.mp among with ⟨op, _, rfl⟩ | rfl | rfl <;> exact of_decide_eq_true rfl

/-- The rule for an operation has the level of its operator. -/
theorem ruleLevel_eq (grammar : OperatorGrammar g o) (member : op ∈ o.operators)
    (found : g.rules[q]? = some r) (right : r.right = operation g.start op) :
    g.ruleLevel q = g.terminalLevel op := by
  have plain := grammar.no_override r (List.mem_of_getElem? found) op member right
  rw [Grammar.ruleLevel, Grammar.rule_of_getElem? found, Vocabulary.rulePrecedence, plain, right]
  rfl

/-- Operators of one level are grouped to the same side. -/
theorem leftAssoc_congr (grammar : OperatorGrammar g o) (member : op ∈ o.operators)
    {op' : TerminalId} (member' : op' ∈ o.operators)
    (equal : g.terminalLevel op = g.terminalLevel op') : g.LeftAssoc op ↔ g.LeftAssoc op' := by
  obtain ⟨p, declared, _⟩ := grammar.ranked op member
  obtain ⟨p', declared', _⟩ := grammar.ranked op' member'
  have same := grammar.uniform op member op' member' p declared p' declared'
  rw [Option.mem_def] at declared declared'
  simp only [Grammar.terminalLevel, Grammar.LeftAssoc, declared, declared', Precedence.level_some,
    Option.map_some, Option.some.injEq] at equal ⊢
  rw [same equal]

end OperatorGrammar

/-! ### What may come next -/

/-- Whether an operand is expected or has just been read. -/
inductive Place where
  | operand
  | operator

/-- With so many parentheses open an expression can be completed in this way. -/
inductive Scans (o : OperatorTerminals) (e : NonterminalId) : Place → Nat → List Symbol → Prop where
  | done : Scans o e .operator 0 []
  | expression {d : Nat} {w : List Symbol} (rest : Scans o e .operator d w) :
      Scans o e .operand d (.nonterminal e :: w)
  | number {d : Nat} {w : List Symbol} (rest : Scans o e .operator d w) :
      Scans o e .operand d (.terminal o.number :: w)
  | opening {d : Nat} {w : List Symbol} (rest : Scans o e .operand (d + 1) w) :
      Scans o e .operand d (.terminal o.lparen :: w)
  | operator {d : Nat} {w : List Symbol} {op : TerminalId} (member : op ∈ o.operators)
      (rest : Scans o e .operand d w) : Scans o e .operator d (.terminal op :: w)
  | closing {d : Nat} {w : List Symbol} (rest : Scans o e .operator d w) :
      Scans o e .operator (d + 1) (.terminal o.rparen :: w)

/-- What closes the innermost expression. -/
def OperatorTerminals.closer (o : OperatorTerminals) : Nat → TerminalId
  | 0 => .eoi
  | _ + 1 => o.rparen

namespace Scans

variable {o : OperatorTerminals} {e : NonterminalId} {place : Place} {d : Nat}

/-- What comes after an operand is an operator or closes the expression. -/
theorem headD_of_operator {w : List TerminalId}
    (scans : Scans o e .operator d (w.map .terminal)) :
    w.headD .eoi ∈ o.operators ∨ w.headD .eoi = o.closer d := by
  cases w with
  | nil =>
    cases scans
    exact .inr rfl
  | cons t w =>
    cases scans with
    | operator member => exact .inl member
    | closing => exact .inr rfl

theorem head_of_operator {t : TerminalId} {w : List Symbol}
    (scans : Scans o e .operator d (.terminal t :: w)) : t ∈ o.operators ∨ t = o.rparen := by
  generalize whole : Symbol.terminal t :: w = u at scans
  cases scans with
  | done => cases whole
  | operator member =>
    cases whole
    exact .inl member
  | closing =>
    obtain ⟨same, _⟩ := List.cons.inj whole
    exact .inr (Symbol.terminal.inj same)

/-- An expression can be exchanged for what can stand in its place. -/
theorem exchange {before right after : List Symbol}
    (scans : Scans o e place d (before ++ .nonterminal e :: after))
    (exchanged : ∀ d, Scans o e .operator d after → Scans o e .operand d (right ++ after)) :
    Scans o e place d (before ++ right ++ after) := by
  induction before generalizing place d with
  | nil =>
    cases scans with
    | expression rest => exact exchanged d rest
  | cons x before ih =>
    cases scans with
    | expression rest => exact .expression (ih rest)
    | number rest => exact .number (ih rest)
    | opening rest => exact .opening (ih rest)
    | operator member rest => exact .operator member (ih rest)
    | closing rest => exact .closing (ih rest)

end Scans

namespace OperatorGrammar

variable {g : Grammar} {o : OperatorTerminals}

/-- All that an expression may be can stand in its place. -/
theorem scans_right {right after : List Symbol} (among : right ∈ o.rights g.start) {d : Nat}
    (scans : Scans o g.start .operator d after) : Scans o g.start .operand d (right ++ after) := by
  rcases mem_rights.mp among with ⟨op, member, rfl⟩ | rfl | rfl
  · exact .expression (.operator member (.expression scans))
  · exact .opening (.expression (.closing scans))
  · exact .number scans

theorem scans_of_derives (grammar : OperatorGrammar g o) (augmented : g.Augmented)
    {u : List Symbol} (derivation : Derives g.rules [.nonterminal g.start] u) :
    Scans o g.start .operand 0 u := by
  refine grammar.offers.of_derives augmented number_mem (.expression .done) ?_ derivation
  intro before right after among scans
  exact scans.exchange fun d rest => scans_right among rest

end OperatorGrammar

/-! ### Strings before an operand -/

/-- What has been left open on the way to an operand. -/
inductive Frame where
  | paren
  | operand (left : Tree) (op : TerminalId)

namespace Frame

def Known (o : OperatorTerminals) : Frame → Prop
  | paren => True
  | operand _ op => op ∈ o.operators

/-- What frames spell, the latest first. -/
def spelled (o : OperatorTerminals) (e : NonterminalId) : List Frame → List Symbol
  | [] => []
  | paren :: frames => spelled o e frames ++ [.terminal o.lparen]
  | operand _ op :: frames => spelled o e frames ++ [.nonterminal e, .terminal op]

/-- How many parentheses are open. -/
def depth : List Frame → Nat
  | [] => 0
  | paren :: frames => depth frames + 1
  | operand _ _ :: frames => depth frames

end Frame

namespace OperatorGrammar

variable {g : Grammar} {o : OperatorTerminals} {q : RuleId} {r : Rule} {u : List Symbol}
  {b : TerminalId} {frames : List Frame}

/-- Every rule for expressions is predicted with the terminal. -/
def Predicts (g : Grammar) (u : List Symbol) (b : TerminalId) : Prop :=
  ∀ (q : RuleId) (r : Rule), g.rules[q]? = some r → r.left = g.start → Valid g u ⟨q, 0, b⟩

/-- Where a rule has been read up to an expression, the rules for it are predicted. -/
theorem predicts_of_read (grammar : OperatorGrammar g o) (augmented : g.Augmented)
    {x y : List Symbol} {t : TerminalId} (found : g.rules[q]? = some r)
    (valid : Valid g u ⟨q, 0, t⟩) (right : r.right = x ++ .nonterminal g.start :: y)
    (begins : Begins g.rules (y ++ [.terminal t]) b) : Predicts g (u ++ x) b :=
  (grammar.markersFit augmented).predictsAt_of_read found valid right begins

/-- Operators may follow every expression. -/
theorem predicts_operator (grammar : OperatorGrammar g o) (augmented : g.Augmented)
    (predicts : Predicts g u b) {op : TerminalId} (member : op ∈ o.operators) :
    Predicts g u op := by
  obtain ⟨q, r, found, _, left, right⟩ := grammar.offers.exists_rule (operation_mem member)
  have begins : Begins g.rules ([.terminal op, .nonterminal g.start] ++ [.terminal b]) op :=
    ⟨_, .refl _⟩
  simpa using grammar.predicts_of_read augmented (x := []) found (predicts q r found left) right
    begins

theorem predicts_closer (grammar : OperatorGrammar g o) (augmented : g.Augmented)
    (known : ∀ frame ∈ frames, frame.Known o) :
    Predicts g (Frame.spelled o g.start frames) (o.closer (Frame.depth frames)) := by
  -- By the frames: each of them is a part of a rule that is predicted without it.
  induction frames with
  | nil =>
    exact grammar.predicts_of_read augmented (x := []) augmented.accepting .start rfl
      (begins_terminal.mpr rfl)
  | cons frame frames ih =>
    have earlier := ih fun frame member => known frame (List.mem_cons_of_mem _ member)
    cases frame with
    | paren =>
      obtain ⟨q, r, found, _, left, right⟩ := grammar.offers.exists_rule parens_mem
      exact grammar.predicts_of_read augmented (x := [.terminal o.lparen]) found
        (earlier q r found left) right ⟨_, .refl _⟩
    | operand left op =>
      have member : op ∈ o.operators := known _ List.mem_cons_self
      obtain ⟨q, r, found, _, left, right⟩ := grammar.offers.exists_rule (operation_mem member)
      exact grammar.predicts_of_read augmented (x := [.nonterminal g.start, .terminal op]) found
        (earlier q r found left) right (begins_terminal.mpr rfl)

/-- Before an operand all rules are predicted with whatever may come after it. -/
theorem predicts_spelled (grammar : OperatorGrammar g o) (augmented : g.Augmented)
    (known : ∀ frame ∈ frames, frame.Known o)
    (follows : b ∈ o.operators ∨ b = o.closer (Frame.depth frames)) :
    Predicts g (Frame.spelled o g.start frames) b := by
  have closes := grammar.predicts_closer augmented known
  rcases follows with member | rfl
  · exact grammar.predicts_operator augmented closes member
  · exact closes

end OperatorGrammar

/-! ### Strings that have been read -/

namespace Frame

variable {o : OperatorTerminals} {e : NonterminalId} {frames : List Frame} {v : List Symbol}
  {x : Symbol}

/-- Before an operand an operator or an opening parenthesis has been read. -/
theorem spelled_eq_concat (whole : spelled o e frames = v ++ [x]) :
    (∃ earlier, frames = paren :: earlier ∧ x = .terminal o.lparen ∧ v = spelled o e earlier) ∨
      ∃ left op earlier, frames = operand left op :: earlier ∧ x = .terminal op ∧
        v = spelled o e earlier ++ [.nonterminal e] := by
  cases frames with
  | nil => simp [spelled] at whole
  | cons frame earlier =>
    cases frame with
    | paren =>
      obtain ⟨rfl, last⟩ := List.append_inj' whole rfl
      obtain rfl := List.singleton_inj.mp last
      exact .inl ⟨earlier, rfl, rfl, rfl⟩
    | operand left op =>
      rw [spelled, List.append_cons] at whole
      obtain ⟨rfl, last⟩ := List.append_inj' whole rfl
      obtain rfl := List.singleton_inj.mp last
      exact .inr ⟨left, op, earlier, rfl, rfl, rfl⟩

end Frame

theorem Frame.getLast_spelled {o : OperatorTerminals} {e : NonterminalId} {frames : List Frame}
    {x : Symbol} (known : ∀ frame ∈ frames, frame.Known o)
    (last : (Frame.spelled o e frames).getLast? = some x) :
    x = .terminal o.lparen ∨ ∃ op ∈ o.operators, x = .terminal op := by
  obtain ⟨v, whole⟩ := List.getLast?_eq_some_iff.mp last
  rcases Frame.spelled_eq_concat whole with ⟨_, _, rfl, _⟩ | ⟨left, op, earlier, rfl, rfl, _⟩
  · exact .inl rfl
  · exact .inr ⟨op, known _ List.mem_cons_self, rfl⟩

namespace OperatorGrammar

variable {g : Grammar} {o : OperatorTerminals} {frames : List Frame} {u v right : List Symbol}
  {op : TerminalId}

/-- Right sides end in an expression, in a closing parenthesis or in a number. -/
theorem getLast_right (among : right ∈ o.rights g.start) :
    (∃ op ∈ o.operators, right = operation g.start op) ∧
        right.getLast? = some (.nonterminal g.start) ∨
      right = o.parens g.start ∧ right.getLast? = some (.terminal o.rparen) ∨
      right = [.terminal o.number] ∧ right.getLast? = some (.terminal o.number) := by
  rcases mem_rights.mp among with ⟨op, member, rfl⟩ | rfl | rfl
  · exact .inl ⟨⟨op, member, rfl⟩, rfl⟩
  · exact .inr (.inl ⟨rfl, rfl⟩)
  · exact .inr (.inr ⟨rfl, rfl⟩)

/-- A string that ends in a right side ends as the right side does. -/
theorem getLast_of_right (among : right ∈ o.rights g.start) (whole : u = v ++ right) :
    u.getLast? = right.getLast? := by
  rw [whole, List.getLast?_append]
  rcases getLast_right among with ⟨_, last⟩ | ⟨_, last⟩ | ⟨_, last⟩ <;> simp [last]

/-- Before an operand no right side has been read. -/
theorem spelled_ne_right (grammar : OperatorGrammar g o) (known : ∀ frame ∈ frames, frame.Known o)
    (among : right ∈ o.rights g.start) : Frame.spelled o g.start frames ≠ v ++ right := by
  intro whole
  have last := getLast_of_right among whole
  have ends {x : Symbol} (found : right.getLast? = some x) :=
    Frame.getLast_spelled known (last.trans found)
  obtain ⟨parens_ne, number_ne, _⟩ := grammar.distinct_parens
  rcases getLast_right among with ⟨_, found⟩ | ⟨_, found⟩ | ⟨_, found⟩
  · simpa using ends found
  · rcases ends found with same | ⟨op, member, same⟩
    · exact parens_ne (Symbol.terminal.inj same).symm
    · exact (grammar.operator_ne member).2.1 (Symbol.terminal.inj same).symm
  · rcases ends found with same | ⟨op, member, same⟩
    · exact number_ne (Symbol.terminal.inj same).symm
    · exact (grammar.operator_ne member).2.2 (Symbol.terminal.inj same).symm

/-- Where a number or an expression in parentheses has been read, nothing else can be taken off. -/
theorem eq_of_primary (grammar : OperatorGrammar g o) {right' : List Symbol}
    (among : right ∈ o.rights g.start) (among' : right' ∈ o.rights g.start)
    (primary : right.getLast? ≠ some (.nonterminal g.start)) (whole : u ++ right = v ++ right') :
    right' = right ∧ v = u := by
  have last := (getLast_of_right among rfl).symm.trans (getLast_of_right among' whole)
  obtain ⟨_, _, number_ne⟩ := grammar.distinct_parens
  have same : right' = right := by
    rcases getLast_right among with ⟨_, found⟩ | ⟨rfl, found⟩ | ⟨rfl, found⟩
    · exact absurd found primary
    · rcases getLast_right among' with ⟨_, found'⟩ | ⟨rfl, _⟩ | ⟨_, found'⟩
      · exact absurd (last.trans found') primary
      · rfl
      · rw [found, found', Option.some.injEq, Symbol.terminal.injEq] at last
        exact absurd last number_ne
    · rcases getLast_right among' with ⟨_, found'⟩ | ⟨_, found'⟩ | ⟨rfl, _⟩
      · exact absurd (last.trans found') primary
      · rw [found, found', Option.some.injEq, Symbol.terminal.injEq] at last
        exact absurd last.symm number_ne
      · rfl
  subst same
  exact ⟨rfl, (List.append_cancel_right whole).symm⟩

/-- After an expression only an operation can be taken off, and then the latest frame is its left
operand. -/
theorem eq_of_expression (grammar : OperatorGrammar g o)
    (among : right ∈ o.rights g.start)
    (whole : Frame.spelled o g.start frames ++ [.nonterminal g.start] = v ++ right) :
    ∃ left op earlier, frames = .operand left op :: earlier ∧ op ∈ o.operators ∧
      right = operation g.start op ∧ v = Frame.spelled o g.start earlier := by
  have last := getLast_of_right among whole
  rw [List.getLast?_concat] at last
  rcases getLast_right among with ⟨⟨op, member, rfl⟩, _⟩ | ⟨_, found⟩ | ⟨_, found⟩
  · have longer : Frame.spelled o g.start frames ++ [.nonterminal g.start] =
        v ++ [.nonterminal g.start] ++ [.terminal op] ++ [.nonterminal g.start] := by
      rw [whole, operation]
      simp
    have front := (List.append_inj' longer rfl).1
    rcases Frame.spelled_eq_concat front with ⟨_, _, same, _⟩ | ⟨left, op, earlier, rfl, same, back⟩
    · exact absurd (Symbol.terminal.inj same) (grammar.operator_ne member).1
    · obtain rfl := Symbol.terminal.inj same
      exact ⟨left, _, earlier, rfl, member, rfl, (List.append_inj' back rfl).1⟩
  · simp [found] at last
  · simp [found] at last

/-- Behind the items that have a terminal next there is what they have read. -/
theorem before_of_next (grammar : OperatorGrammar g o) (augmented : g.Augmented) {i : Item}
    {t : TerminalId} (next : i.next? g = some (.terminal t)) :
    t ∈ o.operators ∧ i.before g = [.nonterminal g.start] ∨
      t = o.rparen ∧ i.before g = [.terminal o.lparen, .nonterminal g.start] ∨
      t = o.lparen ∨ t = o.number := by
  have whole := Item.right_eq_of_next? next
  rcases mem_rights.mp (grammar.offers.right_mem_of_next augmented next) with
    ⟨op, member, same⟩ | same | same
  all_goals rw [same] at whole
  · obtain ⟨read, rfl, _⟩ : i.before g = [.nonterminal g.start] ∧ t = op ∧
        i.afterNext g = [.nonterminal g.start] := by
      simpa [operation, List.cons_eq_append_iff] using whole
    exact .inl ⟨member, read⟩
  · have listed : i.before g = [] ∧ t = o.lparen ∧
          i.afterNext g = [.nonterminal g.start, .terminal o.rparen] ∨
        i.before g = [.terminal o.lparen, .nonterminal g.start] ∧ t = o.rparen ∧
          i.afterNext g = [] := by
      simpa [OperatorTerminals.parens, List.cons_eq_append_iff] using whole
    rcases listed with ⟨_, rfl, _⟩ | ⟨read, rfl, _⟩
    · exact .inr (.inr (.inl rfl))
    · exact .inr (.inl ⟨rfl, read⟩)
  · obtain ⟨_, rfl, _⟩ : i.before g = [] ∧ t = o.number ∧ i.afterNext g = [] := by
      simpa [List.cons_eq_append_iff] using whole
    exact .inr (.inr (.inr rfl))

/-- A terminal that may come after an operand is next only where an expression has been read. -/
theorem concat_of_next (grammar : OperatorGrammar g o) (augmented : g.Augmented) {i : Item}
    {t : TerminalId} (valid : Valid g u i) (next : i.next? g = some (.terminal t))
    (allowed : t ∈ o.operators ∨ t = o.rparen) :
    t ∈ o.operators ∧ (∃ v, u = v ++ [.nonterminal g.start]) ∨
      t = o.rparen ∧ ∃ v, u = v ++ [.terminal o.lparen] ++ [.nonterminal g.start] := by
  obtain ⟨v, rfl⟩ := valid.exists_before
  obtain ⟨parens_ne, _, number_ne⟩ := grammar.distinct_parens
  rcases grammar.before_of_next augmented next with ⟨member, read⟩ | ⟨rfl, read⟩ | rfl | rfl
  · exact .inl ⟨member, v, by rw [read]⟩
  · exact .inr ⟨rfl, v, by rw [read]; simp⟩
  · rcases allowed with member | same
    · exact absurd rfl (grammar.operator_ne member).1
    · exact absurd same parens_ne
  · rcases allowed with member | same
    · exact absurd rfl (grammar.operator_ne member).2.2
    · exact absurd same.symm number_ne

end OperatorGrammar

/-! ### Cells -/

namespace OperatorGrammar

variable {g : Grammar} {o : OperatorTerminals} {built : Construction} {frames : List Frame}
  {left : Tree} {op₀ op : TerminalId}

/-- Before an operand every right side can be read up to a terminal in it. -/
theorem exists_next (grammar : OperatorGrammar g o) (augmented : g.Augmented)
    (known : ∀ frame ∈ frames, frame.Known o) {x y : List Symbol} {t : TerminalId}
    (among : x ++ .terminal t :: y ∈ o.rights g.start) :
    ∃ i, Valid g (Frame.spelled o g.start frames ++ x) i ∧ i.next? g = some (.terminal t) := by
  obtain ⟨q, r, found, _, left, right⟩ := grammar.offers.exists_rule among
  have predicted := grammar.predicts_closer augmented known q r found left
  exact ⟨_, (grammar.markersFit augmented).valid_of_read found right predicted,
    (Grammar.next?_of_right found right).1⟩

/-- Before an operand every right side can be read, with what may come after the operand. -/
theorem exists_complete (grammar : OperatorGrammar g o) (augmented : g.Augmented)
    (known : ∀ frame ∈ frames, frame.Known o) {right : List Symbol} {b : TerminalId}
    (among : right ∈ o.rights g.start)
    (follows : b ∈ o.operators ∨ b = o.closer (Frame.depth frames)) :
    ∃ i, Valid g (Frame.spelled o g.start frames ++ right) i ∧ i.next? g = none ∧
      i.lookahead = b ∧ i.rule ≠ .accept := by
  obtain ⟨q, r, found, proper, left, rfl⟩ := grammar.offers.exists_rule among
  have predicted := grammar.predicts_spelled augmented known follows q r found left
  obtain ⟨i, valid, complete, lookahead, rfl⟩ :=
    (grammar.markersFit augmented).exists_complete found predicted
  exact ⟨i, valid, complete, lookahead, proper⟩

theorem spelled_operand (e : NonterminalId) :
    Frame.spelled o e (.operand left op :: frames) ++ [.nonterminal e] =
      Frame.spelled o e frames ++ operation e op := by
  rw [Frame.spelled, List.append_assoc]
  rfl

section Contest

variable (grammar : OperatorGrammar g o) (augmented : g.Augmented)
  (known : ∀ frame ∈ Frame.operand left op₀ :: frames, frame.Known o) {s : StateId}
  {below : List StateId} (spells : Parser.Spells (.ofGrammar g)
    (Frame.spelled o g.start (.operand left op₀ :: frames) ++ [.nonterminal g.start]) (s :: below))
  {state : State} (found : (Automaton.ofGrammar g).states[s]? = some state)

include grammar augmented spells found

include known in
/-- After an operation its rule is complete with every operator. -/
theorem exists_reduces (member : op ∈ o.operators) : ∃ rule, state.Reduces g op rule := by
  obtain ⟨state', found', items⟩ := augmented.toWellFormed.state_of_walk spells.walk
  obtain rfl := Option.some.inj (found.symm.trans found')
  have earlier := fun frame member => known frame (List.mem_cons_of_mem _ member)
  obtain ⟨i, valid, complete, lookahead, proper⟩ := grammar.exists_complete augmented earlier
    (operation_mem (known _ List.mem_cons_self)) (.inl member)
  rw [← spelled_operand] at valid
  exact ⟨i.rule, i, (items i).mpr valid, complete, lookahead, rfl, fun same => absurd same proper⟩

/-- The rules that are complete after an operation have its level. -/
theorem ruleLevel_of_reduces {rule : RuleId} (proper : rule ≠ .accept)
    (reduces : state.Reduces g op rule) : g.ruleLevel rule = g.terminalLevel op₀ := by
  have wf := augmented.toWellFormed
  obtain ⟨i, valid, complete, _, rfl⟩ := Parser.valid_of_reduces wf spells found reduces
  obtain ⟨v, whole⟩ := valid.exists_before
  rw [Item.before_of_complete complete] at whole
  have listed := Grammar.getElem?_rule (valid.rule_known wf)
  obtain ⟨_, op, _, same, member, right, _⟩ :=
    grammar.eq_of_expression (grammar.offers.sides_of_found listed proper).2 whole
  cases same
  exact grammar.ruleLevel_eq member listed right

end Contest

/-- After an operation an operator is shifted only if it may be on the right, and the operation is
reduced only if it may be on the left. -/
theorem groups_of_action (grammar : OperatorGrammar g o) (augmented : g.Augmented)
    (constructed : g.construct = .ok built)
    (known : ∀ frame ∈ Frame.operand left op₀ :: frames, frame.Known o) {s : StateId}
    {below : List StateId} (spells : Parser.Spells (.ofGrammar g)
      (Frame.spelled o g.start (.operand left op₀ :: frames) ++ [.nonterminal g.start])
      (s :: below)) (member : op ∈ o.operators) :
    (∀ target, built.table.action s op = some (.shift target) → g.GroupsRight op₀ op) ∧
      ∀ id, built.table.action s op = some (.reduce id) → g.GroupsLeft op op₀ := by
  have wf := augmented.toWellFormed
  obtain ⟨state, found, items⟩ := wf.state_of_walk spells.walk
  obtain ⟨i, valid, next⟩ := grammar.exists_next augmented known
    (x := [.nonterminal g.start]) (operation_mem member)
  have shifts : state.Shifts g op := ⟨i, (items i).mpr valid, next⟩
  -- The shift is up against a rule of the operation's level, and there the levels decide.
  obtain ⟨_, reduces⟩ := grammar.exists_reduces augmented known spells found member
  obtain ⟨_, lowest⟩ := reduces.exists_lowest
  obtain ⟨proper, _, _, lower, higher, tied⟩ :=
    (wf.settled constructed found).both shifts _ lowest
  have level := grammar.ruleLevel_of_reduces augmented spells found proper lowest.1
  rw [level] at lower higher tied
  have member₀ : op₀ ∈ o.operators := known _ List.mem_cons_self
  rcases Nat.lt_trichotomy (g.terminalLevel op₀) (g.terminalLevel op) with less | equal | more
  · refine ⟨fun _ _ => .inl less, fun id reduced => ?_⟩
    rw [lower less] at reduced
    cases reduced
  · by_cases assoc : g.LeftAssoc op
    · refine ⟨fun target shifted => ?_, fun _ _ => .inr ⟨equal, assoc⟩⟩
      rw [(tied equal.symm).1 assoc] at shifted
      cases shifted
    · have other := (grammar.leftAssoc_congr member₀ member equal).not.mpr assoc
      refine ⟨fun _ _ => .inr ⟨equal.symm, other⟩, fun id reduced => ?_⟩
      rw [(tied equal.symm).2 assoc] at reduced
      cases reduced
  · refine ⟨fun target shifted => ?_, fun _ _ => .inl more⟩
    rw [higher more] at shifted
    cases shifted

end OperatorGrammar

end CanonicalLR
