import CanonicalLR.Table.Basic

/-!
# Table-driven parsing

A parser has a stack of states and the rest of its input, which the end of the input follows without
limit. It makes the moves that the table tells it until it accepts or has no move left. Since a
table with settled conflicts may reduce without end, a run is limited to a number of moves; a run
that reaches the limit has no outcome.
-/
namespace CanonicalLR

inductive Move where
  | shift (t : TerminalId)
  | reduce (rule : RuleId)
  | accept
deriving DecidableEq, Repr

namespace Parser

structure Config where
  /-- The states entered, the latest first. -/
  stack : List StateId
  input : List TerminalId
deriving DecidableEq, Repr

def Config.initial (input : List TerminalId) : Config := ⟨[.initial], input⟩

def Config.lookahead (c : Config) : TerminalId := c.input.headD .eoi

inductive Step where
  | next (move : Move) (c : Config)
  | accept
  | fail (e : ParseError)
deriving DecidableEq, Repr

/-- Take a rule's right side off the stack and enter the state for its left side. -/
def reduce (g : Grammar) (t : Table) (c : Config) (rule : RuleId) : Step :=
  match c.stack.drop (g.rule rule).right.length with
  | [] => .fail .emptyStack
  | top :: below =>
    match t.goto top (g.rule rule).left with
    | none => .fail (.missingGoto top (g.nonterminalName (g.rule rule).left))
    | some next => .next (.reduce rule) { c with stack := next :: top :: below }

def step (g : Grammar) (t : Table) (c : Config) : Step :=
  match c.stack with
  | [] => .fail .emptyStack
  | current :: _ =>
    match t.action current c.lookahead with
    | some (.shift target) =>
      .next (.shift c.lookahead) { stack := target :: c.stack, input := c.input.tail }
    | some (.reduce rule) => reduce g t c rule
    | some .accept => .accept
    | none => .fail (.unexpectedToken current (g.terminalName c.lookahead))

/-- The moves of a run up to its acceptance, or the error that ends it. -/
def run (g : Grammar) (t : Table) : Nat → Config → Option (Except ParseError (List Move))
  | 0, _ => none
  | fuel + 1, c =>
    match step g t c with
    | .accept => some (.ok [.accept])
    | .fail e => some (.error e)
    | .next move c' => (run g t fuel c').map fun result => result.map (move :: ·)

/-- More fuel keeps the outcome of a run. -/
theorem run_mono (g : Grammar) (t : Table) {fuel more : Nat} {c : Config}
    {result : Except ParseError (List Move)} (enough : fuel ≤ more)
    (finished : run g t fuel c = some result) : run g t more c = some result := by
  induction fuel generalizing more c result with
  | zero => simp [run] at finished
  | succ fuel ih =>
    obtain ⟨more, rfl⟩ := Nat.exists_eq_add_of_le enough
    rw [Nat.add_right_comm, run]
    rw [run] at finished
    cases stepped : step g t c with
    | accept => simpa [stepped] using finished
    | fail e => simpa [stepped] using finished
    | next move c' =>
      simp only [stepped] at finished ⊢
      obtain ⟨rest, rest_finished, combined⟩ := Option.map_eq_some_iff.mp finished
      rw [ih (Nat.le_add_right fuel more) rest_finished, Option.map_some, combined]

/-- The outcome of a run does not depend on its limit. -/
theorem run_unique {g : Grammar} {t : Table} {fuel fuel' : Nat} {c : Config}
    {result result' : Except ParseError (List Move)} (finished : run g t fuel c = some result)
    (finished' : run g t fuel' c = some result') : result = result' := by
  have first := run_mono g t (Nat.le_max_left fuel fuel') finished
  have second := run_mono g t (Nat.le_max_right fuel fuel') finished'
  exact Option.some.inj (first.symm.trans second)

theorem run_of_next {g : Grammar} {t : Table} {fuel : Nat} {c c' : Config} {move : Move}
    {moves : List Move} (stepped : step g t c = .next move c')
    (finished : run g t fuel c' = some (.ok moves)) :
    run g t (fuel + 1) c = some (.ok (move :: moves)) := by
  simp [run, stepped, finished, Except.map]

/-- An accepting run accepts at once or makes a move and then accepts. -/
theorem run_ok_cases {g : Grammar} {t : Table} {fuel : Nat} {c : Config} {moves : List Move}
    (finished : run g t (fuel + 1) c = some (.ok moves)) :
    step g t c = .accept ∧ moves = [.accept] ∨
      ∃ move c' rest, step g t c = .next move c' ∧ moves = move :: rest ∧
        run g t fuel c' = some (.ok rest) := by
  rw [run] at finished
  cases stepped : step g t c with
  | accept =>
    rw [stepped] at finished
    cases finished
    exact .inl ⟨rfl, rfl⟩
  | fail e =>
    rw [stepped] at finished
    cases finished
  | next move c' =>
    simp only [stepped, Option.map_eq_some_iff] at finished
    obtain ⟨result, rest_finished, combined⟩ := finished
    cases result with
    | error e => cases combined
    | ok rest =>
      cases combined
      exact .inr ⟨move, c', rest, rfl, rfl, rest_finished⟩

end Parser

/-- Parse a list of terminals in at most so many moves. -/
def Table.parse? (t : Table) (g : Grammar) (fuel : Nat) (input : List TerminalId) :
    Option (Except ParseError (List Move)) :=
  Parser.run g t fuel (.initial input)

/-- The terminals that some moves shift. -/
def shiftedTerminals (moves : List Move) : List TerminalId :=
  moves.filterMap fun
    | .shift t => some t
    | _ => none

/-- The rules that some moves reduce by. -/
def reducedRules (moves : List Move) : List RuleId :=
  moves.filterMap fun
    | .reduce rule => some rule
    | _ => none

section

variable (t : TerminalId) (rule : RuleId) (moves : List Move)

@[simp] theorem shiftedTerminals_nil : shiftedTerminals [] = [] := rfl

@[simp] theorem shiftedTerminals_append (more : List Move) :
    shiftedTerminals (moves ++ more) = shiftedTerminals moves ++ shiftedTerminals more :=
  List.filterMap_append

@[simp] theorem shiftedTerminals_shift :
    shiftedTerminals (.shift t :: moves) = t :: shiftedTerminals moves := rfl

@[simp] theorem shiftedTerminals_reduce :
    shiftedTerminals (.reduce rule :: moves) = shiftedTerminals moves := rfl

@[simp] theorem shiftedTerminals_accept : shiftedTerminals [.accept] = [] := rfl

@[simp] theorem shiftedTerminals_map_shift (ts : List TerminalId) :
    shiftedTerminals (ts.map .shift) = ts := by
  induction ts with
  | nil => rfl
  | cons t ts ih => rw [List.map_cons, shiftedTerminals_shift, ih]

@[simp] theorem reducedRules_append (more : List Move) :
    reducedRules (moves ++ more) = reducedRules moves ++ reducedRules more :=
  List.filterMap_append

@[simp] theorem reducedRules_shift :
    reducedRules (.shift t :: moves) = reducedRules moves := rfl

@[simp] theorem reducedRules_reduce :
    reducedRules (.reduce rule :: moves) = rule :: reducedRules moves := rfl

@[simp] theorem reducedRules_accept : reducedRules [.accept] = [] := rfl

@[simp] theorem reducedRules_map_shift (ts : List TerminalId) :
    reducedRules (ts.map .shift) = [] := by
  induction ts with
  | nil => rfl
  | cons t ts ih => rw [List.map_cons, reducedRules_shift, ih]

end

def reductionTexts (g : Grammar) (moves : List Move) : List String :=
  (reducedRules moves).map fun rule => g.ruleText (g.rule rule)

end CanonicalLR
