import CanonicalLR.Proofs.OperatorGrammars
import CanonicalLR.Proofs.ParseTrees

/-!
# Operators are grouped by precedence

What a parser for an operator grammar has on its stack is a row of open parentheses and of left
operands with their operators, and the operand that it is about to read or has just read. Each
operator on the stack may stand to the right of the one before it, for else that one would have been
reduced when the operator was the next terminal; and the operation that has just been reduced may
stand to the left of the next operator, for else that one would have been shifted. So every
operation that is reduced has operands that are grouped under it. No sentence is refused, since in
every stage the next terminal is one that the items ask for.
-/
namespace CanonicalLR

open OperatorTerminals (operation)

/-! ### Trees -/

/-- The two sides of an operator are of the rule's own kind. -/
def Rule.Binary (r : Rule) (op : TerminalId) : Prop := r.right = operation r.left op

namespace Tree

/-- The tree is an operation that is not in parentheses. -/
def Operates (g : Grammar) (op : TerminalId) : Tree → Prop
  | leaf _ => False
  | node rule _ => (g.rule rule).Binary op

/-- Every operation in the tree has operands that may be grouped under it. -/
inductive Grouped (g : Grammar) : Tree → Prop where
  | leaf (t : TerminalId) : Grouped g (leaf t)
  | operation {rule : RuleId} {op : TerminalId} {left right : Tree}
      (binary : (g.rule rule).Binary op) (left_grouped : Grouped g left)
      (right_grouped : Grouped g right)
      (groups_left : ∀ op₁, left.Operates g op₁ → g.GroupsLeft op op₁)
      (groups_right : ∀ op₂, right.Operates g op₂ → g.GroupsRight op op₂) :
      Grouped g (node rule [left, leaf op, right])
  | other {rule : RuleId} {children : List Tree} (plain : ∀ op, ¬ (g.rule rule).Binary op)
      (each : ∀ child ∈ children, Grouped g child) : Grouped g (node rule children)

end Tree

/-! ### Stacks -/

namespace Frame

/-- The operator that the next operand comes after, unless a parenthesis is between them. -/
def outer? : List Frame → Option TerminalId
  | operand _ op :: _ => some op
  | _ => none

/-- The trees of the frames, the latest first. -/
def trees (o : OperatorTerminals) : List Frame → List Tree
  | [] => []
  | paren :: frames => .leaf o.lparen :: trees o frames
  | operand left op :: frames => .leaf op :: left :: trees o frames

/-- The operators of the frames may be grouped under each other. -/
inductive Stacked (g : Grammar) (o : OperatorTerminals) : List Frame → Prop where
  | nil : Stacked g o []
  | paren {frames : List Frame} (below : Stacked g o frames) : Stacked g o (paren :: frames)
  | operand {frames : List Frame} {left : Tree} {op : TerminalId} (below : Stacked g o frames)
      (member : op ∈ o.operators) (grouped : left.Grouped g)
      (groups_left : ∀ op₁, left.Operates g op₁ → g.GroupsLeft op op₁)
      (groups_right : ∀ op₀ ∈ outer? frames, g.GroupsRight op₀ op) :
      Stacked g o (operand left op :: frames)

theorem Stacked.known {g : Grammar} {o : OperatorTerminals} {frames : List Frame}
    (stacked : Stacked g o frames) : ∀ frame ∈ frames, frame.Known o := by
  induction stacked with
  | nil => simp
  | paren below ih => simpa [Known] using ih
  | operand below member _ _ _ ih => simpa [Known, member] using ih

end Frame

/-- How far an operand has been read. -/
inductive Stage where
  | before
  | number
  | parens (t : Tree)
  | operand (t : Tree)

namespace Stage

variable (g : Grammar) (o : OperatorTerminals)

def place : Stage → Place
  | before => .operand
  | number | parens _ | operand _ => .operator

def symbols : Stage → List Symbol
  | before => []
  | number => [.terminal o.number]
  | parens _ => o.parens g.start
  | operand _ => [.nonterminal g.start]

/-- The trees of what has been read, the latest first. -/
def trees : Stage → List Tree
  | before => []
  | number => [.leaf o.number]
  | parens t => [.leaf o.rparen, t, .leaf o.lparen]
  | operand t => [t]

/-- An operand may stand to the right of the operator that it comes after, and to the left of the
next terminal. -/
def Fits (frames : List Frame) (next : TerminalId) : Stage → Prop
  | before | number => True
  | parens t => t.Grouped g
  | operand t => t.Grouped g ∧ ∀ op, t.Operates g op →
      (∀ op₀ ∈ Frame.outer? frames, g.GroupsRight op₀ op) ∧
        (next ∈ o.operators → g.GroupsLeft next op)

/-- How many reductions it takes at most to read the operand. -/
def reductions : Stage → Nat
  | before | operand _ => 0
  | number | parens _ => 1

end Stage

/-- What is on the stack of a parser in a stage, and what may still come. -/
structure Stands (g : Grammar) (o : OperatorTerminals) (frames : List Frame) (stage : Stage)
    (c : Parser.Config) : Prop where
  stacked : Frame.Stacked g o frames
  spells : Parser.Spells (.ofGrammar g) (Frame.spelled o g.start frames ++ stage.symbols g o)
    c.stack
  scans : Scans o g.start stage.place (Frame.depth frames) (c.input.map .terminal)
  fits : stage.Fits g o frames c.lookahead

/-- How many moves may still be made. -/
def movesLeft (frames : List Frame) (stage : Stage) (input : List TerminalId) : Nat :=
  2 * input.length + frames.length + stage.reductions

/-! ### Runs -/

namespace Parser

variable {g : Grammar} {o : OperatorTerminals} {built : Construction} {c c' : Config}
  {ts : List Tree}

/-- The parser accepts, and its moves make the trees one that is grouped. -/
def Succeeds (g : Grammar) (t : Table) (c : Config) (ts : List Tree) : Prop :=
  ∃ fuel moves tree, run g t fuel c = some (.ok moves) ∧ moves.foldl (Tree.grow g) ts = [tree] ∧
    tree.Grouped g

theorem succeeds_of_next {t : Table} {move : Move} (stepped : step g t c = .next move c')
    (onward : Succeeds g t c' (Tree.grow g ts move)) : Succeeds g t c ts :=
  SucceedsWith.of_next stepped onward

theorem succeeds_of_accept {t : Table} {tree : Tree} (accepts : step g t c = .accept)
    (grouped : tree.Grouped g) : Succeeds g t c [tree] :=
  SucceedsWith.of_accept accepts grouped

end Parser

/-! ### Stages -/

namespace OperatorGrammar

open CanonicalLR.Parser

variable {g : Grammar} {o : OperatorTerminals} {built : Construction} {frames : List Frame}
  {s : StateId} {below : List StateId} {input : List TerminalId} {t : Tree}

/-- Where the parser stands with fewer moves left, it succeeds. -/
def SucceedsWithin (g : Grammar) (o : OperatorTerminals) (table : Table) (n : Nat) : Prop :=
  ∀ frames stage c, Stands g o frames stage c → movesLeft frames stage c.input < n →
    Succeeds g table c (stage.trees o ++ Frame.trees o frames)

variable (grammar : OperatorGrammar g o) (augmented : g.Augmented)
  (constructed : g.construct = .ok built)

include grammar augmented constructed

/-- Where an item asks for the next terminal, a parser accepts, shifts the terminal or reduces by a
rule for expressions. -/
theorem step_of_asked {u : List Symbol} (spells : Spells (.ofGrammar g) u (s :: below))
    (asked : Asked g u (input.headD .eoi)) :
    (u = [.nonterminal g.start] ∧ step g built.table ⟨s :: below, input⟩ = .accept) ∨
    (∃ t rest target j, input = t :: rest ∧ Valid g u j ∧ j.next? g = some (.terminal t) ∧
      built.table.action s t = some (.shift target) ∧
      Spells (.ofGrammar g) (u ++ [.terminal t]) (target :: s :: below) ∧
      step g built.table ⟨s :: below, input⟩ = .next (.shift t) ⟨target :: s :: below, rest⟩) ∨
    ∃ id r v stack', g.rules[id]? = some r ∧ r.left = g.start ∧ r.right ∈ o.rights g.start ∧
      u = v ++ r.right ∧ built.table.action s (input.headD .eoi) = some (.reduce id) ∧
      Spells (.ofGrammar g) (v ++ [.nonterminal g.start]) stack' ∧
      step g built.table ⟨s :: below, input⟩ = .next (.reduce id) ⟨stack', input⟩ := by
  rcases Parser.step_of_asked augmented constructed spells asked with
    accepted | shifted | ⟨id, r, v, stack', found, proper, whole, action, onward, stepped⟩
  · exact .inl accepted
  · exact .inr (.inl shifted)
  · obtain ⟨left, among⟩ := grammar.offers.sides_of_found found proper
    rw [left] at onward
    exact .inr (.inr ⟨id, r, v, stack', found, left, among, whole, action, onward, stepped⟩)

/-- Before an operand a number or an opening parenthesis is shifted. -/
theorem succeeds_before (stands : Stands g o frames .before ⟨s :: below, input⟩)
    (within : SucceedsWithin g o built.table (movesLeft frames .before input)) :
    Succeeds g built.table ⟨s :: below, input⟩ (Frame.trees o frames) := by
  have known := stands.stacked.known
  have spells := stands.spells
  rw [Stage.symbols, List.append_nil] at spells
  have asked : Asked g (Frame.spelled o g.start frames) (input.headD .eoi) := by
    -- What comes next begins a right side.
    cases input with
    | nil => cases stands.scans
    | cons t rest =>
      cases stands.scans with
      | number =>
        obtain ⟨i, valid, next⟩ := grammar.exists_next augmented known (x := []) number_mem
        exact ⟨i, by simpa using valid, .inl next⟩
      | opening =>
        obtain ⟨i, valid, next⟩ := grammar.exists_next augmented known (x := []) parens_mem
        exact ⟨i, by simpa using valid, .inl next⟩
  rcases grammar.step_of_asked augmented constructed spells asked with
    ⟨whole, _⟩ | ⟨t, rest, target, _, rfl, _, _, _, onward, stepped⟩ |
    ⟨_, r, v, _, _, _, among, whole, _⟩
  · rcases Frame.spelled_eq_concat (v := []) whole with ⟨_, _, same, _⟩ | ⟨_, _, _, _, same, _⟩
    · cases same
    · cases same
  · refine succeeds_of_next stepped ?_
    cases stands.scans with
    | number scans =>
      refine within frames .number _ ⟨stands.stacked, onward, scans, trivial⟩ ?_
      simp only [movesLeft, Stage.reductions, List.length_cons]
      omega
    | opening scans =>
      refine within (.paren :: frames) .before _ ⟨.paren stands.stacked, ?_, scans, trivial⟩ ?_
      · simpa [Frame.spelled, Stage.symbols] using onward
      · simp only [movesLeft, Stage.reductions, List.length_cons]
        omega
  · exact absurd whole (grammar.spelled_ne_right known among)

/-- A number or an expression in parentheses is reduced, and then is an operand that fits
anywhere. -/
theorem succeeds_primary {right : List Symbol} (children : List Tree) {n : Nat}
    (among : right ∈ o.rights g.start) (primary : right.getLast? ≠ some (.nonterminal g.start))
    (width : children.length = right.length) (each : ∀ child ∈ children, child.Grouped g)
    (stacked : Frame.Stacked g o frames)
    (spells : Spells (.ofGrammar g) (Frame.spelled o g.start frames ++ right) (s :: below))
    (scans : Scans o g.start .operator (Frame.depth frames) (input.map .terminal))
    (within : SucceedsWithin g o built.table n) (fewer : 2 * input.length + frames.length < n) :
    Succeeds g built.table ⟨s :: below, input⟩ (children.reverse ++ Frame.trees o frames) := by
  have asked : Asked g (Frame.spelled o g.start frames ++ right) (input.headD .eoi) := by
    obtain ⟨i, valid, complete, lookahead, proper⟩ :=
      grammar.exists_complete augmented stacked.known among scans.headD_of_operator
    exact ⟨i, valid, .inr ⟨complete, lookahead, fun same => absurd same proper⟩⟩
  have last := getLast_of_right among (u := Frame.spelled o g.start frames ++ right) rfl
  rcases grammar.step_of_asked augmented constructed spells asked with
    ⟨whole, _⟩ | ⟨t, rest, target, j, rfl, valid, next, _, _, _⟩ |
    ⟨id, r, v, stack', found, left, among', whole, _, onward, stepped⟩
  · rw [whole] at last
    exact absurd last.symm primary
  · rcases grammar.concat_of_next augmented valid next scans.head_of_operator with
      ⟨_, v, whole⟩ | ⟨_, v, whole⟩
    all_goals
      rw [whole, List.getLast?_concat] at last
      exact absurd last.symm primary
  · obtain ⟨rfl, rfl⟩ := grammar.eq_of_primary among among' primary whole
    refine succeeds_of_next stepped ?_
    -- The rule is not that of an operation, since it does not end in an expression.
    have plain (op : TerminalId) : ¬ (g.rule id).Binary op := by
      rw [Grammar.rule_of_getElem? found, Rule.Binary, left]
      intro same
      rw [same] at primary
      exact primary rfl
    have grown : Tree.grow g (children.reverse ++ Frame.trees o frames) (.reduce id) =
        .node id children :: Frame.trees o frames := by
      simp [Tree.grow, Grammar.rule_of_getElem? found, ← width]
    have fits : (Stage.operand (.node id children)).Fits g o frames (input.headD .eoi) :=
      ⟨.other plain each, fun op operates => absurd operates (plain op)⟩
    rw [grown]
    exact within frames (.operand (.node id children)) ⟨stack', input⟩
      ⟨stacked, onward, scans, fits⟩ fewer

omit constructed in
/-- After an operand every operator is asked for, and what closes the expression. -/
theorem asked_operand {next : TerminalId} (known : ∀ frame ∈ frames, frame.Known o)
    (follows : next ∈ o.operators ∨ next = o.closer (Frame.depth frames)) :
    Asked g (Frame.spelled o g.start frames ++ [.nonterminal g.start]) next := by
  rcases follows with member | rfl
  · obtain ⟨i, valid, next⟩ := grammar.exists_next augmented known
      (x := [.nonterminal g.start]) (operation_mem member)
    exact ⟨i, valid, .inl next⟩
  · -- What closes the expression is found in the latest frame.
    cases frames with
    | nil =>
      obtain ⟨i, valid, complete, lookahead, _⟩ :=
        (grammar.markersFit augmented).exists_complete augmented.accepting Valid.start
      exact ⟨i, valid, .inr ⟨complete, lookahead, fun _ => rfl⟩⟩
    | cons frame frames =>
      have earlier := fun frame member => known frame (List.mem_cons_of_mem _ member)
      cases frame with
      | paren =>
        obtain ⟨i, valid, next⟩ := grammar.exists_next augmented earlier
          (x := [.terminal o.lparen, .nonterminal g.start]) parens_mem
        exact ⟨i, by simpa [Frame.spelled] using valid, .inl next⟩
      | operand left op =>
        obtain ⟨i, valid, complete, lookahead, proper⟩ := grammar.exists_complete augmented earlier
          (operation_mem (known _ List.mem_cons_self)) (.inr rfl)
        rw [← spelled_operand] at valid
        exact ⟨i, valid, .inr ⟨complete, lookahead, fun same => absurd same proper⟩⟩

section Operand

variable (stands : Stands g o frames (.operand t) ⟨s :: below, input⟩)
  (within : SucceedsWithin g o built.table (movesLeft frames (.operand t) input))

include stands within

/-- An operator is shifted only if it may be on the right of the one before it. -/
theorem succeeds_of_operator {op : TerminalId} {rest : List TerminalId} {target : StateId}
    (read : input = op :: rest) (member : op ∈ o.operators)
    (scans : Scans o g.start .operand (Frame.depth frames) (rest.map .terminal))
    (action : built.table.action s op = some (.shift target))
    (onward : Spells (.ofGrammar g)
      (Frame.spelled o g.start frames ++ [.nonterminal g.start] ++ [.terminal op])
      (target :: s :: below)) :
    Succeeds g built.table ⟨target :: s :: below, rest⟩
      (.leaf op :: t :: Frame.trees o frames) := by
  subst read
  obtain ⟨grouped, fits⟩ := stands.fits
  -- The operation before it could have been reduced instead.
  have groups_right : ∀ op₀ ∈ Frame.outer? frames, g.GroupsRight op₀ op := by
    intro op₀ outer
    cases frames with
    | nil => cases outer
    | cons frame frames =>
      cases frame with
      | paren => cases outer
      | operand left op =>
        cases outer
        have groups := grammar.groups_of_action augmented constructed stands.stacked.known
          stands.spells member
        exact groups.1 target action
  have stacked : Frame.Stacked g o (.operand t op :: frames) :=
    .operand stands.stacked member grouped (fun op₁ operates => (fits op₁ operates).2 member)
      groups_right
  refine within (.operand t op :: frames) .before _ ⟨stacked, ?_, scans, trivial⟩ ?_
  · simpa [Frame.spelled, Stage.symbols] using onward
  · simp only [movesLeft, Stage.reductions, List.length_cons]
    omega

omit augmented constructed in
/-- A closing parenthesis is shifted where the expression is in parentheses. -/
theorem succeeds_of_closing {rest : List TerminalId} {target : StateId} {d : Nat}
    {v : List Symbol} (read : input = o.rparen :: rest) (deep : Frame.depth frames = d + 1)
    (whole : Frame.spelled o g.start frames ++ [.nonterminal g.start] =
      v ++ [.terminal o.lparen] ++ [.nonterminal g.start])
    (scans : Scans o g.start .operator d (rest.map .terminal))
    (onward : Spells (.ofGrammar g)
      (Frame.spelled o g.start frames ++ [.nonterminal g.start] ++ [.terminal o.rparen])
      (target :: s :: below)) :
    Succeeds g built.table ⟨target :: s :: below, rest⟩
      (.leaf o.rparen :: t :: Frame.trees o frames) := by
  subst read
  have front := (List.append_inj' whole rfl).1
  rcases Frame.spelled_eq_concat front with ⟨frames, rfl, _, rfl⟩ | ⟨_, op, _, rfl, same, _⟩
  · obtain rfl := Nat.succ.inj deep
    have stacked : Frame.Stacked g o frames := by
      cases stands.stacked with
      | paren below => exact below
    refine within frames (.parens t) _ ⟨stacked, ?_, scans, stands.fits.1⟩ ?_
    · simpa [Frame.spelled, Stage.symbols, OperatorTerminals.parens] using onward
    · simp only [movesLeft, Stage.reductions, List.length_cons]
      omega
  · have member : op ∈ o.operators := stands.stacked.known _ List.mem_cons_self
    exact absurd (Symbol.terminal.inj same).symm (grammar.operator_ne member).1

/-- An operation is reduced only if it may be on the left of the next operator. -/
theorem succeeds_of_operation {id : RuleId} {r : Rule} {v : List Symbol} {stack' : List StateId}
    (found : g.rules[id]? = some r) (start : r.left = g.start) (among : r.right ∈ o.rights g.start)
    (whole : Frame.spelled o g.start frames ++ [.nonterminal g.start] = v ++ r.right)
    (action : built.table.action s (input.headD .eoi) = some (.reduce id))
    (onward : Spells (.ofGrammar g) (v ++ [.nonterminal g.start]) stack') :
    Succeeds g built.table ⟨stack', input⟩
      (Tree.grow g (t :: Frame.trees o frames) (.reduce id)) := by
  obtain ⟨left, op, earlier, rfl, member, right, rfl⟩ := grammar.eq_of_expression among whole
  obtain ⟨grouped, fits⟩ := stands.fits
  have grown : Tree.grow g (t :: Frame.trees o (.operand left op :: earlier)) (.reduce id) =
      .node id [left, .leaf op, t] :: Frame.trees o earlier := by
    rw [Tree.grow, Grammar.rule_of_getElem? found, right]
    rfl
  have binary : (g.rule id).Binary op := by
    rw [Grammar.rule_of_getElem? found, Rule.Binary, start, right]
  have only (op' : TerminalId) (other : (g.rule id).Binary op') : op' = op := by
    rw [Rule.Binary, binary] at other
    simpa [operation, eq_comm] using other
  cases stands.stacked with
  | operand stacked _ left_grouped groups_left groups_right =>
    have fits' : (Stage.operand (.node id [left, .leaf op, t])).Fits g o earlier
        (input.headD .eoi) := by
      refine ⟨.operation binary left_grouped grouped groups_left ?_, fun op' operates => ?_⟩
      · exact fun op₂ operates => (fits op₂ operates).1 op rfl
      · -- An operator that comes next could have been shifted instead.
        obtain rfl := only op' operates
        refine ⟨groups_right, fun next => ?_⟩
        have groups := grammar.groups_of_action augmented constructed stands.stacked.known
          stands.spells next
        exact groups.2 id action
    rw [grown]
    refine within earlier (.operand (.node id [left, .leaf op, t])) ⟨stack', input⟩
      ⟨stacked, onward, stands.scans, fits'⟩ ?_
    simp only [movesLeft, Stage.reductions, List.length_cons]
    omega

/-- After an operand the next operator is shifted or the operation reduced that the operand is on
the right of, and at the end of an expression it is closed. -/
theorem succeeds_operand :
    Succeeds g built.table ⟨s :: below, input⟩ (t :: Frame.trees o frames) := by
  have asked := grammar.asked_operand augmented stands.stacked.known
    stands.scans.headD_of_operator
  rcases grammar.step_of_asked augmented constructed stands.spells asked with
    ⟨whole, stepped⟩ | ⟨next, rest, target, j, read, valid, reads, action, onward, stepped⟩ |
    ⟨id, r, v, stack', found, start, among, whole, action, onward, stepped⟩
  · -- Nothing is on the stack but the operand.
    obtain rfl : frames = [] := by
      cases frames with
      | nil => rfl
      | cons frame frames =>
        have short := congrArg List.length whole
        cases frame <;> simp [Frame.spelled, Stage.symbols] at short
    exact succeeds_of_accept stepped stands.fits.1
  · refine succeeds_of_next stepped ?_
    have scans := stands.scans
    rw [read] at scans
    generalize deep : Frame.depth frames = d at scans
    cases scans with
    | operator member scans =>
      exact grammar.succeeds_of_operator augmented constructed stands within read member
        (deep ▸ scans) action onward
    | closing scans =>
      rcases grammar.concat_of_next augmented valid reads (.inr rfl) with
        ⟨member, _⟩ | ⟨_, v, whole⟩
      · exact absurd rfl (grammar.operator_ne member).2.1
      · exact grammar.succeeds_of_closing stands within read deep whole scans onward
  · exact succeeds_of_next stepped
      (grammar.succeeds_of_operation augmented constructed stands within found start among whole
        action onward)

end Operand

/-- Wherever a parser stands, it succeeds. -/
theorem succeeds_of_stands {stage : Stage} {c : Config} (stands : Stands g o frames stage c) :
    Succeeds g built.table c (stage.trees o ++ Frame.trees o frames) := by
  -- By the moves left: each stage leads to one with fewer of them.
  induction left : movesLeft frames stage c.input using Nat.strongRecOn
    generalizing frames stage c with
  | ind n ih =>
    subst left
    have within : SucceedsWithin g o built.table (movesLeft frames stage c.input) :=
      fun frames' stage' c' stands' fewer => ih _ fewer stands' rfl
    obtain ⟨stack, input⟩ := c
    obtain ⟨s, below, rfl⟩ := stands.spells.exists_top
    cases stage with
    | before => exact grammar.succeeds_before augmented constructed stands within
    | number =>
      exact grammar.succeeds_primary augmented constructed [.leaf o.number]
        number_mem (by simp) rfl (by simpa using .leaf o.number)
        stands.stacked stands.spells stands.scans within (Nat.lt_succ_self _)
    | parens t =>
      have each : ∀ child ∈ [.leaf o.lparen, t, .leaf o.rparen], child.Grouped g := by
        simpa using ⟨.leaf o.lparen, stands.fits, .leaf o.rparen⟩
      exact grammar.succeeds_primary augmented constructed _
        parens_mem (by simp [OperatorTerminals.parens]) rfl each
        stands.stacked stands.spells stands.scans within (Nat.lt_succ_self _)
    | operand t => exact grammar.succeeds_operand augmented constructed stands within

end OperatorGrammar

namespace Grammar

variable {ds : List Declaration} {g : Grammar} {o : OperatorTerminals}

/-- Every sentence of an operator grammar is accepted, and its tree has operands that are grouped as
the precedences say. -/
theorem operators_group_by_precedence (defined : defineAccepted ds = .ok g)
    (fits : NumbersFit ds) (grammar : OperatorGrammar g o) :
    ∃ built, g.construct = .ok built ∧ ∀ tokens, g.Sentence tokens →
      ∃ fuel moves tree, built.table.parse? g fuel tokens = some (.ok moves) ∧
        Tree.ofMoves? g moves = some tree ∧ tree.Parses g ∧
        tree.root g = .nonterminal g.start ∧ tree.leaves = tokens ∧ tree.Grouped g := by
  have augmented := augmented_of_defined defined fits
  obtain ⟨built, constructed⟩ := augmented.exists_construct
  refine ⟨built, constructed, fun tokens sentence => ?_⟩
  have stands : Stands g o [] .before (.initial tokens) :=
    ⟨.nil, .initial, grammar.scans_of_derives augmented sentence, trivial⟩
  obtain ⟨fuel, moves, tree, finished, grown, grouped⟩ :=
    grammar.succeeds_of_stands augmented constructed stands
  have left : moves.foldl (Tree.grow g) [] = [tree] := grown
  have made : Tree.ofMoves? g moves = some tree := by rw [Tree.ofMoves?, left]
  obtain ⟨parses, root, leaves⟩ := Parser.parses_of_accepted augmented constructed
    (augmented.eoi_not_mem_of_sentence sentence) finished made
  exact ⟨fuel, moves, tree, finished, made, parses, root, leaves, grouped⟩

/-- In a sum of a number and a product the product is on the right. -/
theorem operators_group_by_precedence_arithmetic :
    let g := Examples.grammarOf Examples.arithmetic
    let o : OperatorTerminals :=
      { operators := [3, 4], lparen := 5, rparen := 6, number := 7 }
    let tokens : List TerminalId := [7, 3, 7, 4, 7]
    defineAccepted Examples.arithmetic = .ok g ∧ NumbersFit Examples.arithmetic ∧
      OperatorGrammar g o ∧ g.Sentence tokens ∧ ∃ built, g.construct = .ok built ∧
        ∃ fuel moves tree, built.table.parse? g fuel tokens = some (.ok moves) ∧
          Tree.ofMoves? g moves = some tree ∧ tree.Parses g ∧
          tree.root g = .nonterminal g.start ∧ tree.leaves = tokens ∧ tree.Grouped g := by
  intro g o tokens
  have defined : defineAccepted Examples.arithmetic = .ok g := rfl
  have fits : NumbersFit Examples.arithmetic := by decide +kernel
  have grammar : OperatorGrammar g o :=
    ⟨by decide +kernel, by decide +kernel, by decide +kernel, by decide +kernel, by decide +kernel⟩
  obtain ⟨built, constructed, groups⟩ := operators_group_by_precedence defined fits grammar
  -- A run that accepts derives the sentence.
  have run : g.construct.toOption.map (fun b => b.table.parse? g 11 tokens) =
      some (some (.ok [.shift 7, .reduce 4, .shift 3, .shift 7, .reduce 4, .shift 4, .shift 7,
        .reduce 4, .reduce 2, .reduce 1, .accept])) := by
    decide +kernel
  rw [constructed] at run
  obtain ⟨_, _, derivation⟩ := Parser.run_sound (augmented_of_defined defined fits)
    constructed .initial (Option.some.inj run)
  have sentence : g.Sentence tokens := derivation.derives
  exact ⟨defined, fits, grammar, sentence, built, constructed, groups tokens sentence⟩

end Grammar

end CanonicalLR
