import CanonicalLR.Examples.Small
import CanonicalLR.Proofs.ElseGrammars
import CanonicalLR.Proofs.ParseTrees

/-!
# Every else belongs to the nearest condition

What a parser has on its stack before a statement is a row of conditions and of conditions with a
statement and an else. An else is shifted as soon as it comes next behind a condition and a
statement. So a condition is left without a branch only where no else comes next, and a statement
between a condition and its else does not end in such a condition: the else would have been taken
for the branch of that one. No sentence is refused for this, since what may come next depends on how
many conditions have no branch, and not on which they are.
-/
namespace CanonicalLR

/-! ### Trees -/

namespace Tree

/-- The tree is on the right spine of another one, the path that follows the last child of each
node. -/
inductive OnSpine (t : Tree) : Tree → Prop where
  | here : OnSpine t t
  | last {rule : RuleId} {children : List Tree} {child : Tree}
      (last : children.getLast? = some child) (below : OnSpine t child) :
      OnSpine t (node rule children)

/-- The tree is part of another one. -/
inductive Within (t : Tree) : Tree → Prop where
  | here : Within t t
  | under {rule : RuleId} {children : List Tree} {child : Tree} (member : child ∈ children)
      (inside : Within t child) : Within t (node rule children)

variable (g : Grammar) (k : ElseTerminals)

/-- On the right spine of the tree there is a condition without a branch. -/
def LacksElse (t : Tree) : Prop :=
  ∃ rule children, (node rule children).OnSpine t ∧ (g.rule rule).right = k.short g.start

/-- No statement between a condition and its else ends in a condition without a branch. -/
def BindsElse (t : Tree) : Prop :=
  ∀ rule children first, (node rule children).Within t → (g.rule rule).right = k.full g.start →
    children[1]? = some first → ¬ first.LacksElse g k

variable {g k} {rule : RuleId} {children : List Tree}

theorem not_lacksElse_leaf (t : TerminalId) : ¬ (leaf t).LacksElse g k := by
  rintro ⟨_, _, spine, _⟩
  cases spine

theorem bindsElse_leaf (t : TerminalId) : (leaf t).BindsElse g k := by
  intro _ _ _ inside
  cases inside

theorem lacksElse_node_iff : (node rule children).LacksElse g k ↔
    (g.rule rule).right = k.short g.start ∨
      ∃ child, children.getLast? = some child ∧ child.LacksElse g k := by
  constructor
  · rintro ⟨rule', children', spine, right⟩
    cases spine with
    | here => exact .inl right
    | last last below => exact .inr ⟨_, last, rule', children', below, right⟩
  · rintro (right | ⟨child, last, rule', children', below, right⟩)
    · exact ⟨rule, children, .here, right⟩
    · exact ⟨rule', children', .last last below, right⟩

theorem bindsElse_node_iff : (node rule children).BindsElse g k ↔
    ((g.rule rule).right = k.full g.start →
        ∀ first, children[1]? = some first → ¬ first.LacksElse g k) ∧
      ∀ child ∈ children, child.BindsElse g k := by
  constructor
  · intro binds
    constructor
    · intro right first second
      exact binds rule children first .here right second
    · intro child member rule' children' first inside
      exact binds rule' children' first (.under member inside)
  · rintro ⟨here, below⟩ rule' children' first inside right second
    cases inside with
    | here => exact here right first second
    | under member inside => exact below _ member rule' children' first inside right second

end Tree

namespace ElseGrammar

/-! ### Stacks -/

namespace Frame

/-- The trees of the frames, the latest first. -/
def trees (k : ElseTerminals) : List Frame → List Tree
  | [] => []
  | condition :: frames => .leaf k.condition :: trees k frames
  | alternative first :: frames =>
    .leaf k.alternative :: first :: .leaf k.condition :: trees k frames

/-- The statement before an else does not end in a condition without a branch. -/
def Binds (g : Grammar) (k : ElseTerminals) : Frame → Prop
  | condition => True
  | alternative first => first.BindsElse g k ∧ ¬ first.LacksElse g k

end Frame

/-- How far a statement has been read. -/
inductive Stage where
  | before
  | plain
  | statement (t : Tree)

namespace Stage

variable (g : Grammar) (k : ElseTerminals)

def place : Stage → Place
  | before => .before
  | plain | statement _ => .after

def symbols : Stage → List Symbol
  | before => []
  | plain => [.terminal k.plain]
  | statement _ => [.nonterminal g.start]

def trees : Stage → List Tree
  | before => []
  | plain => [.leaf k.plain]
  | statement t => [t]

/-- A statement that has been read does not end in a condition without a branch if an else comes
next. -/
def Fits (next : TerminalId) : Stage → Prop
  | before | plain => True
  | statement t => t.BindsElse g k ∧ (next = k.alternative → ¬ t.LacksElse g k)

/-- How many reductions it takes to read the statement. -/
def reductions : Stage → Nat
  | before | statement _ => 0
  | plain => 1

end Stage

/-- What is on the stack of a parser in a stage, and what may still come. -/
structure Stands (g : Grammar) (k : ElseTerminals) (frames : List Frame) (stage : Stage)
    (c : Parser.Config) : Prop where
  bind : ∀ frame ∈ frames, frame.Binds g k
  spells : Parser.Spells (.ofGrammar g) (Frame.spelled k g.start frames ++ stage.symbols g k)
    c.stack
  scans : Scans k g.start stage.place (Frame.waiting frames) (c.input.map .terminal)
  fits : stage.Fits g k c.lookahead

/-- How many moves may still be made. -/
def movesLeft (frames : List Frame) (stage : Stage) (input : List TerminalId) : Nat :=
  2 * input.length + frames.length + stage.reductions

/-! ### Stages -/

open CanonicalLR.Parser (Spells SucceedsWith step_of_asked)

variable {g : Grammar} {k : ElseTerminals} {built : Construction} {frames : List Frame}
  {s : StateId} {below : List StateId} {input : List TerminalId} {t : Tree}

/-- Where the parser stands with fewer moves left, it succeeds. -/
def SucceedsWithin (g : Grammar) (k : ElseTerminals) (table : Table) (n : Nat) : Prop :=
  ∀ frames stage c, Stands g k frames stage c → movesLeft frames stage c.input < n →
    SucceedsWith (Tree.BindsElse g k) g table c (stage.trees k ++ Frame.trees k frames)

variable (grammar : ElseGrammar g k) (augmented : g.Augmented)
  (constructed : g.construct = .ok built)

include grammar augmented constructed

/-- Before a statement a condition or a plain statement is shifted. -/
theorem succeeds_before (stands : Stands g k frames .before ⟨s :: below, input⟩)
    (within : SucceedsWithin g k built.table (movesLeft frames .before input)) :
    SucceedsWith (Tree.BindsElse g k) g built.table ⟨s :: below, input⟩ (Frame.trees k frames) := by
  have spells := stands.spells
  rw [Stage.symbols, List.append_nil] at spells
  have asked : Parser.Asked g (Frame.spelled k g.start frames) (input.headD .eoi) := by
    -- What comes next begins a right side.
    cases input with
    | nil => cases stands.scans
    | cons t rest =>
      cases stands.scans with
      | plain => exact grammar.asked_before augmented plain_mem
      | condition => exact grammar.asked_before augmented short_mem
  rcases step_of_asked augmented constructed spells asked with
    ⟨whole, _⟩ | ⟨t, rest, target, _, rfl, _, _, _, onward, stepped⟩ |
    ⟨_, r, v, _, found, proper, whole, _⟩
  · rcases Frame.spelled_eq_concat (v := []) whole with ⟨_, _, same, _⟩ | ⟨_, _, _, same, _⟩
    · cases same
    · cases same
  · apply SucceedsWith.of_next stepped
    cases stands.scans with
    | plain scans =>
      apply within frames .plain ⟨target :: s :: below, rest⟩
        ⟨stands.bind, onward, scans, trivial⟩
      simp only [movesLeft, Stage.reductions, List.length_cons]
      omega
    | condition scans =>
      apply within (.condition :: frames) .before ⟨target :: s :: below, rest⟩
      · refine ⟨by simpa [Frame.Binds] using stands.bind, ?_, scans, trivial⟩
        simpa [Frame.spelled, Stage.symbols] using onward
      · simp only [movesLeft, Stage.reductions, List.length_cons]
        omega
  · have among := (grammar.offers.sides_of_found found proper).2
    exact absurd whole (grammar.spelled_ne_right among)

/-- A plain statement is reduced, and it has no condition at its end. -/
theorem succeeds_plain (stands : Stands g k frames .plain ⟨s :: below, input⟩)
    (within : SucceedsWithin g k built.table (movesLeft frames .plain input)) :
    SucceedsWith (Tree.BindsElse g k) g built.table ⟨s :: below, input⟩
      (.leaf k.plain :: Frame.trees k frames) := by
  have asked := grammar.asked_right augmented plain_mem stands.scans.follows
  rcases step_of_asked augmented constructed stands.spells asked with
    ⟨whole, _⟩ | ⟨t, rest, target, j, rfl, valid, next, _, _, _⟩ |
    ⟨id, r, v, stack', found, proper, whole, _, onward, stepped⟩
  · have alone : Frame.spelled k g.start frames ++ [.terminal k.plain] =
        [] ++ [.nonterminal g.start] := whole
    cases (List.append_inj' alone rfl).2
  · -- An else comes only behind a condition and a statement.
    rw [Scans.eq_alternative stands.scans] at next
    obtain ⟨v, whole⟩ := grammar.concat_of_next augmented valid next
    have same := (eq_of_plain short_mem whole).1
    simp [ElseTerminals.short] at same
  · obtain ⟨left, among⟩ := grammar.offers.sides_of_found found proper
    obtain ⟨right, rfl⟩ := eq_of_plain among whole
    rw [left] at onward
    have same := Grammar.rule_of_getElem? found
    apply SucceedsWith.of_next stepped
    have grown : Tree.grow g (.leaf k.plain :: Frame.trees k frames) (.reduce id) =
        .node id [.leaf k.plain] :: Frame.trees k frames := by
      simp [Tree.grow, same, right]
    have binds : (Tree.node id [.leaf k.plain]).BindsElse g k := by
      rw [Tree.bindsElse_node_iff, same, right]
      simp [ElseTerminals.full, Tree.bindsElse_leaf]
    have closed : ¬ (Tree.node id [.leaf k.plain]).LacksElse g k := by
      rw [Tree.lacksElse_node_iff, same, right]
      simp [ElseTerminals.short, Tree.not_lacksElse_leaf]
    rw [grown]
    exact within frames (.statement (.node id [.leaf k.plain])) ⟨stack', input⟩
      ⟨stands.bind, onward, stands.scans, binds, fun _ => closed⟩ (Nat.lt_succ_self _)

section Statement

variable (stands : Stands g k frames (.statement t) ⟨s :: below, input⟩)
  (within : SucceedsWithin g k built.table (movesLeft frames (.statement t) input))

include stands within

omit augmented constructed in
/-- An else that is shifted belongs to the condition that is the latest frame. -/
theorem succeeds_of_alternative {rest : List TerminalId} {target : StateId} {v : List Symbol}
    {n : Nat} (read : input = k.alternative :: rest) (waiting : Frame.waiting frames = n + 1)
    (whole : Frame.spelled k g.start frames ++ [.nonterminal g.start] = v ++ k.short g.start)
    (scans : Scans k g.start .before n (rest.map .terminal))
    (onward : Spells (.ofGrammar g)
      (Frame.spelled k g.start frames ++ [.nonterminal g.start] ++ [.terminal k.alternative])
      (target :: s :: below)) :
    SucceedsWith (Tree.BindsElse g k) g built.table ⟨target :: s :: below, rest⟩
      (.leaf k.alternative :: t :: Frame.trees k frames) := by
  subst read
  obtain ⟨binds, closed⟩ := stands.fits
  rcases grammar.eq_of_statement short_mem whole with
    ⟨earlier, rfl, _, _⟩ | ⟨_, _, _, same, _⟩
  · have bind := List.forall_mem_cons.mp stands.bind
    apply within (.alternative t :: earlier) .before ⟨target :: s :: below, rest⟩
    · refine ⟨?_, ?_, ?_, trivial⟩
      · exact List.forall_mem_cons.mpr ⟨⟨binds, closed rfl⟩, bind.2⟩
      · simpa [Frame.spelled, Stage.symbols] using onward
      · obtain rfl := Nat.succ.inj waiting
        exact scans
    · simp only [movesLeft, Stage.reductions, List.length_cons]
      omega
  · cases same

omit grammar augmented constructed in
/-- A condition is left without a branch where no else comes next. -/
theorem succeeds_of_short {id : RuleId} {earlier : List Frame} {stack' : List StateId}
    (latest : frames = .condition :: earlier) (right : (g.rule id).right = k.short g.start)
    (other : input.headD .eoi ≠ k.alternative)
    (onward : Spells (.ofGrammar g) (Frame.spelled k g.start earlier ++ [.nonterminal g.start])
      stack') :
    SucceedsWith (Tree.BindsElse g k) g built.table ⟨stack', input⟩
      (Tree.grow g (t :: Frame.trees k frames) (.reduce id)) := by
  subst latest
  obtain ⟨binds, _⟩ := stands.fits
  have bind := List.forall_mem_cons.mp stands.bind
  -- One condition less has no branch, but no else is to come either.
  have scans : Scans k g.start .after (Frame.waiting earlier) (input.map .terminal) := by
    cases input with
    | nil => exact .done
    | cons next rest => exact absurd (Scans.eq_alternative stands.scans) other
  have grown : Tree.grow g (t :: Frame.trees k (.condition :: earlier)) (.reduce id) =
      .node id [.leaf k.condition, t] :: Frame.trees k earlier := by
    simp [Tree.grow, right, ElseTerminals.short, Frame.trees]
  have binds' : (Tree.node id [.leaf k.condition, t]).BindsElse g k := by
    rw [Tree.bindsElse_node_iff, right]
    simp [ElseTerminals.short, ElseTerminals.full, Tree.bindsElse_leaf, binds]
  rw [grown]
  apply within earlier (.statement (.node id [.leaf k.condition, t])) ⟨stack', input⟩
  · exact ⟨bind.2, onward, scans, binds', fun next => absurd next other⟩
  · simp only [movesLeft, Stage.reductions, List.length_cons]
    omega

omit grammar augmented constructed in
/-- A condition with a branch is complete behind the branch. -/
theorem succeeds_of_full {id : RuleId} {first : Tree} {earlier : List Frame}
    {stack' : List StateId} (latest : frames = .alternative first :: earlier)
    (right : (g.rule id).right = k.full g.start)
    (onward : Spells (.ofGrammar g) (Frame.spelled k g.start earlier ++ [.nonterminal g.start])
      stack') :
    SucceedsWith (Tree.BindsElse g k) g built.table ⟨stack', input⟩
      (Tree.grow g (t :: Frame.trees k frames) (.reduce id)) := by
  subst latest
  obtain ⟨binds, closed⟩ := stands.fits
  obtain ⟨⟨first_binds, first_closed⟩, bind⟩ := List.forall_mem_cons.mp stands.bind
  let branch : Tree := .node id [.leaf k.condition, first, .leaf k.alternative, t]
  have grown : Tree.grow g (t :: Frame.trees k (.alternative first :: earlier)) (.reduce id) =
      branch :: Frame.trees k earlier := by
    simp [Tree.grow, right, ElseTerminals.full, Frame.trees, branch]
  have branch_binds : branch.BindsElse g k := by
    rw [Tree.bindsElse_node_iff, right]
    simp [Tree.bindsElse_leaf, binds, first_binds, first_closed]
  have branch_closed (next : input.headD .eoi = k.alternative) : ¬ branch.LacksElse g k := by
    rw [Tree.lacksElse_node_iff, right]
    simp [ElseTerminals.short, ElseTerminals.full, closed next]
  rw [grown]
  apply within earlier (.statement branch) ⟨stack', input⟩
  · exact ⟨bind, onward, stands.scans, branch_binds, branch_closed⟩
  · simp only [movesLeft, Stage.reductions, List.length_cons]
    omega

/-- Behind a statement an else goes to the latest condition, or the latest frame is complete. -/
theorem succeeds_statement :
    SucceedsWith (Tree.BindsElse g k) g built.table ⟨s :: below, input⟩
      (t :: Frame.trees k frames) := by
  have asked := grammar.asked_statement augmented stands.scans.follows
  rcases step_of_asked augmented constructed stands.spells asked with
    ⟨whole, stepped⟩ | ⟨next, rest, target, j, read, valid, reads, _, onward, stepped⟩ |
    ⟨id, r, v, stack', found, proper, whole, action, onward, stepped⟩
  · -- Nothing is on the stack but the statement.
    obtain rfl : frames = [] := by
      cases frames with
      | nil => rfl
      | cons frame frames =>
        have short := congrArg List.length whole
        cases frame <;> simp [Frame.spelled, Stage.symbols] at short
    exact SucceedsWith.of_accept stepped stands.fits.1
  · apply SucceedsWith.of_next stepped
    have scans := stands.scans
    rw [read] at scans
    generalize waiting : Frame.waiting frames = n at scans
    cases scans with
    | alternative scans =>
      obtain ⟨v, whole⟩ := grammar.concat_of_next augmented valid reads
      exact grammar.succeeds_of_alternative stands within read waiting whole scans onward
  · obtain ⟨left, among⟩ := grammar.offers.sides_of_found found proper
    have same := Grammar.rule_of_getElem? found
    rw [left] at onward
    apply SucceedsWith.of_next stepped
    rcases grammar.eq_of_statement among whole with
      ⟨earlier, latest, right, rfl⟩ | ⟨first, earlier, latest, right, rfl⟩
    · refine succeeds_of_short stands within latest (same ▸ right) ?_ onward
      -- The else would have been shifted.
      intro next
      subst latest
      obtain ⟨target, shifted⟩ := grammar.exists_shift augmented constructed stands.spells
      rw [next, shifted] at action
      cases action
    · exact succeeds_of_full stands within latest (same ▸ right) onward

end Statement

/-- Wherever a parser stands, it succeeds. -/
theorem succeeds_of_stands {stage : Stage} {c : Parser.Config}
    (stands : Stands g k frames stage c) :
    SucceedsWith (Tree.BindsElse g k) g built.table c
      (stage.trees k ++ Frame.trees k frames) := by
  -- By the moves left: each stage leads to one with fewer of them.
  induction left : movesLeft frames stage c.input using Nat.strongRecOn
    generalizing frames stage c with
  | ind n ih =>
    subst left
    have within : SucceedsWithin g k built.table (movesLeft frames stage c.input) :=
      fun frames' stage' c' stands' fewer => ih _ fewer stands' rfl
    obtain ⟨stack, input⟩ := c
    obtain ⟨s, below, rfl⟩ := stands.spells.exists_top
    cases stage with
    | before => exact grammar.succeeds_before augmented constructed stands within
    | plain => exact grammar.succeeds_plain augmented constructed stands within
    | statement t => exact grammar.succeeds_statement augmented constructed stands within

/-- Every sentence is accepted, with a tree in which each else belongs to the nearest condition. -/
theorem succeeds_of_sentence {tokens : List TerminalId} (sentence : g.Sentence tokens) :
    SucceedsWith (Tree.BindsElse g k) g built.table (.initial tokens) [] := by
  have stands : Stands g k [] .before (.initial tokens) :=
    ⟨by simp, .initial, grammar.scans_of_derives augmented sentence, trivial⟩
  exact grammar.succeeds_of_stands augmented constructed stands

end ElseGrammar

/-- A parser comes to an end on the terminals of the grammar. It accepts them just if they are a
sentence, and then its moves make a parse tree of them in which no statement between a condition and
its else ends in a condition without a branch. -/
def Table.BindsElse (g : Grammar) (k : ElseTerminals) (table : Table) : Prop :=
  ∀ tokens : List TerminalId, (∀ t ∈ tokens, t ∈ [k.condition, k.alternative, k.plain]) →
    ∃ fuel outcome, table.parse? g fuel tokens = some outcome ∧
      ((∃ moves, outcome = .ok moves) ↔ g.Sentence tokens) ∧
      ∀ moves, outcome = .ok moves → ∃ tree, Tree.ofMoves? g moves = some tree ∧
        tree.Parses g ∧ tree.root g = .nonterminal g.start ∧ tree.leaves = tokens ∧
        tree.BindsElse g k

/-- The terminals of the grammar that leaves open what an else belongs to. -/
def Examples.danglingElseTerminals : ElseTerminals where
  condition := 3
  alternative := 4
  plain := 5

namespace Grammar

variable {ds : List Declaration} {g : Grammar} {k : ElseTerminals} {built : Construction}

theorem Augmented.bindsElse (augmented : g.Augmented) (constructed : g.construct = .ok built)
    (grammar : ElseGrammar g k) : built.table.BindsElse g k := by
  intro tokens among
  have no_end : .eoi ∉ tokens := fun member =>
    grammar.ne_eoi augmented.toWellFormed .eoi (among .eoi member) rfl
  obtain ⟨fuel, outcome, finished⟩ := grammar.offers.halts augmented
    (grammar.markersFit augmented) ElseGrammar.plain_mem ElseGrammar.exists_terminal_mem
    constructed tokens
  have sentence_of_accepted (moves : List Move) (accepted : outcome = .ok moves) :
      g.Sentence tokens := by
    subst accepted
    exact (Parser.derivation_of_accepted augmented constructed no_end finished).derives
  refine ⟨fuel, outcome, finished, ⟨?_, ?_⟩, ?_⟩
  · rintro ⟨moves, accepted⟩
    exact sentence_of_accepted moves accepted
  · intro sentence
    obtain ⟨_, moves, _, accepted, _⟩ :=
      grammar.succeeds_of_sentence augmented constructed sentence
    exact ⟨moves, Parser.run_unique finished accepted⟩
  · rintro moves rfl
    -- The run is the one that succeeds on the sentence.
    obtain ⟨_, moves', tree, accepted, grown, binds⟩ :=
      grammar.succeeds_of_sentence augmented constructed (sentence_of_accepted moves rfl)
    obtain rfl := Except.ok.inj (Parser.run_unique finished accepted)
    have made : Tree.ofMoves? g moves = some tree := by rw [Tree.ofMoves?, grown]
    obtain ⟨parses, root, leaves⟩ :=
      Parser.parses_of_accepted augmented constructed no_end finished made
    exact ⟨tree, made, parses, root, leaves, binds⟩

/-- A parser for statements with an optional else branch accepts all of them, and gives each else to
the nearest condition that can still take it. -/
theorem else_binds_to_nearest (defined : defineAccepted ds = .ok g) (fits : NumbersFit ds)
    (grammar : ElseGrammar g k) : ∃ built, g.construct = .ok built ∧ built.table.BindsElse g k := by
  have augmented := augmented_of_defined defined fits
  obtain ⟨built, constructed⟩ := augmented.exists_construct
  exact ⟨built, constructed, augmented.bindsElse constructed grammar⟩

/-- No precedences are declared, and then an else is shifted. -/
theorem elseGrammar_danglingElse :
    ElseGrammar (Examples.grammarOf Examples.danglingElse) Examples.danglingElseTerminals where
  distinct := by decide
  offers := by
    unfold Offers
    decide +kernel
  shifted := by
    unfold PrefersShift LeftAssoc
    decide +kernel

/-- The grammar leaves open what an else belongs to, and its parser gives it to the nearest
condition, on every input. -/
theorem danglingElse_binds_to_nearest :
    ∃ g built, defineAccepted Examples.danglingElse = .ok g ∧
      ElseGrammar g Examples.danglingElseTerminals ∧ g.construct = .ok built ∧
      built.table.BindsElse g Examples.danglingElseTerminals := by
  have defined : defineAccepted Examples.danglingElse =
      .ok (Examples.grammarOf Examples.danglingElse) := rfl
  have fits : NumbersFit Examples.danglingElse := by decide +kernel
  have grammar := elseGrammar_danglingElse
  obtain ⟨built, constructed, binds⟩ := else_binds_to_nearest defined fits grammar
  exact ⟨_, built, defined, grammar, constructed, binds⟩

/-- Of two conditions the inner one has the branch. There is a parse tree of the same terminals in
which the outer one has it, but no parser makes that. -/
theorem danglingElse_binds_to_nearest_nested :
    let g := Examples.grammarOf Examples.danglingElse
    let k := Examples.danglingElseTerminals
    let tokens : List TerminalId := [3, 3, 5, 4, 5]
    let inner : Tree := .node 1 [.leaf 3, .node 2 [.leaf 3, .node 3 [.leaf 5], .leaf 4,
      .node 3 [.leaf 5]]]
    let outer : Tree := .node 2 [.leaf 3, .node 1 [.leaf 3, .node 3 [.leaf 5]], .leaf 4,
      .node 3 [.leaf 5]]
    (∀ t ∈ tokens, t ∈ [k.condition, k.alternative, k.plain]) ∧ g.Sentence tokens ∧
      inner.BindsElse g k ∧ outer.Parses g ∧ outer.leaves = tokens ∧ ¬ outer.BindsElse g k ∧
      ∃ built moves, g.construct = .ok built ∧ built.table.parse? g 11 tokens = some (.ok moves) ∧
        Tree.ofMoves? g moves = some inner := by
  intro g k tokens inner outer
  obtain ⟨_, built, defined, _, constructed, binds⟩ := danglingElse_binds_to_nearest
  obtain rfl : g = _ := Except.ok.inj defined
  have among : ∀ t ∈ tokens, t ∈ [k.condition, k.alternative, k.plain] := by decide
  obtain ⟨fuel, outcome, finished, accepted_iff, trees⟩ := binds tokens among
  have run : g.construct.toOption.map (fun b => b.table.parse? g 11 tokens) =
      some (some (.ok [.shift 3, .shift 3, .shift 5, .reduce 3, .shift 4, .shift 5, .reduce 3,
        .reduce 2, .reduce 1, .accept])) := by
    decide +kernel
  rw [constructed] at run
  have accepted := Option.some.inj run
  obtain rfl := Parser.run_unique finished accepted
  obtain ⟨tree, made, _, _, _, inner_binds⟩ := trees _ rfl
  obtain rfl : tree = inner := Option.some.inj (made.symm.trans rfl)
  have plain : (Tree.node 3 [.leaf 5]).Parses g :=
    .node (by decide +kernel) (by decide +kernel) (by simpa using .leaf 5)
  have first : (Tree.node 1 [.leaf 3, .node 3 [.leaf 5]]).Parses g :=
    .node (by decide +kernel) (by decide +kernel) (by simpa using ⟨.leaf 3, plain⟩)
  refine ⟨among, accepted_iff.mp ⟨_, rfl⟩, inner_binds, ?_, ?_, ?_, built, _, constructed, accepted,
    made⟩
  · exact .node (by decide +kernel) (by decide +kernel)
      (by simpa using ⟨.leaf 3, first, .leaf 4, plain⟩)
  · simp [outer, Tree.leaves, tokens]
  · intro outer_binds
    have full : (g.rule 2).right = k.full g.start := by decide +kernel
    have short : (g.rule 1).right = k.short g.start := by decide +kernel
    exact outer_binds 2 _ _ .here full rfl ⟨1, _, .here, short⟩

end Grammar

end CanonicalLR
