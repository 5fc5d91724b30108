import CanonicalLR.Parser.Tree
import CanonicalLR.Proofs.ParserSoundness

/-!
# Trees of accepting runs

The trees on the stack while the moves of a run are made stand for the symbols that the parser's
stack spells. A reduction has the roots of its children spelled by the rule's right side, so an
accepting run leaves one parse tree, of the start symbol, and its leaves are the terminals that were
shifted.
-/
namespace CanonicalLR

namespace Tree

/-- The symbol that the tree is for. -/
def root (g : Grammar) : Tree → Symbol
  | leaf t => .terminal t
  | node rule _ => .nonterminal (g.rule rule).left

/-- The terminals at the leaves, from left to right. -/
def leaves : Tree → List TerminalId
  | leaf t => [t]
  | node _ children => children.flatMap leaves

/-- The children of every node are for the symbols on its rule's right side. -/
inductive Parses (g : Grammar) : Tree → Prop where
  | leaf (t : TerminalId) : Parses g (leaf t)
  | node {rule : RuleId} {children : List Tree} (known : rule < g.rules.length)
      (right : children.map (root g) = (g.rule rule).right)
      (each : ∀ child ∈ children, Parses g child) : Parses g (node rule children)

variable {g : Grammar}

theorem derives_leaves_of_each {children : List Tree}
    (each : ∀ child ∈ children, Derives g.rules [child.root g] (child.leaves.map .terminal)) :
    Derives g.rules (children.map (root g)) ((children.flatMap leaves).map .terminal) := by
  induction children with
  | nil => exact .refl []
  | cons child children ih =>
    have first := each child List.mem_cons_self
    have others := ih fun child' member => each child' (List.mem_cons_of_mem child member)
    simpa using first.append others

/-- A parse tree is a derivation of its leaves from its root. -/
theorem Parses.derives {t : Tree} (parses : t.Parses g) :
    Derives g.rules [t.root g] (t.leaves.map .terminal) := by
  induction parses with
  | leaf t => simpa [root, leaves] using .refl [.terminal t]
  | @node rule children known right _ ih =>
    have below := derives_leaves_of_each ih
    rw [right] at below
    rw [leaves]
    exact (Derives.of_rule (Grammar.rule_mem known)).trans below

end Tree

namespace Parser

variable {g : Grammar} {built : Construction} {u v : List Symbol} {ts : List Tree}

/-- The parser accepts, and its moves make of the trees one for which something holds. -/
def SucceedsWith (holds : Tree → Prop) (g : Grammar) (t : Table) (c : Config) (ts : List Tree) :
    Prop :=
  ∃ fuel moves tree, run g t fuel c = some (.ok moves) ∧ moves.foldl (Tree.grow g) ts = [tree] ∧
    holds tree

theorem SucceedsWith.of_next {holds : Tree → Prop} {t : Table} {c c' : Config} {move : Move}
    (stepped : step g t c = .next move c')
    (onward : SucceedsWith holds g t c' (Tree.grow g ts move)) : SucceedsWith holds g t c ts := by
  obtain ⟨fuel, moves, tree, finished, grown, held⟩ := onward
  exact ⟨fuel + 1, move :: moves, tree, run_of_next stepped finished, grown, held⟩

theorem SucceedsWith.of_accept {holds : Tree → Prop} {t : Table} {c : Config} {tree : Tree}
    (accepts : step g t c = .accept) (held : holds tree) : SucceedsWith holds g t c [tree] :=
  ⟨1, [.accept], tree, by simp [run, accepts], rfl, held⟩

/-- The trees on the stack, the latest first, are parse trees for the symbols of a string. -/
structure Carries (g : Grammar) (u : List Symbol) (ts : List Tree) : Prop where
  roots : ts.reverse.map (Tree.root g) = u
  parses : ∀ t ∈ ts, t.Parses g

theorem Carries.shift (carries : Carries g u ts) (t : TerminalId) :
    Carries g (u ++ [.terminal t]) (Tree.grow g ts (.shift t)) where
  roots := by simp [Tree.grow, Tree.root, ← carries.roots]
  parses := by
    intro tree member
    rcases List.mem_cons.mp member with rfl | earlier
    · exact .leaf t
    · exact carries.parses tree earlier

/-- A reduction makes the trees for the right side the children of one for the left side. -/
theorem Carries.reduce {id : RuleId} {r : Rule} (found : g.rules[id]? = some r)
    (carries : Carries g (v ++ r.right) ts) :
    Carries g (v ++ [.nonterminal r.left]) (Tree.grow g ts (.reduce id)) ∧
      (Tree.grow g ts (.reduce id)).reverse.flatMap Tree.leaves =
        ts.reverse.flatMap Tree.leaves := by
  obtain ⟨front, children, whole, front_roots, roots⟩ := List.map_eq_append_iff.mp carries.roots
  obtain rfl : ts = children.reverse ++ front.reverse := by
    rw [← List.reverse_append, ← whole, List.reverse_reverse]
  have same := Grammar.rule_of_getElem? found
  have width : (g.rule id).right.length = children.reverse.length := by
    rw [same, ← roots, List.length_map, List.length_reverse]
  have grown : Tree.grow g (children.reverse ++ front.reverse) (.reduce id) =
      .node id children :: front.reverse := by
    simp [Tree.grow, width]
  rw [grown]
  constructor
  · refine { roots := by simp [Tree.root, same, front_roots], parses := ?_ }
    intro tree member
    rcases List.mem_cons.mp member with rfl | earlier
    · refine .node (List.getElem?_eq_some_iff.mp found).1 (by rw [same, roots]) ?_
      exact fun child below => carries.parses child (by simp [below])
    · exact carries.parses tree (List.mem_append_right _ earlier)
  · simp [Tree.leaves]

/-- An accepting run leaves a parse tree of the start symbol with what was on the stack and what the
run shifts at its leaves. -/
theorem exists_tree_of_run (augmented : g.Augmented) (constructed : g.construct = .ok built)
    {fuel : Nat} {c : Config} {moves : List Move} (spells : Spells (.ofGrammar g) u c.stack)
    (carries : Carries g u ts) (finished : run g built.table fuel c = some (.ok moves)) :
    ∃ tree, moves.foldl (Tree.grow g) ts = [tree] ∧ tree.Parses g ∧
      tree.root g = .nonterminal g.start ∧
      tree.leaves = ts.reverse.flatMap Tree.leaves ++ shiftedTerminals moves := by
  -- By induction on the limit: what the stack spells and its trees is the invariant.
  induction fuel generalizing u c ts moves with
  | zero => cases finished
  | succ fuel ih =>
    rcases run_ok_cases finished with ⟨accepts, rfl⟩ | ⟨move, c', rest, stepped, rfl, onward⟩
    · obtain ⟨rfl, _⟩ := accept_cases augmented constructed spells accepts
      obtain ⟨tree, rest, whole, root, nothing⟩ := List.map_eq_cons_iff.mp carries.roots
      obtain rfl := List.map_eq_nil_iff.mp nothing
      obtain rfl : ts = [tree] := List.reverse_eq_iff.mp whole
      exact ⟨tree, rfl, carries.parses tree List.mem_cons_self, root, by simp⟩
    · rcases step_cases augmented.toWellFormed constructed spells stepped with
        ⟨t, rfl, _, _, spells'⟩ | ⟨id, r, v, rfl, found, rfl, _, spells'⟩
      · obtain ⟨tree, grown, parses, root, leaves⟩ := ih spells' (carries.shift t) onward
        refine ⟨tree, grown, parses, root, ?_⟩
        simpa [Tree.grow, Tree.leaves] using leaves
      · obtain ⟨carries', same⟩ := carries.reduce found
        obtain ⟨tree, grown, parses, root, leaves⟩ := ih spells' carries' onward
        refine ⟨tree, grown, parses, root, ?_⟩
        rwa [same] at leaves

/-- The moves of an accepting run make a parse tree of the input up to the end that the run sees. -/
theorem exists_tree_of_accepted (augmented : g.Augmented) (constructed : g.construct = .ok built)
    {fuel : Nat} {tokens : List TerminalId} {moves : List Move}
    (finished : built.table.parse? g fuel tokens = some (.ok moves)) :
    ∃ tree, Tree.ofMoves? g moves = some tree ∧ tree.Parses g ∧
      tree.root g = .nonterminal g.start ∧ tree.leaves = tokens.takeWhile (· ≠ .eoi) := by
  have nothing : Carries g [] [] := ⟨rfl, by simp⟩
  obtain ⟨tree, grown, parses, root, leaves⟩ :=
    exists_tree_of_run augmented constructed .initial nothing finished
  obtain ⟨_, consumed, _⟩ := run_sound augmented constructed .initial finished
  refine ⟨tree, by rw [Tree.ofMoves?, grown], parses, root, ?_⟩
  rw [leaves, consumed]
  rfl

/-- The tree of an accepting run is a parse tree of the whole input, if the end of the input is not
in it. -/
theorem parses_of_accepted (augmented : g.Augmented) (constructed : g.construct = .ok built)
    {fuel : Nat} {tokens : List TerminalId} {moves : List Move} {tree : Tree}
    (no_end : .eoi ∉ tokens) (finished : built.table.parse? g fuel tokens = some (.ok moves))
    (grown : Tree.ofMoves? g moves = some tree) :
    tree.Parses g ∧ tree.root g = .nonterminal g.start ∧ tree.leaves = tokens := by
  obtain ⟨tree', grown', parses, root, leaves⟩ :=
    exists_tree_of_accepted augmented constructed finished
  obtain rfl := Option.some.inj (grown'.symm.trans grown)
  exact ⟨parses, root, leaves.trans (takeWhile_of_no_end no_end)⟩

end Parser

end CanonicalLR
