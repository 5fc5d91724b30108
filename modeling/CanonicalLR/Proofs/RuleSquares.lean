import CanonicalLR.Item.Validity
import CanonicalLR.Proofs.Derivations
import CanonicalLR.Proofs.PlainDefinitions
import Mathlib.Data.List.ProdSigma

/-!
# Squares of rules

Plain definitions with as many rules as are wanted: every nonterminal has a rule for each of as many
symbols, and the rules for the first one lead to all the others. With as many rules as there are
numbers, the last one becomes rule 0.
-/
namespace CanonicalLR.Examples

/-- As many letters as the number says, and one more. -/
def letters (c : Char) (n : Nat) : String := String.ofList (List.replicate (n + 1) c)

def names (c : Char) (n : Nat) : List String := (List.range n).map (letters c)

/-- The rules of the first row lead to the nonterminals, and the others to the terminals. Declared
symbols come after the reserved ones. -/
def squareRule (cell : Nat × Nat) : Rule where
  left := cell.1 + 1
  right := [if cell.1 = 0 then .nonterminal (cell.2 + 1) else .terminal (cell.2 + 3)]
  override := none
  action := none

/-- Row after row. -/
def squareRules (n : Nat) : List Rule := (List.range n ×ˢ List.range n).map squareRule

def square (n : Nat) : List Declaration := plain (names 'a' n) (names 'A' n) (squareRules n)

variable {c : Char} {m n : Nat} {rules : List Rule}

/-! ### Names -/

theorem letters_injective (c : Char) : Function.Injective (letters c) := by
  intro m n same
  have lists := String.ofList_injective same
  simpa using congrArg List.length lists

theorem isIdentifier_of_mem_names (starts : Identifier.isStart c = true)
    (continues : Identifier.isContinue c = true) :
    ∀ name ∈ names c n, isIdentifier name = true := by
  intro name member
  obtain ⟨i, _, rfl⟩ := List.mem_map.mp member
  simp [isIdentifier, letters, List.replicate_succ, starts, continues]

/-- Reserved names begin with a sign of their own. -/
theorem nodup_names {reserved : List String} (distinct : reserved.Nodup)
    (signs : ∀ name ∈ reserved, name.toList.head? ≠ some c) : (reserved ++ names c n).Nodup := by
  refine List.Nodup.append distinct (List.nodup_range.map (letters_injective c)) ?_
  intro name old new
  obtain ⟨i, _, rfl⟩ := List.mem_map.mp new
  exact signs _ old (by simp [letters, List.replicate_succ])

theorem plain_names (sides : ∀ r ∈ rules, r.Over m n) (apart : (rules.map Rule.sides).Nodup) :
    Plain (names 'a' m) (names 'A' n) rules where
  terminals_identifiers := isIdentifier_of_mem_names (by decide) (by decide)
  terminals_apart := nodup_names (by decide) (by decide)
  nonterminals_identifiers := isIdentifier_of_mem_names (by decide) (by decide)
  nonterminals_apart := nodup_names (by decide) (by decide)
  rules_over := by simpa [names] using sides
  rules_apart := apart

/-! ### The rules of a square -/

theorem mem_squareRules {r : Rule} :
    r ∈ squareRules n ↔ ∃ i j, (i < n ∧ j < n) ∧ squareRule (i, j) = r := by
  simp only [squareRules, List.mem_map, Prod.exists, List.mem_product, List.mem_range]

theorem squareRule_sides_injective : Function.Injective fun cell => (squareRule cell).sides := by
  rintro ⟨i, j⟩ ⟨i', j'⟩ same
  obtain ⟨rows, symbols⟩ := Prod.mk.inj same
  obtain rfl : i = i' := Nat.succ.inj rows
  -- In one row the symbols are all of one kind.
  have columns : j = j' := by
    simp only [squareRule, List.cons.injEq, and_true] at symbols
    split at symbols <;> cases symbols <;> rfl
  rw [columns]

theorem squareRules_nodup (n : Nat) : ((squareRules n).map Rule.sides).Nodup := by
  rw [squareRules, List.map_map]
  exact (List.nodup_range.product List.nodup_range).map squareRule_sides_injective

theorem length_squareRules (n : Nat) : (squareRules n).length = n * n := by
  rw [squareRules, List.length_map, List.length_product, List.length_range]

theorem squareRules_over {r : Rule} (member : r ∈ squareRules n) : r.Over n n := by
  obtain ⟨i, j, ⟨row, column⟩, rfl⟩ := mem_squareRules.mp member
  refine ⟨Nat.succ_pos i, row, fun x mentioned => ?_, rfl⟩
  obtain rfl := List.mem_singleton.mp mentioned
  split
  · exact .inl ⟨j, rfl, column⟩
  · exact .inr ⟨j, rfl, column⟩

/-- The first row leads to all nonterminals. -/
theorem reaches_of_squareRules {start : NonterminalId} {r : Rule} (member : r ∈ squareRules n)
    (included : squareRules n ⊆ rules) (first : Reaches rules start 1) :
    Reaches rules start r.left := by
  obtain ⟨i, j, ⟨row, column⟩, rfl⟩ := mem_squareRules.mp member
  have across : squareRule (0, i) ∈ rules :=
    included (mem_squareRules.mpr ⟨0, i, ⟨Nat.zero_lt_of_lt row, row⟩, rfl⟩)
  exact .step across first (by simp [squareRule])

/-- The last row comes last. -/
theorem squareRules_succ (n : Nat) : squareRules (n + 1) =
    (List.range n ×ˢ List.range (n + 1)).map squareRule ++
      (List.range (n + 1)).map fun j => squareRule (n, j) := by
  have rows : List.range (n + 1) ×ˢ List.range (n + 1) =
      List.range n ×ˢ List.range (n + 1) ++ (List.range (n + 1)).map (n, ·) := by
    conv => lhs; arg 1; rw [List.range_succ]
    simp [SProd.sprod, List.product]
  rw [squareRules, rows, List.map_append, List.map_map]
  rfl

theorem getLast?_squareRules (n : Nat) :
    (squareRules (n + 1)).getLast? = some (squareRule (n, n)) := by
  rw [squareRules_succ]
  simp [List.range_succ]

/-- All but the last two rules. -/
theorem exists_early (n : Nat) : ∃ early,
    squareRules (n + 2) = early ++ [squareRule (n + 1, n), squareRule (n + 1, n + 1)] := by
  rw [squareRules_succ]
  refine ⟨(List.range (n + 1) ×ˢ List.range (n + 2)).map squareRule ++
    (List.range n).map fun j => squareRule (n + 1, j), ?_⟩
  simp [List.range_succ]

theorem exists_square (n : Nat) :
    ∃ g, Grammar.defineAccepted (square (n + 1)) = .ok g ∧ g.start = 1 ∧
      reachedRules (Grammar.declaredRules (square (n + 1))) g.start = squareRules (n + 1) ∧
      g.rules = numberedRules (.accepting 1) (squareRules (n + 1)) := by
  have head : (squareRules (n + 1)).head? = some (squareRule (0, 0)) := by
    simp [squareRules, List.range_succ_eq_map]
  have fits := plain_names (fun _ => squareRules_over) (squareRules_nodup (n + 1))
  obtain ⟨g, defined, start, reached, rules, _⟩ := fits.exists_grammar head fun r member =>
    reaches_of_squareRules member (List.Subset.refl _) .start
  exact ⟨g, defined, start, reached, rules⟩

/-! ### Squares with a rule in front -/

/-- The start symbol stands for a terminal and the first nonterminal of a square. -/
def frontRule (n : Nat) : Rule := ⟨n + 1, [.terminal 3, .nonterminal 1], none, none⟩

def frontedSquare (n : Nat) : List Declaration :=
  plain (names 'a' n) (names 'A' (n + 1)) (frontRule n :: squareRules n)

/-- A grammar in which the last rule of a square has become rule 0. The rule in front and all but
the last two rules of the square come after it. -/
structure Fronted (g : Grammar) (n : Nat) : Prop extends g.WellFormed where
  start : g.start = n + 3
  rules : ∃ early, g.rules = squareRule (n + 1, n + 1) :: frontRule (n + 2) :: early ∧
    squareRules (n + 2) = early ++ [squareRule (n + 1, n), squareRule (n + 1, n + 1)]

theorem exists_fronted {n : Nat} (full : (n + 2) * (n + 2) = ruleNumbers) :
    ∃ g, Grammar.defineAccepted (frontedSquare (n + 2)) = .ok g ∧ Fronted g n := by
  have sides : ∀ r ∈ frontRule (n + 2) :: squareRules (n + 2), r.Over (n + 2) (n + 3) := by
    intro r member
    rcases List.mem_cons.mp member with rfl | square
    · exact ⟨Nat.succ_pos _, Nat.le_refl _, by simp [frontRule], rfl⟩
    · exact (squareRules_over square).mono (Nat.le_succ _)
  have apart : ((frontRule (n + 2) :: squareRules (n + 2)).map Rule.sides).Nodup := by
    refine List.nodup_cons.mpr ⟨fun member => ?_, squareRules_nodup _⟩
    obtain ⟨r, square, same⟩ := List.mem_map.mp member
    have left : r.left = n + 3 := (Prod.mk.inj same).1
    exact Nat.not_succ_le_self _ (left ▸ (squareRules_over square).left_le)
  have first : Reaches (frontRule (n + 2) :: squareRules (n + 2)) (n + 3) 1 :=
    .step List.mem_cons_self .start (by simp [frontRule])
  obtain ⟨g, defined, start, _, rules, _⟩ := (plain_names sides apart).exists_grammar rfl
    fun r member => by
      rcases List.mem_cons.mp member with rfl | square
      · exact .start
      · exact reaches_of_squareRules square (List.subset_cons_self _ _) first
  refine ⟨g, defined, { Grammar.wellFormed_of_defined defined with start := start, rules := ?_ }⟩
  obtain ⟨early, split⟩ := exists_early n
  have length : early.length + 2 = ruleNumbers := by
    rw [← full, ← length_squareRules, split, List.length_append]
    rfl
  have many : ruleNumbers ≤ (frontRule (n + 2) :: squareRules (n + 2)).length := by
    rw [List.length_cons, length_squareRules, full]
    exact Nat.le_succ _
  obtain ⟨last, at_end, numbered⟩ :=
    exists_numberedRules (.accepting (frontRule (n + 2)).left) many
  refine ⟨early, ?_, split⟩
  rw [rules, numbered, split, ← length]
  have last_eq : last = squareRule (n + 1, n + 1) := by
    simpa [split, List.getLast?_append, List.getLast?_cons] using at_end.symm
  simp [last_eq]

namespace Fronted

variable {g : Grammar} {n i j m : Nat} {w : List Symbol} {item : Item} {a : TerminalId}
  (fronted : Fronted g n)

include fronted

theorem accept_mem : squareRule (n + 1, n + 1) ∈ g.rules := by
  obtain ⟨early, rules, _⟩ := fronted.rules
  simp [rules]

theorem front_mem : frontRule (n + 2) ∈ g.rules := by
  obtain ⟨early, rules, _⟩ := fronted.rules
  simp [rules]

/-- All rows but the last one are there. -/
theorem row_mem (row : i ≤ n) (column : j < n + 2) : squareRule (i, j) ∈ g.rules := by
  obtain ⟨early, rules, split⟩ := fronted.rules
  have member : squareRule (i, j) ∈ squareRules (n + 2) :=
    mem_squareRules.mpr ⟨i, j, ⟨by omega, column⟩, rfl⟩
  rw [split, List.mem_append] at member
  rcases member with before | last
  · rw [rules]
    exact List.mem_cons_of_mem _ (List.mem_cons_of_mem _ before)
  · -- The left sides tell the rows apart.
    have left : i + 1 = n + 2 := by
      rcases List.mem_pair.mp last with same | same <;> exact congrArg Rule.left same
    omega

theorem mem_rules {r : Rule} (member : r ∈ g.rules) :
    r = frontRule (n + 2) ∨ r ∈ squareRules (n + 2) := by
  obtain ⟨early, rules, split⟩ := fronted.rules
  rw [rules] at member
  rw [split]
  simp only [List.mem_cons, List.mem_append] at member ⊢
  rcases member with last | front | before
  · exact .inr (.inr (.inr (.inl last)))
  · exact .inl front
  · exact .inr (.inl before)

/-- The reserved nonterminal has no rule left. -/
theorem left_ne_start {r : Rule} (member : r ∈ g.rules) : r.left ≠ .start := by
  rcases fronted.mem_rules member with rfl | square
  · exact Nat.succ_ne_zero _
  · exact Nat.ne_of_gt (squareRules_over square).left_pos

/-! #### What is derived -/

theorem allProductive : g.AllProductive := by
  -- Each row but the first has a rule with a terminal for its right side.
  have lower {i : Nat} (row : i < n + 1) : Productive g.rules (i + 2) := by
    rcases Nat.lt_or_ge i n with inside | last
    · exact Productive.of_rule (r := squareRule (i + 1, 0))
        (fronted.row_mem inside (Nat.succ_pos _)) (by simp [squareRule])
    · obtain rfl : i = n := Nat.le_antisymm (Nat.le_of_lt_succ row) last
      exact Productive.of_rule fronted.accept_mem (by simp [squareRule])
  have first : Productive g.rules 1 := by
    refine Productive.of_rule (r := squareRule (0, 1))
      (fronted.row_mem (Nat.zero_le n) (Nat.lt_add_left n Nat.one_lt_two)) fun m mentioned => ?_
    obtain rfl : m = 2 := by simpa [squareRule] using mentioned
    exact lower (Nat.succ_pos n)
  refine Grammar.allProductive_of_right fun r rule m mentioned => ?_
  rcases fronted.mem_rules rule with rfl | square
  · obtain rfl : m = 1 := by simpa [frontRule] using mentioned
    exact first
  · rcases (squareRules_over square).right _ mentioned with ⟨k, same, inside⟩ | ⟨_, same, _⟩
    · obtain rfl := Symbol.nonterminal.inj same
      cases k with
      | zero => exact first
      | succ k => exact lower (Nat.lt_of_succ_lt_succ inside)
    · cases same

theorem sentence : g.Sentence [3, n + 4] := by
  have across : Derives g.rules [.nonterminal 1] [.nonterminal (n + 2)] :=
    .of_rule (r := squareRule (0, n + 1)) (fronted.row_mem (Nat.zero_le n) (Nat.lt_succ_self _))
  have down : Derives g.rules [.nonterminal (n + 2)] [.terminal (n + 4)] :=
    .of_rule fronted.accept_mem
  have rest : Derives g.rules [.terminal 3, .nonterminal 1] [.terminal 3, .terminal (n + 4)] :=
    Derives.append (.refl [.terminal 3]) (across.trans down)
  rw [Grammar.Sentence, fronted.start]
  exact (Derives.of_rule fronted.front_mem).trans rest

theorem head?_of_sentence {s : List TerminalId} (sentence : g.Sentence s) :
    s.head? = some 3 := by
  rw [Grammar.Sentence, fronted.start] at sentence
  rcases sentence.of_nonterminal with same | ⟨r, member, left, onward⟩
  · refine absurd ?_ (nonterminal_not_mem_terminals (n := n + 3) (w := s))
    rw [same]
    exact List.mem_cons_self
  · rcases fronted.mem_rules member with rfl | square
    · obtain ⟨v, v', whole, terminal, _⟩ := Derives.split (x := [.terminal 3]) onward
      rw [Derives.eq_of_terminals (w := [3]) terminal] at whole
      cases s with
      | nil => cases whole
      | cons t s => exact congrArg some (Symbol.terminal.inj (List.cons.inj whole).1)
    · exact absurd (left ▸ (squareRules_over square).left_le) (Nat.not_succ_le_self _)

/-! #### Items -/

theorem right_accept : Item.right g ⟨.accept, m, a⟩ = [.terminal (n + 4)] := by
  obtain ⟨early, rules, _⟩ := fronted.rules
  have rule : g.rule .accept = squareRule (n + 1, n + 1) :=
    Grammar.rule_of_getElem? (by rw [rules]; rfl)
  rw [Item.right, rule]
  rfl

theorem next?_front : Item.next? g ⟨.accept, 0, a⟩ = some (.terminal (n + 4)) := by
  rw [Item.next?, fronted.right_accept]
  rfl

theorem next?_accepted : Item.next? g ⟨.accept, 1, a⟩ = none := by
  rw [Item.next?, fronted.right_accept]
  rfl

/-- Rule 0 predicts nothing, and only its terminal can be read. -/
theorem valid_iff : Valid g w item ↔
    w = [] ∧ item = ⟨.accept, 0, .eoi⟩ ∨ w = [.terminal (n + 4)] ∧ item = ⟨.accept, 1, .eoi⟩ := by
  constructor
  · intro valid
    induction valid with
    | start => exact .inl ⟨rfl, rfl⟩
    | predict _ _ next _ ih =>
      rcases ih with ⟨rfl, rfl⟩ | ⟨rfl, rfl⟩
      · rw [fronted.next?_front] at next
        cases next
      · rw [fronted.next?_accepted] at next
        cases next
    | advance _ next ih =>
      rcases ih with ⟨rfl, rfl⟩ | ⟨rfl, rfl⟩
      · rw [fronted.next?_front] at next
        cases next
        exact .inr ⟨rfl, rfl⟩
      · rw [fronted.next?_accepted] at next
        cases next
  · rintro (⟨rfl, rfl⟩ | ⟨rfl, rfl⟩)
    · exact .start
    · exact .advance .start fronted.next?_front

theorem completesAlone : g.CompletesAlone := by
  intro w i i' valid valid' complete
  rcases fronted.valid_iff.mp valid with ⟨rfl, rfl⟩ | ⟨rfl, rfl⟩
  · rw [fronted.next?_front] at complete
    cases complete
  · rcases fronted.valid_iff.mp valid' with ⟨nothing, _⟩ | ⟨_, rfl⟩
    · cases nothing
    · exact .inl rfl

end Fronted

end CanonicalLR.Examples
