import CanonicalLR.Grammar.Indexed
import CanonicalLR.Proofs.DeclarationRecords

/-!
# The indexed builder is the builder

Each declaration gets the answer from an indexed builder that the builder gives which it stands for,
and leaves what stands for the builder that is left there. The index is an invariant: a nonterminal
has the positions of exactly the rules with that left side. As no two rules have the same sides, the
one rule that is found among these is the first one among all.
-/
namespace CanonicalLR

/-- It is neither about a rule that was declared nor declares one. -/
def Declaration.SparesRules : Declaration → Prop
  | .rule .. | .action .. | .precedenceOf .. => False
  | _ => True

namespace Builder

/-- The builder with some rules in place of its own. -/
def withRules (b : Builder) (rules : List Rule) : Builder := { b with rules := rules }

theorem declare_withRules (b : Builder) (rules : List Rule) {d : Declaration}
    (spares : d.SparesRules) :
    (b.withRules rules).declare d =
      (b.declare d).map fun (answer, b') => (answer, b'.withRules rules) := by
  cases d with
  | rule | action | precedenceOf => exact spares.elim
  | terminal name p =>
    simp only [declare, declareTerminal, apply_ite (Except.map _)]
    rfl
  | nonterminal name =>
    simp only [declare, declareNonterminal, apply_ite (Except.map _)]
    rfl
  | precedence assoc =>
    simp only [declare, declarePrecedence]
    cases Assoc.ofName? assoc <;> rfl
  | typeTag symbol => cases symbol <;> rfl
  | start => rfl

theorem attempt_withRules (b : Builder) (rules : List Rule) {d : Declaration}
    (spares : d.SparesRules) :
    (b.withRules rules).attempt d = ((b.attempt d).1, (b.attempt d).2.withRules rules) := by
  simp only [attempt, declare_withRules b rules spares]
  cases b.declare d <;> rfl

end Builder

namespace IndexedBuilder

/-- What the rules are told apart by, in their order. -/
def sides (x : IndexedBuilder) : List (NonterminalId × List Symbol) :=
  x.builder.rules.map Rule.sides

/-- Each nonterminal has the positions of the rules for it, and no rule is there twice. -/
structure Indexes (x : IndexedBuilder) : Prop where
  room : x.base.nonterminals.length ≤ x.positions.size
  mem_positionsOf : ∀ n i, i ∈ x.positionsOf n ↔ x.sides[i]?.map Prod.fst = some n
  distinct : x.sides.Nodup

variable {x : IndexedBuilder} {left : NonterminalId} {right : List Symbol} {i : Nat}

theorem initial_indexes : initial.Indexes where
  room := Nat.le_refl _
  mem_positionsOf n i := by
    have none_listed : initial.positionsOf n = [] := by
      rcases n with _ | n <;> rfl
    rw [none_listed]
    simp [initial, sides, builder]
  distinct := List.nodup_nil

/-! ### Finding a rule -/

theorem Indexes.position?_eq_some_iff (indexes : x.Indexes) :
    x.position? left right = some i ↔ x.sides[i]? = some (left, right) := by
  have matches_iff (j : Nat) : (j ∈ x.positionsOf left ∧ (x.rules.getD j default).right = right) ↔
      x.sides[j]? = some (left, right) := by
    have same : x.rules[j]? = x.builder.rules[j]? := Array.getElem?_toList.symm
    rw [indexes.mem_positionsOf, Array.getD_eq_getD_getElem?, same, sides, List.getElem?_map]
    cases x.builder.rules[j]? <;> simp [Rule.sides]
  have sides_of_found {j : Nat} (found : x.position? left right = some j) :
      x.sides[j]? = some (left, right) := by
    have same := List.find?_some found
    exact (matches_iff j).mp ⟨List.mem_of_find?_eq_some found, by simpa using same⟩
  constructor
  · exact sides_of_found
  · intro at_i
    -- Something is found, and it is the rule in question, since there is only one with these sides.
    obtain ⟨listed, same⟩ := (matches_iff i).mpr at_i
    obtain ⟨j, found⟩ : ∃ j, x.position? left right = some j :=
      Option.isSome_iff_exists.mp (List.find?_isSome.mpr ⟨i, listed, by simpa using same⟩)
    have at_j := sides_of_found found
    obtain ⟨inside, _⟩ := List.getElem?_eq_some_iff.mp at_j
    have equal : j = i := (List.getElem?_inj inside indexes.distinct).mp (at_j.trans at_i.symm)
    rw [found, equal]

/-- Looking among the rules for one left side finds what looking among all rules would find. -/
theorem Indexes.position?_eq (indexes : x.Indexes) (left : NonterminalId) (right : List Symbol) :
    x.position? left right =
      x.builder.rules.findIdx? fun r => r.left == left && r.right == right := by
  ext i
  rw [indexes.position?_eq_some_iff, sides, List.getElem?_map]
  have by_sides : x.builder.rules.findIdx? (Rule.sides · == (left, right)) = some i ↔
      i < x.builder.rules.length ∧
        (x.builder.rules[i]?.map Rule.sides).getD (left, right) = (left, right) :=
    findIdx?_key_eq_some_iff indexes.distinct
  refine Iff.trans ?_ by_sides.symm
  rcases Nat.lt_or_ge i x.builder.rules.length with inside | outside
  · simp [inside]
  · simp [Nat.not_lt.mpr outside]

/-! ### Changes -/

theorem Indexes.rebase (indexes : x.Indexes) (base : Builder) : (x.rebase base).Indexes where
  room := by
    simp only [IndexedBuilder.rebase, Array.size_append, Array.size_replicate]
    omega
  mem_positionsOf n i := by
    have same : (x.rebase base).positionsOf n = x.positionsOf n := by
      simp only [IndexedBuilder.rebase, positionsOf, Array.getD_eq_getD_getElem?]
      -- Beyond the old size there is an empty list now, which is read where nothing is, too.
      rcases Nat.lt_or_ge n x.positions.size with inside | outside
      · rw [Array.getElem?_append_left inside]
      · rw [Array.getElem?_append_right outside, Array.getElem?_eq_none outside,
          Array.getElem?_replicate]
        split <;> rfl
    rw [same]
    exact indexes.mem_positionsOf n i
  distinct := indexes.distinct

theorem Indexes.modifyRule (indexes : x.Indexes) (index : Nat) {f : Rule → Rule}
    (same : ∀ r, (f r).sides = r.sides) : (x.modifyRule index f).Indexes := by
  have sides : (x.modifyRule index f).sides = x.sides := by
    simp only [IndexedBuilder.sides, IndexedBuilder.modifyRule, builder, Array.toList_modify]
    exact map_modify same _ _
  exact {
    room := indexes.room
    mem_positionsOf := by
      rw [sides]
      exact indexes.mem_positionsOf
    distinct := by
      rw [sides]
      exact indexes.distinct }

theorem Indexes.addRule (indexes : x.Indexes) {r : Rule}
    (known : r.left < x.base.nonterminals.length) (fresh : r.sides ∉ x.sides) :
    (x.addRule r).Indexes := by
  have sides : (x.addRule r).sides = x.sides ++ [r.sides] := by
    simp [IndexedBuilder.sides, IndexedBuilder.addRule, builder]
  have length : x.sides.length = x.rules.size := by
    simp [IndexedBuilder.sides, builder]
  have covered : r.left < x.positions.size := Nat.lt_of_lt_of_le known indexes.room
  have mem_iff (n : NonterminalId) (i : Nat) : i ∈ (x.addRule r).positionsOf n ↔
      r.left = n ∧ i = x.sides.length ∨ i ∈ x.positionsOf n := by
    simp only [IndexedBuilder.addRule, positionsOf, Array.getD_eq_getD_getElem?,
      Array.getElem?_modify, length]
    split
    next same =>
      subst same
      simp [covered]
    next other => simp [other]
  refine { room := ?_, mem_positionsOf := ?_, distinct := ?_ }
  · simpa [IndexedBuilder.addRule] using indexes.room
  · intro n i
    rw [mem_iff, indexes.mem_positionsOf, sides]
    -- The new rule is at the end of the rules, where no position was listed.
    rcases Nat.lt_trichotomy i x.sides.length with old | rfl | beyond
    · rw [List.getElem?_append_left old]
      simp [Nat.ne_of_lt old]
    · simp [Rule.sides]
    · have none_old : x.sides[i]? = none := List.getElem?_eq_none (Nat.le_of_lt beyond)
      have none_new : (x.sides ++ [r.sides])[i]? = none :=
        List.getElem?_eq_none (by simpa using Nat.succ_le_of_lt beyond)
      simp [none_old, none_new, Nat.ne_of_gt beyond]
  · rw [sides, ← List.concat_eq_append]
    exact indexes.distinct.concat fresh

/-! ### Declarations -/

/-- An outcome that stands for what the builder would have done with a declaration. -/
structure Answers (x : IndexedBuilder) (d : Declaration)
    (outcome : Except DefinitionError Declared × IndexedBuilder) : Prop where
  attempt : x.builder.attempt d = (outcome.1, outcome.2.builder)
  indexes : outcome.2.Indexes

theorem Answers.of_declare {d : Declaration} {answer : Declared} {x' : IndexedBuilder}
    (indexes : x'.Indexes) (accepted : x.builder.declare d = .ok (answer, x'.builder)) :
    x.Answers d (.ok answer, x') where
  attempt := by rw [Builder.attempt, accepted]
  indexes := indexes

theorem Answers.of_refusal {d : Declaration} {e : DefinitionError} (indexes : x.Indexes)
    (refused : x.builder.declare d = .error e) : x.Answers d (.error e, x) where
  attempt := by rw [Builder.attempt, refused]
  indexes := indexes

theorem Indexes.answers_rule (indexes : x.Indexes) (left : NonterminalId) (right : List Symbol)
    (override : Option Precedence) :
    x.Answers (.rule left right override) (x.attemptRule left right override) := by
  have same_left : x.builder.usableNonterminal left = x.base.usableNonterminal left := rfl
  have same_right : x.builder.usable = x.base.usable := funext fun y => by cases y <;> rfl
  have position := indexes.position?_eq left right
  rw [attemptRule]
  -- The sides are checked before any rule is looked at.
  split_ifs with left_unusable right_unusable
  · apply Answers.of_refusal indexes
    rw [Builder.declare, Builder.declareRule, same_left, if_pos left_unusable]
  · apply Answers.of_refusal indexes
    rw [Builder.declare, Builder.declareRule, same_left, if_neg left_unusable, same_right,
      if_pos right_unusable]
  · cases found : x.position? left right with
    | some index =>
      -- A duplicate gives a warning, which is no matter of the index.
      apply Answers.of_declare (indexes.rebase _)
      rw [Builder.declare, Builder.declareRule, same_left, if_neg left_unusable, same_right,
        if_neg right_unusable, ← position, found]
      rfl
    | none =>
      have fresh : (left, right) ∉ x.sides := by
        intro member
        obtain ⟨i, at_i⟩ := List.mem_iff_getElem?.mp member
        exact absurd (indexes.position?_eq_some_iff.mpr at_i) (by simp [found])
      have known : left ≠ .start ∧ left < x.base.nonterminals.length := by
        simpa [Builder.usableNonterminal] using left_unusable
      apply Answers.of_declare
      · exact indexes.addRule known.2 fresh
      · rw [Builder.declare, Builder.declareRule, same_left, if_neg left_unusable, same_right,
          if_neg right_unusable, ← position, found]
        simp [builder, IndexedBuilder.addRule]

theorem Indexes.answers_precedenceOf (indexes : x.Indexes) (rule : Nat) (terminal : String) :
    x.Answers (.precedenceOf rule terminal) (.ok .done, x.declarePrecedenceOf rule terminal) := by
  rw [declarePrecedenceOf]
  cases found : x.base.terminals.find? (·.name == terminal) with
  | some t =>
    refine .of_declare (indexes.modifyRule rule fun _ => rfl) ?_
    simp [Builder.declare, Builder.declarePrecedenceOf, found, IndexedBuilder.modifyRule, builder]
  | none =>
    apply Answers.of_declare (indexes.rebase _)
    simp [Builder.declare, Builder.declarePrecedenceOf, found, IndexedBuilder.rebase, builder,
      Builder.warn]

/-- A declaration does to an indexed builder what it does to the builder. -/
theorem Indexes.answers (indexes : x.Indexes) (d : Declaration) : x.Answers d (x.attempt d) := by
  have spared (spares : d.SparesRules) :
      x.Answers d ((x.base.attempt d).1, x.rebase (x.base.attempt d).2) :=
    ⟨x.base.attempt_withRules _ spares, indexes.rebase _⟩
  cases d with
  | rule left right override => exact indexes.answers_rule left right override
  | action rule action =>
    refine .of_declare (indexes.modifyRule rule fun _ => rfl) ?_
    simp [Builder.declare, Builder.declareAction, IndexedBuilder.modifyRule, builder]
  | precedenceOf rule terminal => exact indexes.answers_precedenceOf rule terminal
  | terminal | nonterminal | precedence | typeTag | start => exact spared trivial

theorem Indexes.attemptAll (indexes : x.Indexes) (ds : List Declaration) :
    x.builder.attemptAll ds = ((x.attemptAll ds).1, (x.attemptAll ds).2.builder) := by
  induction ds generalizing x with
  | nil => rfl
  | cons d ds ih =>
    obtain ⟨attempted, next⟩ := indexes.answers d
    simp only [Builder.attemptAll, IndexedBuilder.attemptAll, attempted, ih next]

theorem finish_eq (x : IndexedBuilder) : x.finish = x.builder.finish := by
  simp only [finish, Builder.finish, grammar, Vocabulary.grammar, foldl_addRule_singleton]
  rfl

/-- Declaring with an index gives the answers and the grammar that declaring without one gives. -/
theorem initial_attemptAll (ds : List Declaration) :
    (initial.attemptAll ds).1 = (Builder.initial.attemptAll ds).1 ∧
      (initial.attemptAll ds).2.finish = Grammar.defineAccepted ds := by
  have same : Builder.initial.attemptAll ds = _ := initial_indexes.attemptAll ds
  rw [Grammar.defineAccepted, same, finish_eq]
  exact ⟨rfl, rfl⟩

end IndexedBuilder

end CanonicalLR
