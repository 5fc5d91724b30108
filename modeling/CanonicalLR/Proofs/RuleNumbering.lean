import CanonicalLR.Proofs.Overrides
import CanonicalLR.Proofs.RuleSquares

/-!
# Numbers of rules

Rule numbers have sixteen bits. While fewer rules are kept than there are numbers, the rule that
takes the reserved nonterminal to the start symbol is rule 0 and each kept rule has an entry of its
own. With one rule more the numbers start again: the table of rules stays as long as it is, each
further rule takes the place of rule 0, and in the end the last one stands there. A square of rules
shows that definitions do get so far.
-/
namespace CanonicalLR

/-- There is a rule for each kept one and one more, which is rule 0 and makes the start symbol out
of the reserved nonterminal, and no two kept rules share an entry. -/
structure NumbersEach (kept : List Rule) (g : Grammar) : Prop where
  count : g.rules.length = kept.length + 1
  own_entries : ∃ number : Fin kept.length → RuleId, Function.Injective number ∧
    ∀ i, g.rules[number i]? = some kept[i]
  accepting : g.rules[RuleId.accept]? = some (.accepting g.start)

/-- The numbers have started again: rule 0 is the last kept rule. Those before it for which there
was no number are lost, and so is the rule for the reserved nonterminal. -/
structure StartsAgain (kept : List Rule) (g : Grammar) : Prop where
  rules : ∃ last, kept.getLast? = some last ∧ g.rules = last :: kept.take (ruleNumbers - 1)
  not_accepting : .accepting g.start ∉ g.rules
  lost : ∀ i r, ruleNumbers - 1 ≤ i → i + 1 < kept.length → kept[i]? = some r → r ∉ g.rules

variable {kept : List Rule} {g : Grammar}

/-! ### Numbering -/

theorem numbersEach_of_rules (rules : g.rules = .accepting g.start :: kept) :
    NumbersEach kept g where
  count := by rw [rules, List.length_cons]
  own_entries := by
    refine ⟨fun i => i + 1, ?_, fun i => ?_⟩
    · intro i j same
      exact Fin.ext (Nat.succ.inj same)
    · rw [rules, List.getElem?_cons_succ]
      exact List.getElem?_eq_getElem i.isLt
  accepting := by
    rw [rules]
    rfl

theorem StartsAgain.length (again : StartsAgain kept g) (many : ruleNumbers ≤ kept.length) :
    g.rules.length = ruleNumbers := by
  obtain ⟨last, _, rules⟩ := again.rules
  rw [rules, List.length_cons, List.length_take]
  simp only [ruleNumbers] at many ⊢
  omega

theorem StartsAgain.not_numbersEach (again : StartsAgain kept g)
    (many : ruleNumbers ≤ kept.length) : ¬ NumbersEach kept g := by
  intro each
  have := each.count
  have := again.length many
  omega

theorem startsAgain_of_rules (distinct : kept.Nodup) (proper : ∀ r ∈ kept, r.left ≠ .start)
    (many : ruleNumbers ≤ kept.length)
    (rules : g.rules = numberedRules (.accepting g.start) kept) : StartsAgain kept g := by
  obtain ⟨last, at_end, numbered⟩ := exists_numberedRules (.accepting g.start) many
  rw [numbered] at rules
  have at_last : kept[kept.length - 1]? = some last := by
    rw [← at_end, List.getLast?_eq_getElem?]
  refine { rules := ⟨last, at_end, rules⟩, not_accepting := ?_, lost := ?_ }
  · -- All rules of the table are kept ones, and none of these is for the reserved nonterminal.
    rw [rules]
    intro member
    have among : .accepting g.start ∈ kept := by
      rcases List.mem_cons.mp member with equal | early
      · rw [equal]
        exact List.mem_of_getElem? at_last
      · exact List.mem_of_mem_take early
    exact proper _ among rfl
  · intro i r late not_last at_i member
    have inside : i < kept.length := by omega
    -- No other position has the rule, so it is neither the last one nor an early one.
    have only (j : Nat) (at_j : kept[j]? = some r) : j = i :=
      ((List.getElem?_inj inside distinct).mp (at_i.trans at_j.symm)).symm
    rw [rules] at member
    rcases List.mem_cons.mp member with rfl | early
    · have := only _ at_last
      omega
    · obtain ⟨j, short, rfl⟩ := List.mem_iff_getElem.mp early
      rw [List.length_take] at short
      have := only j (by rw [List.getElem_take]; exact List.getElem?_eq_getElem (by omega))
      omega

namespace Builder

variable {b : Builder}

theorem startsAgain_of_finish (sound : b.Sound) (distinct : (b.rules.map Rule.sides).Nodup)
    (finished : b.finish = .ok g) (many : ruleNumbers ≤ (reachedRules b.rules g.start).length) :
    StartsAgain (reachedRules b.rules g.start) g := by
  apply startsAgain_of_rules (List.Nodup.of_map _ distinct |>.filter _) ?_ many
    (numberedRules_of_finish finished)
  intro r member
  exact (sound.rules_declared r (List.mem_filter.mp member).1).left_ne_start

theorem numbersEach_iff_of_finish (sound : b.Sound) (distinct : (b.rules.map Rule.sides).Nodup)
    (finished : b.finish = .ok g) :
    NumbersEach (reachedRules b.rules g.start) g ↔
      (reachedRules b.rules g.start).length < ruleNumbers := by
  constructor
  · intro each
    refine Nat.lt_of_not_le fun many => ?_
    exact (startsAgain_of_finish sound distinct finished many).not_numbersEach many each
  · intro few
    apply numbersEach_of_rules
    rw [numberedRules_of_finish finished, numberedRules_of_lt few]

end Builder

/-- As many rules as there are numbers are one too many. -/
theorem Examples.square_startsAgain {n : Nat} (full : (n + 1) * (n + 1) = ruleNumbers) :
    ∃ g, Grammar.defineAccepted (square (n + 1)) = .ok g ∧
      reachedRules (Grammar.declaredRules (square (n + 1))) g.start = squareRules (n + 1) ∧
      (squareRules (n + 1)).length = ruleNumbers ∧ StartsAgain (squareRules (n + 1)) g := by
  obtain ⟨g, defined, start, reached, rules⟩ := exists_square n
  have length : (squareRules (n + 1)).length = ruleNumbers := by rw [length_squareRules, full]
  refine ⟨g, defined, reached, length, ?_⟩
  refine startsAgain_of_rules (List.Nodup.of_map _ (squareRules_nodup (n + 1))) ?_
    (Nat.le_of_eq length.symm) (start ▸ rules)
  exact fun r member => Nat.ne_of_gt (squareRules_over member).left_pos

/-! ### Grammars -/

/-- Each kept rule has a number of its own just if there are fewer of them than numbers, and
otherwise the numbers start again. -/
theorem Grammar.numbers_run_out {ds : List Declaration} {g : Grammar}
    (defined : defineAccepted ds = .ok g) :
    let kept := reachedRules (declaredRules ds) g.start
    (NumbersEach kept g ↔ kept.length < ruleNumbers) ∧
      (ruleNumbers ≤ kept.length → StartsAgain kept g) := by
  have records := Builder.attemptAll_records ds
  exact ⟨Builder.numbersEach_iff_of_finish records.toSound records.sides defined,
    Builder.startsAgain_of_finish records.toSound records.sides defined⟩

/-- Of five declared rules three are kept, and there is no want of numbers. -/
theorem Grammar.numbers_run_out_withGaps :
    let g := Examples.grammarOf Examples.withGaps
    let kept := reachedRules (declaredRules Examples.withGaps) g.start
    defineAccepted Examples.withGaps = .ok g ∧ kept.length = 3 ∧ NumbersEach kept g := by
  intro g kept
  have defined : defineAccepted Examples.withGaps = .ok g := rfl
  have length : kept.length = 3 := by decide +kernel
  have few : kept.length < ruleNumbers := by
    rw [length]
    decide
  exact ⟨defined, length, (numbers_run_out defined).1.mpr few⟩

/-- With as many rules as there are numbers, rule 0 is the last one of them. -/
theorem Grammar.numbers_run_out_square :
    ∃ g, defineAccepted (Examples.square 256) = .ok g ∧
      let kept := reachedRules (declaredRules (Examples.square 256)) g.start
      kept.length = 65536 ∧ g.rules.length = 65536 ∧
        g.rules[RuleId.accept]? = some ⟨256, [.terminal 258], none, none⟩ ∧
        .accepting g.start ∉ g.rules ∧ ¬ NumbersEach kept g := by
  obtain ⟨g, defined, reached, length, again⟩ := Examples.square_startsAgain (n := 255) rfl
  obtain ⟨last, at_end, rules⟩ := again.rules
  rw [Examples.getLast?_squareRules] at at_end
  have full := Nat.le_of_eq length.symm
  refine ⟨g, defined, ?_⟩
  intro kept
  have kept_eq : kept = Examples.squareRules 256 := reached
  rw [kept_eq]
  refine ⟨length, again.length full, ?_, again.not_accepting, again.not_numbersEach full⟩
  rw [rules, ← Option.some.inj at_end]
  rfl

end CanonicalLR
