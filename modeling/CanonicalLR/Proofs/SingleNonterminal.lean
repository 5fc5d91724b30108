import CanonicalLR.Proofs.LeftRecursion
import CanonicalLR.Proofs.ParserCompleteness

/-!
# Grammars with one nonterminal

Where all declared rules are for the start symbol, a rule is as good as its right side, and whatever
is derived comes from exchanging the start symbol for right sides. If each of these has a terminal,
every step of a derivation adds one, so nothing vanishes or comes back to itself, and every run of a
parser ends.
-/
namespace CanonicalLR.Grammar

/-- Besides the one that is added to every grammar, the rules are for the start symbol, one for each
of these right sides. -/
def Offers (g : Grammar) (rights : List (List Symbol)) : Prop :=
  (g.rules.tail.map fun r => (r.left, r.right)).Perm (rights.map fun right => (g.start, right))

namespace Offers

variable {g : Grammar} {rights : List (List Symbol)} {q : RuleId} {r : Rule} {right : List Symbol}

/-- Rules other than the first have these sides. -/
theorem sides_of_found (offers : g.Offers rights) (found : g.rules[q]? = some r)
    (proper : q ≠ .accept) : r.left = g.start ∧ r.right ∈ rights := by
  obtain ⟨q, rfl⟩ := Nat.exists_eq_succ_of_ne_zero proper
  have member : r ∈ g.rules.tail := by
    rw [← List.getElem?_tail] at found
    exact List.mem_of_getElem? found
  have listed := offers.subset (List.mem_map_of_mem member)
  obtain ⟨right, among, same⟩ := List.mem_map.mp listed
  obtain ⟨left, rfl⟩ := Prod.mk.inj same
  exact ⟨left.symm, among⟩

theorem exists_rule (offers : g.Offers rights) (among : right ∈ rights) :
    ∃ (q : RuleId) (r : Rule), g.rules[q]? = some r ∧ q ≠ .accept ∧ r.left = g.start ∧
      r.right = right := by
  have listed := offers.symm.subset (List.mem_map_of_mem among)
  obtain ⟨r, member, same⟩ := List.mem_map.mp listed
  obtain ⟨left, rfl⟩ := Prod.mk.inj same
  obtain ⟨q, found⟩ := List.getElem?_of_mem member
  rw [List.getElem?_tail] at found
  exact ⟨q + 1, r, found, Nat.succ_ne_zero q, left, rfl⟩

theorem start_ne_start (offers : g.Offers rights) (augmented : g.Augmented)
    (among : right ∈ rights) : g.start ≠ .start := by
  obtain ⟨q, r, found, proper, left, _⟩ := offers.exists_rule among
  exact left ▸ (augmented.others_declared q r found proper).left_ne_start

/-- A terminal is next only in one of these right sides. -/
theorem right_mem_of_next (offers : g.Offers rights) (augmented : g.Augmented) {i : Item}
    {t : TerminalId} (next : i.next? g = some (.terminal t)) : i.right g ∈ rights := by
  have found := getElem?_rule (Item.rule_known_of_next? next)
  refine (offers.sides_of_found found ?_).2
  intro first
  have member := Item.next?_mem next
  rw [Item.right, first, augmented.rule_accept] at member
  simp [Rule.accepting] at member

/-- What holds of the start symbol and stays when it is exchanged for a right side holds of all that
is derived. -/
theorem of_derives (offers : g.Offers rights) (augmented : g.Augmented) (among : right ∈ rights)
    {holds : List Symbol → Prop} (start : holds [.nonterminal g.start])
    (exchange : ∀ before right after, right ∈ rights →
      holds (before ++ .nonterminal g.start :: after) → holds (before ++ right ++ after))
    {u : List Symbol} (derivation : Derives g.rules [.nonterminal g.start] u) : holds u := by
  have proper := offers.start_ne_start augmented among
  induction derivation with
  | refl => exact start
  | tail earlier step ih =>
    obtain ⟨member, before, after⟩ := step
    obtain ⟨q, found⟩ := List.getElem?_of_mem member
    by_cases first : q = RuleId.accept
    · -- The reserved nonterminal is not derived, so its rule is not used.
      subst first
      obtain rfl := augmented.eq_accepting found
      exact absurd (by simp [Rule.accepting]) (augmented.start_not_mem_sentential proper earlier)
    · obtain ⟨left, offered⟩ := offers.sides_of_found found first
      rw [left] at ih
      exact exchange before _ after offered ih

theorem markersFit (offers : g.Offers rights) (augmented : g.Augmented)
    (short : ∀ right ∈ rights, right.length < markerNumbers) : g.MarkersFit := by
  intro r member
  obtain ⟨q, found⟩ := List.getElem?_of_mem member
  by_cases first : q = RuleId.accept
  · subst first
    obtain rfl := augmented.eq_accepting found
    simp [Rule.accepting, markerNumbers]
  · exact short _ (offers.sides_of_found found first).2

/-! ### Right sides with terminals -/

theorem right_ne_nil (offers : g.Offers rights) (augmented : g.Augmented)
    (marked : ∀ right ∈ rights, ∃ t, .terminal t ∈ right) (found : g.rules[q]? = some r) :
    r.right ≠ [] := by
  by_cases first : q = RuleId.accept
  · subst first
    obtain rfl := augmented.eq_accepting found
    simp [Rule.accepting]
  · obtain ⟨t, inside⟩ := marked _ (offers.sides_of_found found first).2
    exact List.ne_nil_of_mem inside

/-- Nothing that is not empty vanishes. -/
theorem not_hiddenLeftRecursive (offers : g.Offers rights) (augmented : g.Augmented)
    (marked : ∀ right ∈ rights, ∃ t, .terminal t ∈ right) : ¬ HiddenLeftRecursive g.rules := by
  rintro ⟨n, front, rest, some, vanishes, _⟩
  have stays (u v : List Symbol) (step : Yields g.rules u v) : v ≠ [] := by
    obtain ⟨member, before, after⟩ := step
    obtain ⟨q, found⟩ := List.getElem?_of_mem member
    have nonempty := offers.right_ne_nil augmented marked found
    simp [nonempty]
  rcases Relation.ReflTransGen.cases_tail vanishes with same | ⟨u, _, step⟩
  · exact some same.symm
  · exact stays u [] step rfl

theorem not_cyclic (offers : g.Offers rights) (augmented : g.Augmented) (among : right ∈ rights)
    (marked : ∀ right ∈ rights, ∃ t, .terminal t ∈ right) : ¬ Cyclic g.rules := by
  rintro ⟨n, cycle⟩
  obtain ⟨v, step, derivation⟩ := Relation.TransGen.head'_iff.mp cycle
  generalize whole : [Symbol.nonterminal n] = u at step
  obtain @⟨r, member, before, after⟩ := step
  obtain ⟨rfl, left, rfl⟩ := eq_nil_of_singleton whole
  obtain ⟨q, found⟩ := List.getElem?_of_mem member
  rw [List.nil_append, List.append_nil] at derivation
  by_cases first : q = RuleId.accept
  · -- The start symbol does not derive the reserved nonterminal.
    subst first
    obtain rfl := augmented.eq_accepting found
    obtain rfl := Symbol.nonterminal.inj left
    have proper := offers.start_ne_start augmented among
    exact augmented.start_not_mem_sentential proper derivation (by simp [Rule.accepting])
  · -- A terminal of the right side would still be there when the nonterminal has come back.
    obtain ⟨t, inside⟩ := marked _ (offers.sides_of_found found first).2
    simpa using Derives.terminal_mem derivation inside

/-- Every run of a parser ends, however the conflicts were settled. -/
theorem halts (offers : g.Offers rights) (augmented : g.Augmented) (fits : g.MarkersFit)
    (among : right ∈ rights)
    (marked : ∀ right ∈ rights, ∃ t, .terminal t ∈ right) {built : Construction}
    (constructed : g.construct = .ok built) (tokens : List TerminalId) :
    ∃ fuel outcome, built.table.parse? g fuel tokens = some outcome :=
  Parser.haltsAt_of_acyclic augmented.toWellFormed fits constructed
    (offers.not_hiddenLeftRecursive augmented marked) (offers.not_cyclic augmented among marked)
    tokens [] _ .initial

end Offers

end CanonicalLR.Grammar
