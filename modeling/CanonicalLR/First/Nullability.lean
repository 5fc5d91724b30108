import CanonicalLR.Discovery.Completion
import CanonicalLR.First.Expansion
import CanonicalLR.Grammar.Derivation

/-!
# What is nullable

The nonterminals that `Grammar.nullable` lists are those that derive the empty string. A derivation
of the empty string never contains a terminal, so each nonterminal in it goes by a rule whose right
side vanishes as well; following the derivation from its end, all of them are discovered.
-/
namespace CanonicalLR

@[simp] theorem isIn_terminal (known : List NonterminalId) (t : TerminalId) :
    (Symbol.terminal t).isIn known = false := rfl

@[simp] theorem isIn_nonterminal {known : List NonterminalId} {n : NonterminalId} :
    (Symbol.nonterminal n).isIn known = true ↔ n ∈ known := by
  simp [Symbol.isIn]

namespace Grammar

variable (g : Grammar)

theorem mem_nullablePass {known : List NonterminalId} {n : NonterminalId} :
    n ∈ g.nullablePass known ↔
      n ∈ known ∨ ∃ r ∈ g.rules, r.left = n ∧ ∀ x ∈ r.right, x.isIn known = true := by
  simp only [nullablePass, mem_discoverAll, List.mem_map, List.mem_filter, List.all_eq_true]
  refine or_congr_right ?_
  constructor
  · rintro ⟨r, ⟨member, vanishes⟩, left⟩
    exact ⟨r, member, left, vanishes⟩
  · rintro ⟨r, member, left, vanishes⟩
    exact ⟨r, ⟨member, vanishes⟩, left⟩

theorem nullablePass_nullable : g.nullablePass g.nullable = g.nullable := by
  refine discovery_complete g.nullablePass (g.rules.map (·.left))
    (fun known => isPrefix_discoverAll _ _) (fun known distinct => nodup_discoverAll distinct _)
    ?_ _ [] .nil (by simp) (by simp)
  intro known inside n member
  rcases g.mem_nullablePass.mp member with old | ⟨r, rule, rfl, _⟩
  · exact inside old
  · exact List.mem_map_of_mem rule

/-- A symbol string is discovered to vanish if all its symbols are nullable nonterminals. -/
theorem derives_nil_of_isIn {known : List NonterminalId}
    (sound : ∀ n ∈ known, Derives g.rules [.nonterminal n] []) {xs : List Symbol}
    (all_known : ∀ x ∈ xs, x.isIn known = true) : Derives g.rules xs [] := by
  induction xs with
  | nil => exact .refl []
  | cons x xs ih =>
    have tail := ih fun y member => all_known y (by simp [member])
    have head : Derives g.rules [x] [] := by
      have known_x := all_known x (by simp)
      cases x with
      | terminal t => simp at known_x
      | nonterminal n => exact sound n (isIn_nonterminal.mp known_x)
    exact head.append tail

theorem derives_nil_of_mem_nullable {n : NonterminalId} (member : n ∈ g.nullable) :
    Derives g.rules [.nonterminal n] [] := by
  have sound : ∀ m ∈ g.nullable, Derives g.rules [.nonterminal m] [] := by
    refine iterate_induction g.nullablePass
      (fun known => ∀ m ∈ known, Derives g.rules [.nonterminal m] []) ?_ _ [] (by simp)
    intro known sound m member
    rcases g.mem_nullablePass.mp member with old | ⟨r, rule, rfl, vanishes⟩
    · exact sound m old
    · exact (Derives.of_rule rule).trans (g.derives_nil_of_isIn sound vanishes)
  exact sound n member

theorem isIn_nullable_of_derives_nil {xs : List Symbol} (vanishes : Derives g.rules xs []) :
    ∀ x ∈ xs, x.isIn g.nullable = true := by
  induction vanishes using Relation.ReflTransGen.head_induction_on with
  | refl => simp
  | head step _ ih =>
    obtain ⟨rule, before, after⟩ := step
    intro x member
    rcases List.mem_append.mp member with left | right
    · exact ih x (by simp [left])
    · rcases List.mem_cons.mp right with rfl | right
      · -- The nonterminal that was exchanged goes by a rule whose right side is known to vanish.
        have found : _ ∈ g.nullablePass g.nullable :=
          g.mem_nullablePass.mpr (.inr ⟨_, rule, rfl, fun y member => ih y (by simp [member])⟩)
        rw [nullablePass_nullable] at found
        exact isIn_nonterminal.mpr found
      · exact ih x (by simp [right])

theorem mem_nullable {n : NonterminalId} :
    n ∈ g.nullable ↔ Derives g.rules [.nonterminal n] [] := by
  refine ⟨g.derives_nil_of_mem_nullable, fun vanishes => ?_⟩
  exact isIn_nonterminal.mp (g.isIn_nullable_of_derives_nil vanishes _ (by simp))

end Grammar

end CanonicalLR
