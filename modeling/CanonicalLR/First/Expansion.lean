import CanonicalLR.Discovery
import CanonicalLR.Fixpoint
import CanonicalLR.Grammar.Basic

/-!
# Nullable nonterminals and expanded productions

A nonterminal is nullable if it derives the empty string, which it does if the right side of some
rule for it consists of nullable nonterminals only. They are discovered in passes over the rules.

Striking nullable nonterminals off the front of a right side gives more productions that the
grammar could have had. A terminal begins what a nonterminal derives just if it begins a right side
that some expanded productions lead to, so FIRST sets look at the first symbols of these alone.
-/
namespace CanonicalLR

def Symbol.isIn (known : List NonterminalId) : Symbol → Bool
  | .terminal _ => false
  | .nonterminal n => n ∈ known

namespace Grammar

variable (g : Grammar)

def nullablePass (known : List NonterminalId) : List NonterminalId :=
  discoverAll known ((g.rules.filter fun r => r.right.all (·.isIn known)).map (·.left))

/-- Each pass but the last discovers the left side of some rule. -/
def nullable : List NonterminalId :=
  iterate g.nullablePass g.rules.length []

end Grammar

/-- The string itself and what is left of it when known nonterminals are struck off its front. -/
def strippings (known : List NonterminalId) : List Symbol → List (List Symbol)
  | [] => [[]]
  | x :: xs => (x :: xs) :: if x.isIn known then strippings known xs else []

/-- What is struck off consists of known nonterminals. -/
theorem mem_strippings {known : List NonterminalId} {xs ys : List Symbol} :
    ys ∈ strippings known xs ↔ ∃ struck, xs = struck ++ ys ∧ ∀ x ∈ struck, x.isIn known := by
  induction xs with
  | nil =>
    constructor
    · intro member
      exact ⟨[], by simpa [strippings] using member, by simp⟩
    · rintro ⟨struck, split, _⟩
      have empty : ys = [] := (List.append_eq_nil_iff.mp split.symm).2
      simp [strippings, empty]
  | cons x xs ih =>
    simp only [strippings, List.mem_cons]
    constructor
    · rintro (rfl | member)
      · exact ⟨[], rfl, by simp⟩
      · split at member
        next known_x =>
          obtain ⟨struck, split, all_known⟩ := ih.mp member
          exact ⟨x :: struck, by rw [split, List.cons_append], by simpa [known_x] using all_known⟩
        next => simp at member
    · rintro ⟨struck, split, all_known⟩
      cases struck with
      | nil => exact .inl split.symm
      | cons y struck =>
        -- The first symbol is struck off, and the rest is a case of the tail.
        obtain ⟨rfl, tail⟩ := List.cons_eq_cons.mp split
        have known_x : x.isIn known = true := all_known x (by simp)
        rw [if_pos known_x]
        exact .inr (ih.mpr ⟨struck, tail, fun z member => all_known z (by simp [member])⟩)

namespace Grammar

variable (g : Grammar)

def expansions (known : List NonterminalId) : List (NonterminalId × List Symbol) :=
  g.rules.flatMap fun r => (strippings known r.right).map fun right => (r.left, right)

theorem mem_expansions {g : Grammar} {known : List NonterminalId} {n : NonterminalId}
    {ys : List Symbol} :
    (n, ys) ∈ g.expansions known ↔
      ∃ r ∈ g.rules, r.left = n ∧
        ∃ struck, r.right = struck ++ ys ∧ ∀ x ∈ struck, x.isIn known := by
  simp only [expansions, List.mem_flatMap, List.mem_map, Prod.mk.injEq, mem_strippings]
  constructor
  · rintro ⟨r, member, ys, stripped, rfl, rfl⟩
    exact ⟨r, member, rfl, stripped⟩
  · rintro ⟨r, member, rfl, stripped⟩
    exact ⟨r, member, ys, stripped, rfl, rfl⟩

end Grammar

end CanonicalLR
