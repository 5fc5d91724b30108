import CanonicalLR.Examples.Small
import CanonicalLR.Proofs.First

/-!
# FIRST sets of all strings

No rule mentions the marker for the empty string, but a string whose FIRST set is asked for may. The
marker has itself as its FIRST set, so it is passed over wherever it stands, and the FIRST set of a
string is that of what is left without its markers. This makes the FIRST sets of nullability, of
symbols, of strings and of strings before a lookahead exact for all strings.
-/
namespace CanonicalLR

/-- A string without its markers for the empty string. -/
def unmarked (xs : List Symbol) : List Symbol :=
  xs.filter fun x => x ≠ .terminal .epsilon

theorem epsilon_not_mem_unmarked (xs : List Symbol) : .terminal .epsilon ∉ unmarked xs := by
  simp [unmarked]

/-- What FIRST sets are about: a terminal begins a derived string, and the marker for the empty
string tells that this one is derived. -/
def Grammar.InFirst (g : Grammar) (xs : List Symbol) (t : TerminalId) : Prop :=
  t ≠ .epsilon ∧ Begins g.rules xs t ∨ t = .epsilon ∧ Derives g.rules xs []

namespace FirstSets

variable (f : FirstSets)

theorem firstOf_cons_epsilon (xs : List Symbol) :
    f.firstOf (.terminal .epsilon :: xs) = f.firstOf xs := by
  have marked : .epsilon ∈ f.first (.terminal .epsilon) := mem_first_terminal.mpr rfl
  simp only [firstOf, OrderedSet.contains_iff]
  rw [if_pos marked]
  ext t
  rw [OrderedSet.mem_union, OrderedSet.mem_erase, mem_first_terminal]
  -- Nothing but the marker was there, and it has been erased.
  refine or_iff_right ?_
  rintro ⟨same, other⟩
  exact other same

/-- Markers count for nothing. -/
theorem firstOf_unmarked (xs : List Symbol) : f.firstOf (unmarked xs) = f.firstOf xs := by
  induction xs with
  | nil => rfl
  | cons x xs ih =>
    by_cases marker : x = .terminal .epsilon
    · subst marker
      have dropped : unmarked (.terminal .epsilon :: xs) = unmarked xs := by simp [unmarked]
      rw [dropped, ih, firstOf_cons_epsilon]
    · have kept : unmarked (x :: xs) = x :: unmarked xs := by simp [unmarked, marker]
      rw [kept, firstOf, firstOf, ih]

/-- The FIRST set of a symbol is that of the string that consists of it. -/
theorem firstOf_singleton (x : Symbol) : f.firstOf [x] = f.first x := by
  simp only [firstOf, OrderedSet.contains_iff]
  split
  next marked =>
    -- The marker is erased and put back by the empty rest.
    ext t
    simp only [OrderedSet.mem_union, OrderedSet.mem_erase, OrderedSet.mem_ofList,
      List.mem_singleton]
    constructor
    · rintro (⟨member, _⟩ | rfl)
      · exact member
      · exact marked
    · intro member
      by_cases marker : t = .epsilon
      · exact .inr marker
      · exact .inl ⟨member, marker⟩
  next => rfl

theorem lookaheads_unmarked (xs : List Symbol) (a : TerminalId) :
    f.lookaheads (unmarked xs) a = f.lookaheads xs a := by
  simp only [lookaheads, firstOf_unmarked]

end FirstSets

namespace Grammar

variable {g : Grammar}

theorem isNullable_iff {n : NonterminalId} :
    (FirstSets.ofGrammar g).isNullable n = true ↔ Derives g.rules [.nonterminal n] [] := by
  rw [← g.mem_nullable]
  exact decide_eq_true_iff

theorem WellFormed.mem_firstOf_iff (wf : g.WellFormed) {xs : List Symbol} {t : TerminalId} :
    t ∈ (FirstSets.ofGrammar g).firstOf xs ↔ g.InFirst (unmarked xs) t := by
  have clean := epsilon_not_mem_unmarked xs
  rw [← FirstSets.firstOf_unmarked, InFirst]
  by_cases marker : t = .epsilon
  · subst marker
    simp [wf.epsilon_mem_firstOf clean]
  · simp [wf.mem_firstOf clean marker, marker]

theorem WellFormed.mem_first_iff (wf : g.WellFormed) {x : Symbol} {t : TerminalId} :
    t ∈ (FirstSets.ofGrammar g).first x ↔ g.InFirst (unmarked [x]) t := by
  rw [← FirstSets.firstOf_singleton]
  exact wf.mem_firstOf_iff

theorem WellFormed.mem_lookaheads_iff (wf : g.WellFormed) {xs : List Symbol} {a t : TerminalId} :
    t ∈ (FirstSets.ofGrammar g).lookaheads xs a ↔
      Begins g.rules (unmarked xs ++ [.terminal a]) t := by
  rw [← FirstSets.lookaheads_unmarked]
  exact wf.mem_lookaheads (epsilon_not_mem_unmarked xs)

theorem WellFormed.epsilon_not_mem_lookaheads (wf : g.WellFormed) {xs : List Symbol}
    {a : TerminalId} (proper : a ≠ .epsilon) :
    .epsilon ∉ (FirstSets.ofGrammar g).lookaheads xs a := by
  intro member
  obtain ⟨rest, derivation⟩ := wf.mem_lookaheads_iff.mp member
  refine wf.epsilon_not_mem_of_derives derivation ?_ List.mem_cons_self
  simpa [epsilon_not_mem_unmarked] using proper.symm

/-- Nullability, the FIRST sets of symbols and strings, and the lookaheads before a terminal are
what derivations make them. -/
theorem first_sets_exact {ds : List Declaration} (defined : defineAccepted ds = .ok g) :
    let f := FirstSets.ofGrammar g
    (∀ n, f.isNullable n = true ↔ Derives g.rules [.nonterminal n] []) ∧
      (∀ x t, t ∈ f.first x ↔ g.InFirst (unmarked [x]) t) ∧
      (∀ xs t, t ∈ f.firstOf xs ↔ g.InFirst (unmarked xs) t) ∧
      ∀ xs a, a ≠ .epsilon → .epsilon ∉ f.lookaheads xs a ∧
        ∀ t, t ∈ f.lookaheads xs a ↔ Begins g.rules (unmarked xs ++ [.terminal a]) t := by
  have wf := wellFormed_of_defined defined
  refine ⟨fun _ => isNullable_iff, fun _ _ => wf.mem_first_iff, fun _ _ => wf.mem_firstOf_iff, ?_⟩
  intro xs a proper
  exact ⟨wf.epsilon_not_mem_lookaheads proper, fun _ => wf.mem_lookaheads_iff⟩

/-- Before a right parenthesis a nullable nonterminal gives way to what it may begin with. -/
theorem first_sets_exact_withNullable :
    let g := Examples.grammarOf Examples.withNullable
    let f := FirstSets.ofGrammar g
    let xs : List Symbol := [.terminal .epsilon, .nonterminal 3]
    defineAccepted Examples.withNullable = .ok g ∧ f.isNullable 3 = true ∧
      Derives g.rules [.nonterminal 3] [] ∧ g.InFirst (unmarked xs) 7 ∧
      (f.lookaheads xs 4).toList = [4, 7] ∧
      ∀ t, t ∈ [4, 7] ↔ Begins g.rules (unmarked xs ++ [.terminal 4]) t := by
  intro g f xs
  have defined : defineAccepted Examples.withNullable = .ok g := rfl
  obtain ⟨nullable, _, strings, lookaheads⟩ := first_sets_exact defined
  have vanishes : f.isNullable 3 = true := by decide +kernel
  have begins : 7 ∈ f.firstOf xs := by decide +kernel
  have listed : (f.lookaheads xs 4).toList = [4, 7] := by decide +kernel
  refine ⟨defined, vanishes, (nullable 3).mp vanishes, (strings xs 7).mp begins, listed, ?_⟩
  intro t
  rw [← listed, OrderedSet.mem_toList]
  exact (lookaheads xs 4 (by decide)).2 t

end Grammar

end CanonicalLR
