import CanonicalLR.Examples.Small
import CanonicalLR.Proofs.Worklist

/-!
# Closures as least closed sets

A set of items is closed if it has all that its items predict. The closure of an item set is the
least closed set above it, so the closure of a closed set is the set itself. What an item predicts
depends on no other item: the union of two closed sets is closed, and with it the closure of a union
is the union of the closures. The queue by which items are closed asks each item once, in an order
that depends on the one in which they are supplied, but what it ends with does not.
-/
namespace CanonicalLR

namespace Grammar

/-- A set has each rule for the nonterminal after a marker, with the marker at the front and with
each terminal that may follow. -/
def IsClosed (g : Grammar) (s : ItemSet) : Prop :=
  ∀ i ∈ s, ∀ n, i.next? g = some (.nonterminal n) → ∀ q ∈ g.rulesOf n,
    ∀ b ∈ (FirstSets.ofGrammar g).lookaheads (i.afterNext g) i.lookahead,
      { rule := q, marker := 0, lookahead := b } ∈ s

/-- A set is closed, and it is in every closed set that has the items of the kernel. -/
structure IsLeastClosed (g : Grammar) (kernel closure : ItemSet) : Prop where
  above : kernel ⊆ closure
  closed : g.IsClosed closure
  least : ∀ s, kernel ⊆ s → g.IsClosed s → closure ⊆ s

variable {g : Grammar} {kernel kernel' s t : ItemSet}

theorem isClosed_iff :
    g.IsClosed s ↔ ∀ i ∈ s, ∀ j ∈ (Predictor.ofGrammar g).predicts i, j ∈ s := by
  constructor
  · intro closed i member j predicts
    obtain ⟨n, next, q, rule, b, looked, rfl⟩ := Predictor.mem_predicts_iff.mp predicts
    exact closed i member n next q rule b looked
  · intro asked i member n next q rule b looked
    exact asked i member _ (Predictor.mem_predicts_iff.mpr ⟨n, next, q, rule, b, looked, rfl⟩)

/-- Each item is asked alone what it predicts. -/
theorem IsClosed.union (left : g.IsClosed s) (right : g.IsClosed t) : g.IsClosed (s ∪ t) := by
  intro i member n next q rule b looked
  rcases OrderedSet.mem_union.mp member with in_left | in_right
  · exact OrderedSet.mem_union.mpr (.inl (left i in_left n next q rule b looked))
  · exact OrderedSet.mem_union.mpr (.inr (right i in_right n next q rule b looked))

namespace WellFormed

theorem isClosed_closure (wf : g.WellFormed) (kernel : ItemSet) :
    g.IsClosed (g.closure kernel) := by
  apply isClosed_iff.mpr
  intro i member j predicts
  have closed := wf.mem_closure_iff.mp member
  exact wf.mem_closure_iff.mpr (ItemQueue.inClosure_of_predicts wf closed j predicts)

theorem subset_closure (wf : g.WellFormed) (kernel : ItemSet) : kernel ⊆ g.closure kernel := by
  intro i member
  exact wf.mem_closure_iff.mpr (.given member)

/-- By induction on how an item gets into the closure: what predicts it is in the closed set. -/
theorem mem_of_inClosure (wf : g.WellFormed) (above : kernel ⊆ s) (closed : g.IsClosed s) {i : Item}
    (in_closure : InClosure g kernel i) : i ∈ s := by
  induction in_closure with
  | given member => exact above _ member
  | @predict i q b _ known next begins ih =>
    have predicts := (Predictor.mem_predicts wf).mpr ⟨q, b, rfl, known, next, begins⟩
    exact isClosed_iff.mp closed i ih _ predicts

theorem closure_subset (wf : g.WellFormed) (above : kernel ⊆ s) (closed : g.IsClosed s) :
    g.closure kernel ⊆ s := by
  intro i member
  exact wf.mem_of_inClosure above closed (wf.mem_closure_iff.mp member)

theorem isLeastClosed (wf : g.WellFormed) (kernel : ItemSet) :
    g.IsLeastClosed kernel (g.closure kernel) where
  above := wf.subset_closure kernel
  closed := wf.isClosed_closure kernel
  least _ := wf.closure_subset

theorem closure_mono (wf : g.WellFormed) (fewer : kernel ⊆ kernel') :
    g.closure kernel ⊆ g.closure kernel' := by
  apply wf.closure_subset
  · intro i member
    exact wf.subset_closure kernel' i (fewer i member)
  · exact wf.isClosed_closure kernel'

theorem closure_eq_self (wf : g.WellFormed) (closed : g.IsClosed s) : g.closure s = s := by
  ext i
  constructor
  · exact wf.closure_subset (fun _ member => member) closed i
  · exact wf.subset_closure s i

theorem closure_union (wf : g.WellFormed) (kernel kernel' : ItemSet) :
    g.closure (kernel ∪ kernel') = g.closure kernel ∪ g.closure kernel' := by
  ext i
  constructor
  · apply wf.closure_subset
    · intro j member
      rcases OrderedSet.mem_union.mp member with left | right
      · exact OrderedSet.mem_union.mpr (.inl (wf.subset_closure kernel j left))
      · exact OrderedSet.mem_union.mpr (.inr (wf.subset_closure kernel' j right))
    · exact (wf.isClosed_closure kernel).union (wf.isClosed_closure kernel')
  · intro member
    rcases OrderedSet.mem_union.mp member with left | right
    · exact wf.closure_mono (fun _ given => OrderedSet.mem_union.mpr (.inl given)) i left
    · exact wf.closure_mono (fun _ given => OrderedSet.mem_union.mpr (.inr given)) i right

/-- A queue that keeps the invariant of closing ends with the closure and with nothing else. -/
theorem empties_iff (wf : g.WellFormed) {queue : ItemQueue} (closes : queue.Closes g kernel)
    {items : ItemSet} : queue.Empties (.ofGrammar g) items ↔ items = g.closure kernel := by
  constructor
  · intro empties
    induction empties with
    | done empty => exact ItemQueue.items_eq_closure wf closes empty
    | turn turned _ ih => exact ih (ItemQueue.turn_closes wf closes turned).1
  · rintro rfl
    exact ItemQueue.empties_of_closes wf closes

end WellFormed

/-- In a defined grammar the closure of an item set is the least closed set above it. Closing it
again changes nothing, unions may be closed part by part, and the queue of items makes the same of
them in whatever order they are supplied. -/
theorem closure_is_least {ds : List Declaration} (defined : defineAccepted ds = .ok g) :
    (∀ kernel, g.IsLeastClosed kernel (g.closure kernel)) ∧
      (∀ kernel, g.closure (g.closure kernel) = g.closure kernel) ∧
      (∀ kernel kernel', g.closure (kernel ∪ kernel') = g.closure kernel ∪ g.closure kernel') ∧
      ∀ (kernel : ItemSet) (supplied : List Item), (∀ i, i ∈ supplied ↔ i ∈ kernel) →
        ∀ items, (ItemQueue.ofItems supplied).Empties (.ofGrammar g) items ↔
          items = g.closure kernel := by
  have wf := wellFormed_of_defined defined
  refine ⟨wf.isLeastClosed, fun kernel => ?_, wf.closure_union,
    fun kernel supplied same items => ?_⟩
  · exact wf.closure_eq_self (wf.isClosed_closure kernel)
  · exact wf.empties_iff (ItemQueue.ofItems_closes g same)

/-- The start of an expression and one in parentheses predict some items both. Supplied in the wrong
order, and one of them twice, they are closed to what their two closures have together. -/
theorem closure_is_least_withNullable :
    let g := Examples.grammarOf Examples.withNullable
    let outer : ItemSet := .startKernel
    let inner : ItemSet := .ofList [{ rule := 4, marker := 1, lookahead := 5 }]
    let supplied : List Item :=
      [{ rule := 4, marker := 1, lookahead := 5 }, { rule := 0, marker := 0, lookahead := 0 },
        { rule := 4, marker := 1, lookahead := 5 }]
    defineAccepted Examples.withNullable = .ok g ∧
      (g.closure outer).size = 13 ∧ (g.closure inner).size = 18 ∧
      g.IsLeastClosed (outer ∪ inner) (g.closure outer ∪ g.closure inner) ∧
      g.closure (g.closure outer ∪ g.closure inner) = g.closure outer ∪ g.closure inner ∧
      (∀ i, i ∈ supplied ↔ i ∈ outer ∪ inner) ∧ ∃ items,
        (ItemQueue.ofItems supplied).Empties (.ofGrammar g) items ∧ items.size = 24 := by
  intro g outer inner supplied
  have defined : defineAccepted Examples.withNullable = .ok g := rfl
  obtain ⟨least, again, union, queue⟩ := closure_is_least defined
  have same (i : Item) : i ∈ supplied ↔ i ∈ outer ∪ inner := by
    simp only [supplied, outer, inner, OrderedSet.mem_union, mem_startKernel, OrderedSet.mem_ofList,
      List.mem_cons, List.not_mem_nil, or_false, TerminalId.eoi, RuleId.accept]
    tauto
  have whole := least (outer ∪ inner)
  have closed_again := again (outer ∪ inner)
  rw [union] at whole closed_again
  refine ⟨defined, by decide +kernel, by decide +kernel, whole, closed_again, same, ?_⟩
  exact ⟨_, (queue _ supplied same _).mpr rfl, by decide +kernel⟩

end Grammar

end CanonicalLR
