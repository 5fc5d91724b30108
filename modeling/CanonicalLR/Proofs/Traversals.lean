/-!
# Traversals and lookups

A traversal whose steps may fail succeeds exactly if all of them do, and then it returns their
results in order. Looking up a key in the pairs that a traversal leaves finds the result for it.
-/
namespace CanonicalLR

variable {ε α β : Type}

/-- Where a list of pairs is a function, looking a value up finds the pair. -/
theorem lookup_eq_some_iff_mem [BEq α] [LawfulBEq α] {pairs : List (α × β)} {a : α}
    {b : β} (functional : ∀ a b b', (a, b) ∈ pairs → (a, b') ∈ pairs → b = b') :
    pairs.lookup a = some b ↔ (a, b) ∈ pairs := by
  constructor
  · intro found
    obtain ⟨before, after, whole, _⟩ := List.lookup_eq_some_iff.mp found
    simp [whole]
  · intro member
    cases found : pairs.lookup a with
    | none => exact absurd (List.lookup_eq_none_iff.mp found _ member) (by simp)
    | some b' =>
      obtain ⟨before, after, whole, _⟩ := List.lookup_eq_some_iff.mp found
      have member' : (a, b') ∈ pairs := by simp [whole]
      rw [functional a b b' member member']

theorem bind_ok_iff {x : Except ε α} {f : α → Except ε β} {b : β} :
    (x >>= f) = .ok b ↔ ∃ a, x = .ok a ∧ f a = .ok b := by
  cases x <;> simp [bind, Except.bind]

theorem bind_error_iff {x : Except ε α} {f : α → Except ε β} {e : ε} :
    (x >>= f) = .error e ↔ x = .error e ∨ ∃ a, x = .ok a ∧ f a = .error e := by
  cases x <;> simp [bind, Except.bind]

/-- A traversal succeeds if all its steps do. -/
theorem mapM_ok_iff {f : α → Except ε β} {xs : List α} {ys : List β} :
    xs.mapM f = .ok ys ↔ xs.map f = ys.map .ok := by
  induction xs generalizing ys with
  | nil => cases ys <;> simp [pure, Except.pure]
  | cons x xs ih =>
    simp only [List.mapM_cons, bind_ok_iff, ih, pure, Except.pure, Except.ok.injEq]
    cases ys with
    | nil => simp
    | cons y ys =>
      simp only [List.map_cons, List.cons.injEq]
      constructor
      · rintro ⟨_, head, _, tail, rfl, rfl⟩
        exact ⟨head, tail⟩
      · rintro ⟨head, tail⟩
        exact ⟨y, head, ys, tail, rfl, rfl⟩

theorem mem_of_mapM_ok {f : α → Except ε β} {xs : List α} {ys : List β}
    (traversed : xs.mapM f = .ok ys) {y : β} : y ∈ ys ↔ ∃ x ∈ xs, f x = .ok y := by
  have returned : y ∈ ys ↔ Except.ok y ∈ ys.map (Except.ok (ε := ε)) := by simp
  rw [returned, ← mapM_ok_iff.mp traversed, List.mem_map]

theorem exists_mapM_ok {f : α → Except ε β} {xs : List α} (succeeds : ∀ x ∈ xs, ∃ y, f x = .ok y) :
    ∃ ys, xs.mapM f = .ok ys := by
  induction xs with
  | nil => exact ⟨[], rfl⟩
  | cons x xs ih =>
    obtain ⟨y, head⟩ := succeeds x List.mem_cons_self
    obtain ⟨ys, tail⟩ := ih fun x' member => succeeds x' (List.mem_cons_of_mem x member)
    exact ⟨y :: ys, by simp [List.mapM_cons, head, tail, bind, Except.bind, pure, Except.pure]⟩

theorem exists_ok_of_mapM_ok {f : α → Except ε β} {xs : List α} {ys : List β}
    (traversed : xs.mapM f = .ok ys) {x : α} (member : x ∈ xs) : ∃ y, f x = .ok y := by
  have result : f x ∈ ys.map Except.ok := mapM_ok_iff.mp traversed ▸ List.mem_map_of_mem member
  obtain ⟨y, _, same⟩ := List.mem_map.mp result
  exact ⟨y, same.symm⟩

/-- A traversal fails only where one of its steps does. -/
theorem exists_error_of_mapM_error {f : α → Except ε β} {xs : List α} {e : ε}
    (failed : xs.mapM f = .error e) : ∃ x ∈ xs, f x = .error e := by
  induction xs with
  | nil => cases failed
  | cons x xs ih =>
    rw [List.mapM_cons, bind_error_iff] at failed
    rcases failed with head | ⟨y, _, later⟩
    · exact ⟨x, List.mem_cons_self, head⟩
    · -- The results are put together without a failure, so it comes from the rest.
      rcases bind_error_iff.mp later with tail | ⟨ys, _, returned⟩
      · obtain ⟨x', member, step⟩ := ih tail
        exact ⟨x', List.mem_cons_of_mem x member, step⟩
      · cases returned

theorem mem_of_paired {f : α → Except ε β} {xs : List α} {ys : List (α × β)}
    (traversed : (xs.mapM fun a => do return (a, ← f a)) = .ok ys) {a : α} {b : β} :
    (a, b) ∈ ys ↔ a ∈ xs ∧ f a = .ok b := by
  simp only [mem_of_mapM_ok traversed, bind_ok_iff, pure, Except.pure, Except.ok.injEq,
    Prod.mk.injEq]
  constructor
  · rintro ⟨_, member, _, result, rfl, rfl⟩
    exact ⟨member, result⟩
  · rintro ⟨member, result⟩
    exact ⟨a, member, b, result, rfl, rfl⟩

/-- A traversal keeps the keys in their order. -/
theorem keys_of_paired {f : α → Except ε β} {xs : List α} {ys : List (α × β)}
    (traversed : (xs.mapM fun a => do return (a, ← f a)) = .ok ys) : ys.map (·.1) = xs := by
  induction xs generalizing ys with
  | nil =>
    cases traversed
    rfl
  | cons x xs ih =>
    rw [List.mapM_cons] at traversed
    obtain ⟨y, head, traversed⟩ := bind_ok_iff.mp traversed
    obtain ⟨ys, tail, returned⟩ := bind_ok_iff.mp traversed
    obtain ⟨b, _, paired⟩ := bind_ok_iff.mp head
    cases returned
    cases paired
    rw [List.map_cons, ih tail]

theorem exists_paired {f : α → Except ε β} {xs : List α} (succeeds : ∀ x ∈ xs, ∃ y, f x = .ok y) :
    ∃ ys, (xs.mapM fun a => do return (a, ← f a)) = .ok ys := by
  refine exists_mapM_ok fun x member => ?_
  obtain ⟨y, result⟩ := succeeds x member
  exact ⟨(x, y), bind_ok_iff.mpr ⟨y, result, rfl⟩⟩

theorem exists_error_of_paired_error {f : α → Except ε β} {xs : List α} {e : ε}
    (failed : (xs.mapM fun a => do return (a, ← f a)) = .error e) : ∃ x ∈ xs, f x = .error e := by
  obtain ⟨x, member, step⟩ := exists_error_of_mapM_error failed
  rcases bind_error_iff.mp step with cause | ⟨y, _, returned⟩
  · exact ⟨x, member, cause⟩
  · cases returned

end CanonicalLR
