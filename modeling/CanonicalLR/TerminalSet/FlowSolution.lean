import CanonicalLR.OrderedSet.Size
import CanonicalLR.TerminalSet.Flow

/-!
# Solutions of flows

`Flow.solve` gives sets above the given ones in which every inclusion holds. A pass never takes a
member away, so it changes nothing only if all inclusions hold already. Since all members come from
one finite set, the sum of the sizes is bounded, and the rounds that `solve` allows are enough. A
pass puts in only what the inclusions demand, so what is handed on by them holds of all members.
-/
namespace CanonicalLR.Flow

/-- Every set on the left is included in the set of the same nonterminal on the right. -/
def Below (sets upper : List TerminalSet) : Prop :=
  ∀ n, setOf sets n ⊆ setOf upper n

/-- The inclusions hold for all targets that have a set. -/
def Solution (flows : List Flow) (sets : List TerminalSet) : Prop :=
  ∀ f ∈ flows, f.target < sets.length →
    f.delivers (setOf sets f.source) ⊆ setOf sets f.target

/-- One inclusion of a pass. -/
def apply (f : Flow) (sets : List TerminalSet) : List TerminalSet :=
  addTo sets f.target (f.delivers (setOf sets f.source))

theorem pass_cons (f : Flow) (flows : List Flow) (sets : List TerminalSet) :
    pass (f :: flows) sets = pass flows (f.apply sets) := rfl

theorem Below.refl (sets : List TerminalSet) : Below sets sets := fun _ _ member => member

theorem Below.trans {a b c : List TerminalSet} (first : Below a b) (second : Below b c) :
    Below a c :=
  fun n t member => second n t (first n t member)

@[simp] theorem length_addTo (sets : List TerminalSet) (n : NonterminalId) (s : TerminalSet) :
    (addTo sets n s).length = sets.length := by
  simp [addTo]

@[simp] theorem length_apply (f : Flow) (sets : List TerminalSet) :
    (f.apply sets).length = sets.length :=
  length_addTo ..

@[simp] theorem length_pass (flows : List Flow) (sets : List TerminalSet) :
    (pass flows sets).length = sets.length := by
  induction flows generalizing sets with
  | nil => rfl
  | cons f flows ih => rw [pass_cons, ih, length_apply]

theorem below_addTo (sets : List TerminalSet) (n : NonterminalId) (s : TerminalSet) :
    Below sets (addTo sets n s) :=
  fun _ _ member => mem_setOf_addTo.mpr (.inl member)

theorem below_pass (flows : List Flow) (sets : List TerminalSet) :
    Below sets (pass flows sets) := by
  induction flows generalizing sets with
  | nil => exact .refl sets
  | cons f flows ih => exact Below.trans (below_addTo _ _ _) (ih _)

theorem setOf_eq_getElem {sets : List TerminalSet} {n : NonterminalId} (known : n < sets.length) :
    setOf sets n = sets[n] := by
  rw [setOf, List.getD_eq_getElem?_getD, List.getElem?_eq_getElem known, Option.getD_some]

/-- Lists of the same length are equal if they give every nonterminal the same members. -/
theorem eq_of_below_of_below {sets other : List TerminalSet} (same : sets.length = other.length)
    (below : Below sets other) (above : Below other sets) : sets = other := by
  refine List.ext_getElem same fun n inside inside' => ?_
  rw [← setOf_eq_getElem inside, ← setOf_eq_getElem inside']
  exact OrderedSet.ext fun t => ⟨below n t, above n t⟩

/-! ### A fixpoint is a solution -/

theorem solution_of_pass_eq {flows : List Flow} {sets : List TerminalSet}
    (fixed : pass flows sets = sets) : Solution flows sets := by
  induction flows with
  | nil => exact fun f member => absurd member List.not_mem_nil
  | cons f flows ih =>
    -- What the first inclusion adds is never lost, so it adds nothing.
    have idle : f.apply sets = sets := by
      refine eq_of_below_of_below (length_apply f sets) ?_ (below_addTo _ _ _)
      have back := below_pass flows (f.apply sets)
      rwa [← pass_cons, fixed] at back
    rw [pass_cons, idle] at fixed
    intro f' member inside
    rcases List.mem_cons.mp member with rfl | member
    · intro t delivered
      have added : t ∈ setOf (f'.apply sets) f'.target :=
        mem_setOf_addTo.mpr (.inr ⟨rfl, inside, delivered⟩)
      rwa [idle] at added
    · exact ih fixed f' member inside

/-! ### The rounds are enough -/

theorem mass_cons (s : TerminalSet) (sets : List TerminalSet) :
    mass (s :: sets) = s.size + mass sets := by
  simp [mass, OrderedSet.size]

/-- Everything that can ever become a member. -/
def members (sets : List TerminalSet) : TerminalSet := sets.foldr (· ∪ ·) ∅

theorem subset_members {sets : List TerminalSet} {s : TerminalSet} (member : s ∈ sets) :
    s ⊆ members sets := by
  induction sets with
  | nil => simp at member
  | cons u sets ih =>
    intro t inside
    refine OrderedSet.mem_union.mpr ?_
    rcases List.mem_cons.mp member with rfl | member
    · exact .inl inside
    · exact .inr (ih member t inside)

theorem size_members_le (sets : List TerminalSet) : (members sets).size ≤ mass sets := by
  induction sets with
  | nil => simp [members, mass, OrderedSet.size, EmptyCollection.emptyCollection]
  | cons s sets ih =>
    have joined := OrderedSet.size_union_le s (members sets)
    rw [mass_cons]
    simp only [members, List.foldr_cons] at *
    omega

theorem mass_le {sets : List TerminalSet} {bound : TerminalSet} (inside : ∀ s ∈ sets, s ⊆ bound) :
    mass sets ≤ sets.length * bound.size := by
  induction sets with
  | nil => simp [mass]
  | cons s sets ih =>
    have head := OrderedSet.size_le_of_subset (inside s (by simp))
    have tail := ih fun u member => inside u (by simp [member])
    rw [mass_cons, List.length_cons, Nat.succ_mul]
    omega

theorem mass_mono {sets other : List TerminalSet} (same : sets.length = other.length)
    (below : Below sets other) : mass sets ≤ mass other := by
  induction sets generalizing other with
  | nil => simp [mass]
  | cons s sets ih =>
    cases other with
    | nil => simp at same
    | cons u other =>
      have head := OrderedSet.size_le_of_subset (s := s) (t := u) (below 0)
      have tail := ih (by simpa using same) fun n => below (n + 1)
      rw [mass_cons, mass_cons]
      omega

theorem mass_lt {sets other : List TerminalSet} (same : sets.length = other.length)
    (below : Below sets other) (different : sets ≠ other) : mass sets < mass other := by
  induction sets generalizing other with
  | nil => cases other <;> simp_all
  | cons s sets ih =>
    cases other with
    | nil => simp at same
    | cons u other =>
      have same_tail : sets.length = other.length := by simpa using same
      have below_tail : Below sets other := fun n => below (n + 1)
      have tail := mass_mono same_tail below_tail
      rw [mass_cons, mass_cons]
      by_cases heads : s = u
      · have tails : sets ≠ other := fun equal => different (by rw [heads, equal])
        have grown := ih same_tail below_tail tails
        rw [heads]
        omega
      · have grown := OrderedSet.size_lt_of_subset_of_ne (s := s) (t := u) (below 0) heads
        omega

theorem setOf_subset {sets : List TerminalSet} {bound : TerminalSet}
    (inside : ∀ s ∈ sets, s ⊆ bound) (n : NonterminalId) : setOf sets n ⊆ bound := by
  intro t member
  by_cases known : n < sets.length
  · rw [setOf_eq_getElem known] at member
    exact inside _ (List.getElem_mem known) t member
  · have missing : setOf sets n = ∅ := by simp [setOf, known]
    rw [missing] at member
    exact absurd member (OrderedSet.not_mem_empty t)

theorem addTo_inside {sets : List TerminalSet} {bound s : TerminalSet} (n : NonterminalId)
    (inside : ∀ u ∈ sets, u ⊆ bound) (fits : s ⊆ bound) : ∀ u ∈ addTo sets n s, u ⊆ bound := by
  intro u member t in_u
  obtain ⟨m, known, rfl⟩ := List.mem_iff_getElem.mp member
  rw [← setOf_eq_getElem known] at in_u
  rcases mem_setOf_addTo.mp in_u with old | ⟨_, _, new⟩
  · exact setOf_subset inside m t old
  · exact fits t new

theorem pass_inside {flows : List Flow} {sets : List TerminalSet} {bound : TerminalSet}
    (inside : ∀ s ∈ sets, s ⊆ bound) (emits : ∀ f ∈ flows, f.emits ⊆ bound) :
    ∀ s ∈ pass flows sets, s ⊆ bound := by
  induction flows generalizing sets with
  | nil => exact inside
  | cons f flows ih =>
    rw [pass_cons]
    refine ih (addTo_inside _ inside ?_) fun f' member => emits f' (by simp [member])
    intro t delivered
    rcases (mem_delivers.mp delivered).2 with emitted | ⟨_, passed⟩
    · exact emits f (by simp) t emitted
    · exact setOf_subset inside _ t passed

theorem pass_solve (flows : List Flow) (sets : List TerminalSet) :
    pass flows (solve flows sets) = solve flows sets := by
  let bound := members (sets ++ flows.map (·.emits))
  have emits : ∀ f ∈ flows, f.emits ⊆ bound := fun f member =>
    subset_members (List.mem_append_right _ (List.mem_map_of_mem member))
  refine iterate_fixed (pass flows)
    (fun s => s.length = sets.length ∧ ∀ u ∈ s, u ⊆ bound) mass (sets.length * bound.size)
    ?_ ?_ ?_ _ sets ?_ ?_
  · rintro s ⟨length, inside⟩
    exact ⟨by rw [length_pass, length], pass_inside inside emits⟩
  · rintro s ⟨_, _⟩
    by_cases fixed : pass flows s = s
    · exact .inl fixed
    · exact .inr (mass_lt (length_pass flows s).symm (below_pass flows s) (Ne.symm fixed))
  · rintro s ⟨length, inside⟩
    rw [← length]
    exact mass_le inside
  · exact ⟨rfl, fun u member => subset_members (List.mem_append_left _ member)⟩
  · have enough := Nat.mul_le_mul_left sets.length (size_members_le (sets ++ flows.map (·.emits)))
    exact Nat.le_trans enough (Nat.le_add_left _ _)

/-! ### The solution -/

@[simp] theorem length_solve (flows : List Flow) (sets : List TerminalSet) :
    (solve flows sets).length = sets.length :=
  iterate_induction (pass flows) (·.length = sets.length)
    (fun s same => by rw [length_pass, same]) _ sets rfl

theorem solution_solve (flows : List Flow) (sets : List TerminalSet) :
    Solution flows (solve flows sets) :=
  solution_of_pass_eq (pass_solve flows sets)

theorem below_solve (flows : List Flow) (sets : List TerminalSet) :
    Below sets (solve flows sets) :=
  iterate_induction (pass flows) (Below sets) (fun s below => below.trans (below_pass flows s)) _
    sets (.refl sets)

/-! ### What can become a member -/

theorem pass_induction {holds : NonterminalId → TerminalId → Prop} {flows : List Flow}
    {sets : List TerminalSet} (given : ∀ n t, t ∈ setOf sets n → holds n t)
    (emitted : ∀ f ∈ flows, ∀ u, holds f.source u → ∀ t ∈ f.emits, holds f.target t)
    (passed : ∀ f ∈ flows, f.passes = true → ∀ t, holds f.source t → holds f.target t) :
    ∀ n t, t ∈ setOf (pass flows sets) n → holds n t := by
  induction flows generalizing sets with
  | nil => exact given
  | cons f flows ih =>
    rw [pass_cons]
    refine ih ?_ (fun f' member => emitted f' (by simp [member]))
      (fun f' member => passed f' (by simp [member]))
    intro n t member
    rcases mem_setOf_addTo.mp member with old | ⟨rfl, _, delivered⟩
    · exact given n t old
    · obtain ⟨⟨u, occupied⟩, demanded⟩ := mem_delivers.mp delivered
      rcases demanded with emits | ⟨passes, inside⟩
      · exact emitted f (by simp) u (given _ u occupied) t emits
      · exact passed f (by simp) passes t (given _ t inside)

/-- What holds of the given members and is handed on by all flows holds of all members. -/
theorem solve_induction {holds : NonterminalId → TerminalId → Prop} {flows : List Flow}
    {sets : List TerminalSet} (given : ∀ n t, t ∈ setOf sets n → holds n t)
    (emitted : ∀ f ∈ flows, ∀ u, holds f.source u → ∀ t ∈ f.emits, holds f.target t)
    (passed : ∀ f ∈ flows, f.passes = true → ∀ t, holds f.source t → holds f.target t) :
    ∀ n t, t ∈ setOf (solve flows sets) n → holds n t :=
  iterate_induction (pass flows) (fun s => ∀ n t, t ∈ setOf s n → holds n t)
    (fun _ given => pass_induction given emitted passed) _ sets given

end CanonicalLR.Flow
