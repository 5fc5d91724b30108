import CanonicalLR.Discovery
import CanonicalLR.Fixpoint
import Mathlib.Data.List.Perm.Subperm

/-!
# Completing a discovery

A pass that only appends, never repeats an element and finds nothing outside a given list comes to
rest after as many rounds as that list has elements left to find.
-/
namespace CanonicalLR

variable {α : Type} [DecidableEq α]

omit [DecidableEq α] in
theorem eq_of_isPrefix_of_length_le {seen more : List α} (grown : seen <+: more)
    (no_longer : more.length ≤ seen.length) : more = seen :=
  (grown.eq_of_length_le no_longer).symm

theorem discovery_complete (pass : List α → List α) (findable : List α)
    (grows : ∀ seen, seen <+: pass seen)
    (distinct : ∀ seen, seen.Nodup → (pass seen).Nodup)
    (inside : ∀ seen, seen ⊆ findable → pass seen ⊆ findable)
    (rounds : Nat) (seen : List α) (seen_distinct : seen.Nodup) (seen_inside : seen ⊆ findable)
    (enough : findable.length ≤ seen.length + rounds) :
    pass (iterate pass rounds seen) = iterate pass rounds seen := by
  refine iterate_fixed pass (fun s => s.Nodup ∧ s ⊆ findable) List.length findable.length
    ?_ ?_ ?_ rounds seen ⟨seen_distinct, seen_inside⟩ enough
  · rintro s ⟨s_distinct, s_inside⟩
    exact ⟨distinct s s_distinct, inside s s_inside⟩
  · rintro s ⟨_, _⟩
    rcases Nat.lt_or_ge s.length (pass s).length with longer | no_longer
    · exact .inr longer
    · exact .inl (eq_of_isPrefix_of_length_le (grows s) no_longer)
  · rintro s ⟨s_distinct, s_inside⟩
    exact (List.subperm_of_subset s_distinct s_inside).length_le

theorem discoverAll_eq_self_iff {seen as : List α} :
    discoverAll seen as = seen ↔ ∀ a ∈ as, a ∈ seen := by
  constructor
  · intro same a member
    have found : a ∈ discoverAll seen as := mem_discoverAll.mpr (.inr member)
    rwa [same] at found
  · intro known
    induction as with
    | nil => rfl
    | cons a as ih =>
      rw [discoverAll, List.foldl_cons, discover_of_mem (known a (by simp)), ← discoverAll]
      exact ih fun b member => known b (by simp [member])

end CanonicalLR
