import CanonicalLR.Discovery
import Mathlib.Data.List.Induction

/-!
# Orders of first appearance

What is discovered in a list stands in the order in which it appears there for the first time, and
renaming the elements apart renames what is discovered.
-/
namespace CanonicalLR

variable {α β : Type} [DecidableEq α] [DecidableEq β]

theorem discoverAll_concat (seen as : List α) (a : α) :
    discoverAll seen (as ++ [a]) = discover (discoverAll seen as) a :=
  discoverAll_append seen as [a]

/-- An element that has been met and does not come again stays in front. -/
theorem discoverAll_cons_of_not_mem {seen as : List α} {a : α} (gone : a ∉ as) :
    discoverAll (a :: seen) as = a :: discoverAll seen as := by
  induction as using List.reverseRecOn with
  | nil => rfl
  | append_singleton as b ih =>
    have other : b ≠ a := fun same => gone (by simp [same])
    rw [discoverAll_concat, discoverAll_concat, ih fun member => gone (by simp [member])]
    -- Whether the last element is new does not depend on the one in front.
    by_cases old : b ∈ discoverAll seen as
    · rw [discover_of_mem old, discover_of_mem (List.mem_cons_of_mem a old)]
    · have new : b ∉ a :: discoverAll seen as := by simp [other, old]
      rw [discover, discover, if_neg old, if_neg new, List.cons_append]

theorem map_discoverAll {f : α → β} {as : List α}
    (apart : ∀ a ∈ as, ∀ b ∈ as, f a = f b → a = b) :
    (discoverAll [] as).map f = discoverAll [] (as.map f) := by
  induction as using List.reverseRecOn with
  | nil => rfl
  | append_singleton as a ih =>
    have earlier : ∀ b ∈ as, ∀ c ∈ as, f b = f c → b = c := fun b member c member' =>
      apart b (List.mem_append_left _ member) c (List.mem_append_left _ member')
    -- The image of the last element is old only if the element itself is.
    have same_age : f a ∈ (discoverAll [] as).map f ↔ a ∈ discoverAll [] as := by
      constructor
      · intro old
        obtain ⟨b, member, same⟩ := List.mem_map.mp old
        have in_list : b ∈ as := by simpa using member
        rwa [← apart b (by simp [in_list]) a (by simp) same]
      · exact List.mem_map_of_mem
    rw [discoverAll_concat, List.map_append, List.map_singleton, discoverAll_concat, ← ih earlier]
    by_cases old : a ∈ discoverAll [] as
    · rw [discover_of_mem old, discover_of_mem (same_age.mpr old)]
    · rw [discover, discover, if_neg old, if_neg (mt same_age.mp old), List.map_append,
        List.map_singleton]

/-- Elements are discovered in the order of their first appearance. -/
theorem pairwise_idxOf_discoverAll (as : List α) :
    (discoverAll [] as).Pairwise fun a b => as.idxOf a < as.idxOf b := by
  induction as using List.reverseRecOn with
  | nil => exact .nil
  | append_singleton as a ih =>
    have position (b : α) (member : b ∈ as) : (as ++ [a]).idxOf b = as.idxOf b := by
      rw [List.idxOf_append, if_pos member]
    -- What was discovered before has its first appearance where it had it.
    have earlier : (discoverAll [] as).Pairwise fun b c =>
        (as ++ [a]).idxOf b < (as ++ [a]).idxOf c := by
      refine ih.imp_of_mem fun member member' before => ?_
      rwa [position _ (by simpa using member), position _ (by simpa using member')]
    rw [discoverAll_concat]
    by_cases old : a ∈ discoverAll [] as
    · rwa [discover_of_mem old]
    · rw [discover, if_neg old]
      refine List.pairwise_append.mpr ⟨earlier, List.pairwise_singleton _ _, ?_⟩
      intro b member c last
      have in_list : b ∈ as := by simpa using member
      have fresh : a ∉ as := by simpa using old
      obtain rfl := List.mem_singleton.mp last
      rw [position b in_list, List.idxOf_append, if_neg fresh]
      have inside := List.idxOf_lt_length_of_mem in_list
      omega

end CanonicalLR
