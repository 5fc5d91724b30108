import CanonicalLR.OrderedSet
import Mathlib.Data.List.Perm.Subperm

/-!
# Sizes of ordered sets

A subset is no larger, and a subset of the same size is the set itself. So a set that grows inside a
finite one can do so only as often as there are elements left.
-/
namespace CanonicalLR.OrderedSet

variable {α : Type} [LT α] [StrictTotal α]

theorem size_le_of_subset {s t : OrderedSet α} (included : s ⊆ t) : s.size ≤ t.size :=
  (List.subperm_of_subset s.nodup included).length_le

theorem eq_of_subset_of_size_le {s t : OrderedSet α} (included : s ⊆ t)
    (no_larger : t.size ≤ s.size) : s = t := by
  have same := (List.subperm_of_subset s.nodup included).perm_of_length_le no_larger
  exact ext fun _ => same.mem_iff

theorem size_lt_of_subset_of_ne {s t : OrderedSet α} (included : s ⊆ t) (different : s ≠ t) :
    s.size < t.size := by
  refine Nat.lt_of_not_le fun no_larger => different ?_
  exact eq_of_subset_of_size_le included no_larger

variable [DecidableLT α]

theorem size_union_le (s t : OrderedSet α) : (s ∪ t).size ≤ s.size + t.size := by
  have included : (s ∪ t).toList ⊆ s.toList ++ t.toList :=
    fun _ member => List.mem_append.mpr (mem_union.mp member)
  have bound := (List.subperm_of_subset (s ∪ t).nodup included).length_le
  simpa [size] using bound

end CanonicalLR.OrderedSet
