import CanonicalLR.OrderedSet.Ascending

/-!
# Finite sets as ascending lists

A set is the list of its members in ascending order, so two sets with the same members are equal,
and a fixpoint iteration can stop at the first round that returns its argument. Membership is the
view of every operation: each has one lemma that says which elements it leaves in the set.
-/
namespace CanonicalLR

structure OrderedSet (α : Type) [LT α] where
  toList : List α
  ascending : toList.Pairwise (· < ·)

namespace OrderedSet

variable {α : Type} [LT α]

instance : EmptyCollection (OrderedSet α) := ⟨⟨[], .nil⟩⟩

instance : Inhabited (OrderedSet α) := ⟨∅⟩

instance : Membership α (OrderedSet α) := ⟨fun s a => a ∈ s.toList⟩

instance : HasSubset (OrderedSet α) := ⟨fun s t => ∀ a ∈ s, a ∈ t⟩

instance [DecidableEq α] (a : α) (s : OrderedSet α) : Decidable (a ∈ s) :=
  inferInstanceAs (Decidable (a ∈ s.toList))

theorem eq_of_toList {s t : OrderedSet α} (equal : s.toList = t.toList) : s = t := by
  cases s
  cases t
  cases equal
  rfl

instance [DecidableEq α] : DecidableEq (OrderedSet α) := fun s t =>
  if equal : s.toList = t.toList then isTrue (eq_of_toList equal)
  else isFalse fun same => equal (congrArg toList same)

def contains [DecidableEq α] (s : OrderedSet α) (a : α) : Bool := decide (a ∈ s)

def size (s : OrderedSet α) : Nat := s.toList.length

def isEmpty (s : OrderedSet α) : Bool := s.toList.isEmpty

def filter (s : OrderedSet α) (p : α → Bool) : OrderedSet α :=
  ⟨s.toList.filter p, s.ascending.filter p⟩

def erase [DecidableEq α] (s : OrderedSet α) (a : α) : OrderedSet α :=
  s.filter fun b => b ≠ a

@[simp] theorem mem_toList {s : OrderedSet α} {a : α} : a ∈ s.toList ↔ a ∈ s := Iff.rfl

@[simp] theorem not_mem_empty (a : α) : a ∉ (∅ : OrderedSet α) := List.not_mem_nil

@[simp] theorem contains_iff [DecidableEq α] {s : OrderedSet α} {a : α} :
    s.contains a = true ↔ a ∈ s := by
  simp [contains]

theorem isEmpty_iff {s : OrderedSet α} : s.isEmpty = true ↔ ∀ a, a ∉ s := by
  simp only [isEmpty, List.isEmpty_iff, List.eq_nil_iff_forall_not_mem]
  exact Iff.rfl

@[simp] theorem mem_filter {s : OrderedSet α} {p : α → Bool} {a : α} :
    a ∈ s.filter p ↔ a ∈ s ∧ p a = true :=
  List.mem_filter

@[simp] theorem mem_erase [DecidableEq α] {s : OrderedSet α} {a b : α} :
    b ∈ s.erase a ↔ b ∈ s ∧ b ≠ a := by
  simp [erase]

variable [StrictTotal α]

@[ext] theorem ext {s t : OrderedSet α} (same : ∀ a, a ∈ s ↔ a ∈ t) : s = t :=
  eq_of_toList (eq_of_ascending s.ascending t.ascending same)

theorem nodup (s : OrderedSet α) : s.toList.Nodup := by
  refine List.Pairwise.imp (fun {a b} less => ?_) s.ascending
  rintro rfl
  exact StrictTotal.irrefl a less

variable [DecidableLT α]

def insert (s : OrderedSet α) (a : α) : OrderedSet α :=
  ⟨insertAscending a s.toList, ascending_insertAscending a s.ascending⟩

instance : Union (OrderedSet α) :=
  ⟨fun s t => ⟨mergeAscending s.toList t.toList, ascending_mergeAscending s.ascending t.ascending⟩⟩

/-- The members of a list. Inserting from the right makes this linear on ascending lists. -/
def ofList (as : List α) : OrderedSet α :=
  as.foldr (fun a s => s.insert a) ∅

/-- Insert an element and say whether it is new. -/
def inserting [DecidableEq α] (s : OrderedSet α) (a : α) : Bool × OrderedSet α :=
  (!s.contains a, s.insert a)

/-- Erase an element and say whether it was a member. -/
def erasing [DecidableEq α] (s : OrderedSet α) (a : α) : Bool × OrderedSet α :=
  (s.contains a, s.erase a)

@[simp] theorem mem_insert {s : OrderedSet α} {a b : α} : b ∈ s.insert a ↔ b = a ∨ b ∈ s :=
  mem_insertAscending

@[simp] theorem mem_union {s t : OrderedSet α} {a : α} : a ∈ s ∪ t ↔ a ∈ s ∨ a ∈ t :=
  mem_mergeAscending

@[simp] theorem mem_ofList {as : List α} {a : α} : a ∈ ofList as ↔ a ∈ as := by
  induction as with
  | nil => simp [ofList]
  | cons b as ih =>
    rw [ofList] at ih
    simp [ofList, ih]

end OrderedSet

end CanonicalLR
