/-!
# Ascending lists

Lists in strictly ascending order, with insertion and merging. They hold each element once, and two
of them with the same members are the same list.
-/
namespace CanonicalLR

/-- A strict order in which any two different elements are comparable. -/
class StrictTotal (α : Type) [LT α] : Prop where
  irrefl (a : α) : ¬ a < a
  trans {a b c : α} : a < b → b < c → a < c
  connected (a b : α) : a < b ∨ a = b ∨ b < a

instance : StrictTotal Nat where
  irrefl := Nat.lt_irrefl
  trans := Nat.lt_trans
  connected := Nat.lt_trichotomy

namespace OrderedSet

variable {α : Type} [LT α] [DecidableLT α]

def insertAscending (a : α) : List α → List α
  | [] => [a]
  | b :: bs =>
    if a < b then a :: b :: bs
    else if b < a then b :: insertAscending a bs
    else b :: bs

/-- Merge `a :: as` into an ascending list, where `rest` merges the tail `as`. -/
def mergeHead (a : α) (rest : List α → List α) : List α → List α
  | [] => a :: rest []
  | b :: bs =>
    if a < b then a :: rest (b :: bs)
    else if b < a then b :: mergeHead a rest bs
    else b :: rest bs

def mergeAscending : List α → List α → List α
  | [] => fun bs => bs
  | a :: as => mergeHead a (mergeAscending as)

variable [StrictTotal α]

omit [DecidableLT α] in
theorem eq_of_not_lt {a b : α} (below : ¬ a < b) (above : ¬ b < a) : a = b := by
  rcases StrictTotal.connected a b with less | equal | greater
  · exact absurd less below
  · exact equal
  · exact absurd greater above

theorem mem_insertAscending {a c : α} {bs : List α} :
    c ∈ insertAscending a bs ↔ c = a ∨ c ∈ bs := by
  induction bs with
  | nil => simp [insertAscending]
  | cons b bs ih =>
    simp only [insertAscending]
    split
    · simp
    · split
      · simp only [List.mem_cons, ih]
        exact or_left_comm
      next below above =>
        rw [eq_of_not_lt below above]
        simp

theorem ascending_insertAscending (a : α) {bs : List α} (sorted : bs.Pairwise (· < ·)) :
    (insertAscending a bs).Pairwise (· < ·) := by
  induction bs with
  | nil => simp [insertAscending]
  | cons b bs ih =>
    obtain ⟨head_below, tail_sorted⟩ := List.pairwise_cons.mp sorted
    simp only [insertAscending]
    split
    next less =>
      refine List.pairwise_cons.mpr ⟨fun c member => ?_, sorted⟩
      rcases List.mem_cons.mp member with rfl | member
      · exact less
      · exact StrictTotal.trans less (head_below c member)
    next =>
      split
      next greater =>
        refine List.pairwise_cons.mpr ⟨fun c member => ?_, ih tail_sorted⟩
        rcases mem_insertAscending.mp member with rfl | member
        · exact greater
        · exact head_below c member
      next => exact sorted

theorem mem_mergeHead {a c : α} {as : List α} {rest : List α → List α} {bs : List α}
    (mem_rest : ∀ ds, c ∈ rest ds ↔ c ∈ as ∨ c ∈ ds) :
    c ∈ mergeHead a rest bs ↔ c ∈ a :: as ∨ c ∈ bs := by
  induction bs with
  | nil => simp [mergeHead, mem_rest]
  | cons b bs ih =>
    simp only [mergeHead]
    split
    · simp [mem_rest, or_assoc]
    · split
      · simp only [List.mem_cons, ih]
        exact or_left_comm
      next below above =>
        rw [eq_of_not_lt below above]
        simp only [List.mem_cons, mem_rest]
        constructor
        · rintro (head | tail | other)
          · exact .inl (.inl head)
          · exact .inl (.inr tail)
          · exact .inr (.inr other)
        · rintro ((head | tail) | head | other)
          · exact .inl head
          · exact .inr (.inl tail)
          · exact .inl head
          · exact .inr (.inr other)

theorem mem_mergeAscending {c : α} {as bs : List α} :
    c ∈ mergeAscending as bs ↔ c ∈ as ∨ c ∈ bs := by
  induction as generalizing bs with
  | nil => simp [mergeAscending]
  | cons a as ih => exact mem_mergeHead fun _ => ih

theorem ascending_mergeHead {a : α} {as : List α} {rest : List α → List α} {bs : List α}
    (mem_rest : ∀ ds c, c ∈ rest ds ↔ c ∈ as ∨ c ∈ ds)
    (rest_sorted : ∀ ds : List α, ds.Pairwise (· < ·) → (rest ds).Pairwise (· < ·))
    (head_below : ∀ c ∈ as, a < c) (sorted : bs.Pairwise (· < ·)) :
    (mergeHead a rest bs).Pairwise (· < ·) := by
  induction bs with
  | nil =>
    refine List.pairwise_cons.mpr ⟨fun c member => ?_, rest_sorted [] .nil⟩
    exact head_below c (by simpa using (mem_rest [] c).mp member)
  | cons b bs ih =>
    obtain ⟨below_bs, bs_sorted⟩ := List.pairwise_cons.mp sorted
    simp only [mergeHead]
    split
    next less =>
      refine List.pairwise_cons.mpr ⟨fun c member => ?_, rest_sorted _ sorted⟩
      rcases (mem_rest _ c).mp member with member | member
      · exact head_below c member
      · rcases List.mem_cons.mp member with rfl | member
        · exact less
        · exact StrictTotal.trans less (below_bs c member)
    next below =>
      split
      next greater =>
        refine List.pairwise_cons.mpr ⟨fun c member => ?_, ih bs_sorted⟩
        rcases (mem_mergeHead (mem_rest · c)).mp member with member | member
        · rcases List.mem_cons.mp member with rfl | member
          · exact greater
          · exact StrictTotal.trans greater (head_below c member)
        · exact below_bs c member
      next above =>
        refine List.pairwise_cons.mpr ⟨fun c member => ?_, rest_sorted _ bs_sorted⟩
        rcases (mem_rest _ c).mp member with member | member
        · exact eq_of_not_lt below above ▸ head_below c member
        · exact below_bs c member

theorem ascending_mergeAscending {as bs : List α} (as_sorted : as.Pairwise (· < ·))
    (bs_sorted : bs.Pairwise (· < ·)) : (mergeAscending as bs).Pairwise (· < ·) := by
  induction as generalizing bs with
  | nil => exact bs_sorted
  | cons a as ih =>
    obtain ⟨head_below, tail_sorted⟩ := List.pairwise_cons.mp as_sorted
    exact ascending_mergeHead (fun _ _ => mem_mergeAscending) (fun _ => ih tail_sorted)
      head_below bs_sorted

omit [DecidableLT α] in
/-- Ascending lists with the same members are the same list. -/
theorem eq_of_ascending {as bs : List α} (as_sorted : as.Pairwise (· < ·))
    (bs_sorted : bs.Pairwise (· < ·)) (same : ∀ c, c ∈ as ↔ c ∈ bs) : as = bs := by
  induction as generalizing bs with
  | nil =>
    cases bs with
    | nil => rfl
    | cons b bs => simpa using (same b).mpr (by simp)
  | cons a as ih =>
    obtain ⟨below_as, as_tail_sorted⟩ := List.pairwise_cons.mp as_sorted
    cases bs with
    | nil => simpa using (same a).mp (by simp)
    | cons b bs =>
      obtain ⟨below_bs, bs_tail_sorted⟩ := List.pairwise_cons.mp bs_sorted
      have heads : a = b := by
        rcases List.mem_cons.mp ((same a).mp (by simp)) with equal | in_tail
        · exact equal
        rcases List.mem_cons.mp ((same b).mpr (by simp)) with equal | in_other
        · exact equal.symm
        exact absurd (StrictTotal.trans (below_bs a in_tail) (below_as b in_other))
          (StrictTotal.irrefl b)
      subst heads
      have tails : as = bs := by
        refine ih as_tail_sorted bs_tail_sorted fun c => ?_
        constructor
        · intro member
          rcases List.mem_cons.mp ((same c).mp (by simp [member])) with rfl | member'
          · exact absurd (below_as c member) (StrictTotal.irrefl c)
          · exact member'
        · intro member
          rcases List.mem_cons.mp ((same c).mpr (by simp [member])) with rfl | member'
          · exact absurd (below_bs c member) (StrictTotal.irrefl c)
          · exact member'
      rw [tails]

end OrderedSet

end CanonicalLR
