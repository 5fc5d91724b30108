import CanonicalLR.TerminalSet.Storage
import Mathlib.Data.List.GetD

/-!
# Vectors of bits as stores

A number is stored by setting the bit at its position. A vector grows when a number behind its end
is inserted and never gets shorter, so the same numbers may be stored in vectors of different
lengths.
-/
namespace CanonicalLR.Bits

variable (bits : List Bool) (n : Nat)

def has : Bool := bits.getD n false

/-- The vector with room for a number. -/
def grow : List Bool := bits ++ List.replicate (n + 1 - bits.length) false

def inserting : Bool × List Bool :=
  if has bits n then (false, bits) else (true, (grow bits n).set n true)

def removing : Bool × List Bool :=
  if has bits n then (true, bits.set n false) else (false, bits)

def merge : List Bool → List Bool → List Bool
  | [], bs => bs
  | as, [] => as
  | a :: as, b :: bs => (a || b) :: merge as bs

def collect (ns : List Nat) : List Bool :=
  ns.foldl (fun bits n => (inserting bits n).2) []

def members : List Nat := (List.range bits.length).filter (has bits)

/-- Vectors are equal if the same numbers are stored, whatever their lengths. -/
def store : NumberStore (List Bool) where
  empty := []
  contains := has
  insert := inserting
  remove := removing
  collect := collect
  union := merge
  size := List.count true
  isEmpty bits := !bits.contains true
  members := members
  equal bits bits' := members bits == members bits'

variable {bits} {n} {bits' : List Bool} {m : Nat}

theorem lt_of_has (stored : has bits n = true) : n < bits.length := by
  refine Nat.lt_of_not_le fun beyond => ?_
  rw [has, List.getD_eq_default _ _ beyond] at stored
  cases stored

@[simp] theorem has_nil : has [] n = false := rfl

@[simp] theorem mem_members : n ∈ members bits ↔ has bits n = true := by
  rw [members, List.mem_filter, List.mem_range]
  exact ⟨fun stored => stored.2, fun stored => ⟨lt_of_has stored, stored⟩⟩

/-- The bits that are added are not set. -/
@[simp] theorem has_grow : has (grow bits n) m = has bits m := by
  rw [has, has, grow]
  rcases Nat.lt_or_ge m bits.length with inside | beyond
  · rw [List.getD_append _ _ _ _ inside]
  · rw [List.getD_append_right _ _ _ _ beyond, List.getD_eq_default bits _ beyond,
      List.getD_eq_getElem?_getD, List.getElem?_replicate]
    split <;> rfl

theorem lt_length_grow : n < (grow bits n).length := by
  rw [grow, List.length_append, List.length_replicate]
  omega

theorem has_set {b : Bool} (inside : n < bits.length) :
    has (bits.set n b) m = if m = n then b else has bits m := by
  rw [has, has, List.getD_eq_getElem?_getD, List.getElem?_set, List.getD_eq_getElem?_getD]
  by_cases same : m = n
  · simp [same, inside]
  · simp [same, Ne.symm same]

@[simp] theorem has_inserting : has (inserting bits n).2 m = (m == n || has bits m) := by
  rw [inserting]
  split
  next stored =>
    by_cases same : m = n
    · simp [same, stored]
    · simp [same]
  next =>
    rw [has_set lt_length_grow, has_grow]
    by_cases same : m = n <;> simp [same]

@[simp] theorem has_removing : has (removing bits n).2 m = (m != n && has bits m) := by
  rw [removing]
  split
  next stored =>
    rw [has_set (lt_of_has stored)]
    by_cases same : m = n <;> simp [same]
  next absent =>
    by_cases same : m = n
    · subst same
      simpa using absent
    · simp [same]

@[simp] theorem has_merge : has (merge bits bits') n = (has bits n || has bits' n) := by
  induction bits, bits' using merge.induct generalizing n with
  | case1 bs => simp [merge]
  | case2 as => cases as <;> simp [merge]
  | case3 a as b bs ih =>
    cases n with
    | zero => rfl
    | succ n => exact ih

@[simp] theorem has_collect {ns : List Nat} : has (collect ns) n = true ↔ n ∈ ns := by
  -- The numbers may be inserted into any vector, so that the induction goes through.
  have from_any : ∀ bits : List Bool,
      has (ns.foldl (fun bits n => (inserting bits n).2) bits) n = true ↔
        n ∈ ns ∨ has bits n = true := by
    induction ns with
    | nil => simp
    | cons k ns ih =>
      intro bits
      rw [List.foldl_cons, ih, has_inserting]
      simp only [Bool.or_eq_true, beq_iff_eq, List.mem_cons, or_assoc, or_left_comm]
  rw [collect, from_any]
  simp

/-- There are as many set bits as there are numbers stored. -/
theorem length_members : (members bits).length = bits.count true := by
  -- A vector lists its own bits, position by position.
  have listed : (List.range bits.length).map (has bits) = bits := by
    refine List.ext_getElem (by simp) fun i inside _ => ?_
    have in_bits : i < bits.length := by simpa using inside
    simp [has, in_bits]
  calc (members bits).length
    _ = (List.range bits.length).countP (has bits) := List.countP_eq_length_filter.symm
    _ = ((List.range bits.length).map (has bits)).countP id := by
      rw [List.countP_map, Function.id_comp]
    _ = bits.count true := by
      rw [listed, List.count]
      refine List.countP_congr fun b _ => ?_
      simp

theorem contains_true_iff : bits.contains true = true ↔ ∃ n, has bits n = true := by
  rw [List.contains_iff_mem]
  constructor
  · intro member
    obtain ⟨n, inside, set⟩ := List.mem_iff_getElem.mp member
    exact ⟨n, by simp [has, inside, set]⟩
  · rintro ⟨n, stored⟩
    have inside := lt_of_has stored
    rw [has, List.getD_eq_getElem _ _ inside] at stored
    exact stored ▸ List.getElem_mem inside

end CanonicalLR.Bits
