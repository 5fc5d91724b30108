import CanonicalLR.TerminalSet.Bits
import CanonicalLR.TerminalSet.Registers
import Mathlib.Data.Finset.Sort

/-!
# Terminal sets are finite sets

Whatever is done to terminal sets that are kept in a store for sets of numbers, what they answer and
what is seen of them is what the same operations make of finite sets. Only the set in a register
counts: how the store came to hold it leaves no trace. Ascending lists are such a store, and so are
vectors of bits, although they keep room for numbers that have been removed.
-/
namespace CanonicalLR

/-! ### Stores for sets of numbers -/

namespace NumberStore

variable {σ : Type} {ops : NumberStore σ} {view : σ → Finset Nat}

/-- The operations are those on sets of numbers, where `view` is the set that is stored. -/
structure Implements (ops : NumberStore σ) (view : σ → Finset Nat) : Prop where
  view_empty : view ops.empty = ∅
  contains_iff : ∀ s n, ops.contains s n = true ↔ n ∈ view s
  insert_iff : ∀ s n, (ops.insert s n).1 = true ↔ n ∉ view s
  view_insert : ∀ s n, view (ops.insert s n).2 = Insert.insert n (view s)
  remove_iff : ∀ s n, (ops.remove s n).1 = true ↔ n ∈ view s
  view_remove : ∀ s n, view (ops.remove s n).2 = (view s).erase n
  view_collect : ∀ ns, view (ops.collect ns) = ns.toFinset
  view_union : ∀ s t, view (ops.union s t) = view s ∪ view t
  size_eq : ∀ s, ops.size s = (view s).card
  isEmpty_iff : ∀ s, ops.isEmpty s = true ↔ view s = ∅
  mem_members : ∀ s n, n ∈ ops.members s ↔ n ∈ view s
  ascending : ∀ s, (ops.members s).Pairwise (· < ·)
  equal_iff : ∀ s t, ops.equal s t = true ↔ view s = view t

theorem ordered_implements : ordered.Implements fun s => s.toList.toFinset where
  view_empty := rfl
  contains_iff s n := by simp [ordered]
  insert_iff s n := by simp [ordered, OrderedSet.inserting, ← OrderedSet.contains_iff]
  view_insert s n := by
    ext m
    simp [ordered, OrderedSet.inserting]
  remove_iff s n := by simp [ordered, OrderedSet.erasing]
  view_remove s n := by
    ext m
    simp [ordered, OrderedSet.erasing, and_comm]
  view_collect ns := by
    ext m
    simp [ordered]
  view_union s t := by
    ext m
    simp [ordered]
  size_eq s := (List.toFinset_card_of_nodup s.nodup).symm
  isEmpty_iff s := by simp [ordered, OrderedSet.isEmpty]
  mem_members s n := by simp [ordered]
  ascending s := s.ascending
  equal_iff s t := by
    rw [ordered, beq_iff_eq]
    constructor
    · rintro rfl
      rfl
    · intro same
      ext n
      simpa using congrArg (n ∈ ·) same

theorem bits_implement : Bits.store.Implements fun bits => (Bits.members bits).toFinset where
  view_empty := rfl
  contains_iff bits n := by simp [Bits.store]
  insert_iff bits n := by
    simp only [Bits.store, Bits.inserting, List.mem_toFinset, Bits.mem_members]
    split <;> simp_all
  view_insert bits n := by
    ext m
    simp [Bits.store]
  remove_iff bits n := by
    simp only [Bits.store, Bits.removing, List.mem_toFinset, Bits.mem_members]
    split <;> simp_all
  view_remove bits n := by
    ext m
    simp [Bits.store]
  view_collect ns := by
    ext m
    simp [Bits.store]
  view_union bits bits' := by
    ext m
    simp [Bits.store]
  size_eq bits := by
    have nodup : (Bits.members bits).Nodup := List.nodup_range.filter _
    rw [List.toFinset_card_of_nodup nodup, Bits.length_members]
    rfl
  isEmpty_iff bits := by
    rw [Finset.eq_empty_iff_forall_notMem]
    simp only [List.mem_toFinset, Bits.mem_members, Bits.store, Bool.not_eq_true']
    rw [← Bool.not_eq_true, Bits.contains_true_iff, not_exists]
  mem_members bits n := List.mem_toFinset.symm
  ascending bits := List.pairwise_lt_range.filter _
  equal_iff bits bits' := by
    rw [Bits.store, beq_iff_eq]
    constructor
    · intro same
      exact congrArg List.toFinset same
    · intro same
      refine OrderedSet.eq_of_ascending (List.pairwise_lt_range.filter _)
        (List.pairwise_lt_range.filter _) fun n => ?_
      simpa using congrArg (n ∈ ·) same

theorem Implements.members_eq (implements : ops.Implements view) (s : σ) :
    ops.members s = (view s).sort (· ≤ ·) := by
  refine OrderedSet.eq_of_ascending (implements.ascending s) ?_ fun n => ?_
  · exact (Finset.sortedLT_sort (view s)).pairwise
  · rw [implements.mem_members, Finset.mem_sort]

/-- A union is larger than the set it is made from if it has members that the set has not. -/
theorem Implements.joining_iff (implements : ops.Implements view) (s t : σ) :
    (ops.joining s t).1 = true ↔ ¬ view t ⊆ view s := by
  rw [joining, bne_iff_ne, implements.size_eq, implements.size_eq, implements.view_union]
  -- The set is part of the union, so if both have the same size, they are the same.
  refine not_congr ⟨fun same => ?_, fun included => ?_⟩
  · have equal := Finset.eq_of_subset_of_card_le Finset.subset_union_left same.le
    rw [equal]
    exact Finset.subset_union_right
  · rw [Finset.union_eq_left.mpr included]

theorem Implements.view_insertAll (implements : ops.Implements view) (s : σ)
    (ts : List TerminalId) : view (ops.insertAll s ts) = view s ∪ ts.toFinset := by
  induction ts generalizing s with
  | nil => simp [insertAll]
  | cons t ts ih =>
    rw [insertAll, List.foldl_cons, ← insertAll, ih, implements.view_insert]
    ext m
    simp

/-- Numbers of sixteen bits are not cut. -/
theorem Implements.terminals_eq (implements : ops.Implements view) {s : σ}
    (inside : ∀ t ∈ view s, t < terminalNumbers) : ops.terminals s = ops.members s := by
  refine (List.map_congr_left fun t member => ?_).trans (List.map_id _)
  exact Nat.mod_eq_of_lt (inside t ((implements.mem_members s t).mp member))

end NumberStore

/-! ### Finite sets in registers -/

/-- A finite set in each register. -/
abbrev FiniteSets := Nat → Finset TerminalId

namespace SetCommand

/-- The terminals that a command names. -/
def named : SetCommand → List TerminalId
  | insert t | remove t | contains t => [t]
  | collect ts | extend ts => ts
  | copy _ | union _ | equal _ => []

/-- What a command answers and what it makes of the set in register `i`. -/
def effect (sets : FiniteSets) (i : Nat) : SetCommand → Option Bool × Finset TerminalId
  | insert t => (some (t ∉ sets i), Insert.insert t (sets i))
  | remove t => (some (t ∈ sets i), (sets i).erase t)
  | contains t => (some (t ∈ sets i), sets i)
  | collect ts => (none, ts.toFinset)
  | extend ts => (none, sets i ∪ ts.toFinset)
  | copy source => (none, sets source)
  | union source => (some (¬ sets source ⊆ sets i), sets i ∪ sets source)
  | equal source => (some (sets i = sets source), sets i)

/-- The sets have no members but those that were there and those that are named. -/
theorem inside_effect {sets : FiniteSets} {bound : Nat} {c : SetCommand} (i : Nat)
    (inside : ∀ j, ∀ t ∈ sets j, t < bound) (named_inside : ∀ t ∈ c.named, t < bound) :
    ∀ t ∈ (c.effect sets i).2, t < bound := by
  intro t member
  cases c with
  | insert t' =>
    rcases Finset.mem_insert.mp member with rfl | old
    · exact named_inside t List.mem_cons_self
    · exact inside i t old
  | remove t' => exact inside i t (Finset.mem_of_mem_erase member)
  | contains t' => exact inside i t member
  | collect ts => exact named_inside t (List.mem_toFinset.mp member)
  | extend ts =>
    rcases Finset.mem_union.mp member with old | new
    · exact inside i t old
    · exact named_inside t (List.mem_toFinset.mp new)
  | copy source => exact inside source t member
  | union source =>
    rcases Finset.mem_union.mp member with old | new
    · exact inside i t old
    · exact inside source t new
  | equal source => exact inside i t member

end SetCommand

namespace FiniteSets

def initial : FiniteSets := fun _ => ∅

/-- Carry out commands in order. Each answer comes with the set that is in the register then. -/
def run (sets : FiniteSets) : List (Nat × SetCommand) → List (Option Bool × Finset TerminalId)
  | [] => []
  | (i, c) :: rest =>
    let (answer, s) := c.effect sets i
    (answer, s) :: run (Function.update sets i s) rest

theorem run_cons (sets : FiniteSets) (i : Nat) (c : SetCommand) (rest : List (Nat × SetCommand)) :
    sets.run ((i, c) :: rest) =
      c.effect sets i :: run (Function.update sets i (c.effect sets i).2) rest := rfl

end FiniteSets

/-! ### Histories -/

namespace NumberStore

variable {σ : Type} {ops : NumberStore σ} {view : σ → Finset Nat} {r : List σ} {sets : FiniteSets}

/-- The registers have these sets stored in them. -/
def Represents (ops : NumberStore σ) (view : σ → Finset Nat) (r : List σ) (sets : FiniteSets) :
    Prop :=
  ∀ i, view (ops.register r i) = sets i

theorem Represents.put (represents : ops.Represents view r sets) (i : Nat) {s : σ}
    {set : Finset TerminalId} (stored : view s = set) :
    ops.Represents view (ops.put r i s) (Function.update sets i set) := by
  intro j
  rw [register_put]
  by_cases same : i = j
  · rw [if_pos same, ← same, Function.update_self, stored]
  · rw [if_neg same, Function.update_of_ne (Ne.symm same), represents j]

theorem Represents.keep (represents : ops.Represents view r sets) (i : Nat) :
    ops.Represents view r (Function.update sets i (sets i)) := by
  rwa [Function.update_eq_self]

/-- A command answers what it answers on finite sets and leaves behind what it makes of them. -/
theorem Implements.execute (implements : ops.Implements view)
    (represents : ops.Represents view r sets) (i : Nat) (c : SetCommand) :
    (ops.execute r i c).1 = (c.effect sets i).1 ∧
      ops.Represents view (ops.execute r i c).2 (Function.update sets i (c.effect sets i).2) := by
  have at_i := represents i
  cases c with
  | insert t =>
    refine ⟨congrArg some ?_, represents.put i ?_⟩
    · rw [Bool.eq_iff_iff, implements.insert_iff, at_i, decide_eq_true_iff]
    · exact (implements.view_insert _ t).trans (congrArg (Insert.insert t) at_i)
  | remove t =>
    refine ⟨congrArg some ?_, represents.put i ?_⟩
    · rw [Bool.eq_iff_iff, implements.remove_iff, at_i, decide_eq_true_iff]
    · exact (implements.view_remove _ t).trans (congrArg (Finset.erase · t) at_i)
  | contains t =>
    refine ⟨congrArg some ?_, represents.keep i⟩
    rw [Bool.eq_iff_iff, implements.contains_iff, at_i, decide_eq_true_iff]
  | collect ts => exact ⟨rfl, represents.put i (implements.view_collect ts)⟩
  | extend ts =>
    refine ⟨rfl, represents.put i ?_⟩
    exact (implements.view_insertAll _ ts).trans (congrArg (· ∪ ts.toFinset) at_i)
  | copy source => exact ⟨rfl, represents.put i (represents source)⟩
  | union source =>
    have at_source := represents source
    have added := implements.joining_iff (ops.register r i) (ops.register r source)
    have joined := implements.view_union (ops.register r i) (ops.register r source)
    rw [at_i, at_source] at added joined
    refine ⟨congrArg some ?_, represents.put i joined⟩
    exact Bool.eq_iff_iff.mpr (added.trans decide_eq_true_iff.symm)
  | equal source =>
    refine ⟨congrArg some ?_, represents.keep i⟩
    rw [Bool.eq_iff_iff, implements.equal_iff, at_i, represents source, decide_eq_true_iff]

/-- An answer is as expected, and so is what is seen of the register. -/
structure Shows (ops : NumberStore σ) (step : Option Bool × σ)
    (expected : Option Bool × Finset TerminalId) : Prop where
  answer : step.1 = expected.1
  members : ops.members step.2 = expected.2.sort (· ≤ ·)
  terminals : ops.terminals step.2 = ops.members step.2
  size : ops.size step.2 = expected.2.card
  isEmpty : ops.isEmpty step.2 = decide (expected.2 = ∅)

theorem Implements.shows (implements : ops.Implements view) {step : Option Bool × σ}
    {expected : Option Bool × Finset TerminalId} (answer : step.1 = expected.1)
    (stored : view step.2 = expected.2) (inside : ∀ t ∈ expected.2, t < terminalNumbers) :
    ops.Shows step expected where
  answer := answer
  members := by rw [implements.members_eq, stored]
  terminals := implements.terminals_eq (stored ▸ inside)
  size := by rw [implements.size_eq, stored]
  isEmpty := by rw [Bool.eq_iff_iff, implements.isEmpty_iff, stored, decide_eq_true_iff]

theorem Implements.run (implements : ops.Implements view) (represents : ops.Represents view r sets)
    (inside : ∀ j, ∀ t ∈ sets j, t < terminalNumbers) {history : List (Nat × SetCommand)}
    (sixteen_bits : ∀ call ∈ history, ∀ t ∈ call.2.named, t < terminalNumbers) :
    List.Forall₂ ops.Shows (ops.run r history) (sets.run history) := by
  induction history generalizing r sets with
  | nil => exact .nil
  | cons call history ih =>
    obtain ⟨i, c⟩ := call
    obtain ⟨answer, after⟩ := implements.execute represents i c
    have stored : view (ops.register (ops.execute r i c).2 i) = (c.effect sets i).2 := by
      rw [after i, Function.update_self]
    have inside_i := SetCommand.inside_effect i inside (sixteen_bits (i, c) List.mem_cons_self)
    -- No other register changes, so all members still have sixteen bits.
    have inside_after : ∀ j, ∀ t ∈ Function.update sets i (c.effect sets i).2 j,
        t < terminalNumbers := by
      intro j t member
      by_cases same : j = i
      · subst same
        rw [Function.update_self] at member
        exact inside_i t member
      · rw [Function.update_of_ne same] at member
        exact inside j t member
    rw [run_cons, FiniteSets.run_cons, List.forall₂_cons]
    refine ⟨implements.shows answer stored inside_i, ih after inside_after ?_⟩
    exact fun call member => sixteen_bits call (List.mem_cons_of_mem _ member)

/-- Terminal sets behave like finite sets, whatever the history, in every store for sets of numbers
and in the one that is used here. -/
theorem terminal_sets_are_finite_sets (implements : ops.Implements view)
    {history : List (Nat × SetCommand)}
    (sixteen_bits : ∀ call ∈ history, ∀ t ∈ call.2.named, t < terminalNumbers) :
    List.Forall₂ ops.Shows (ops.run [] history) (FiniteSets.initial.run history) ∧
      List.Forall₂ ordered.Shows (SetRegisters.run [] history)
        (FiniteSets.initial.run history) := by
  have nothing_inside : ∀ j, ∀ t ∈ FiniteSets.initial j, t < terminalNumbers := by
    simp [FiniteSets.initial]
  have represents : ops.Represents view [] .initial := fun _ => implements.view_empty
  have represents_ordered : ordered.Represents (fun s => s.toList.toFinset) [] .initial :=
    fun _ => ordered_implements.view_empty
  exact ⟨implements.run represents nothing_inside sixteen_bits,
    ordered_implements.run represents_ordered nothing_inside sixteen_bits⟩

/-- The first register is left with a longer vector than the second, and with the same set. -/
theorem terminal_sets_are_finite_sets_outgrown :
    let history : List (Nat × SetCommand) := [(0, .collect [5, 0, 40]), (0, .remove 40),
      (0, .remove 40), (1, .extend [0, 5, 0]), (0, .equal 1), (1, .union 0), (2, .copy 1),
      (2, .insert 7), (1, .union 2)]
    Bits.store.Implements (fun bits => (Bits.members bits).toFinset) ∧
      List.Forall₂ Bits.store.Shows (Bits.store.run [] history) (FiniteSets.initial.run history) ∧
      (Bits.store.run [] history).map (fun step => (step.1, step.2.length)) =
        [(none, 41), (some true, 41), (some false, 41), (none, 6), (some true, 41),
          (some false, 41), (none, 41), (some true, 41), (some true, 41)] := by
  intro history
  refine ⟨bits_implement, ?_, by decide +kernel⟩
  exact (terminal_sets_are_finite_sets bits_implement (by decide)).1

end NumberStore

end CanonicalLR
