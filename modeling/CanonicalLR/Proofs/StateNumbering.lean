import CanonicalLR.Discovery.FirstAppearance
import CanonicalLR.Examples.Small
import CanonicalLR.Proofs.CanonicalCollection

/-!
# How states are numbered

The kernels of the states are all different, and a closure has nothing but its kernel and items with
the marker at the front, so no two states are taken for the same. States are numbered breadth first:
the edges leave the states in ascending order, and their targets are met in ascending order. A state
is met before it is explored, for otherwise the states explored before it would lead nowhere but
back to themselves, and it could not be reached at all.
-/
namespace CanonicalLR

/-- Where a symbol stands for the first time in the rules. -/
def Grammar.firstAppearance (g : Grammar) (x : Symbol) : Nat := (g.rules.flatMap (·.right)).idxOf x

namespace Automaton

/-- Some item of the state has the symbol after its marker. -/
def Reads (g : Grammar) (a : Automaton) (s : StateId) (x : Symbol) : Prop :=
  ∃ state, a.states[s]? = some state ∧ ∃ i ∈ state.items, i.next? g = some x

/-- Edges stand in the order of their sources, and those of one source in the order in which their
symbols appear in the rules. -/
def EdgeBefore (g : Grammar) (e e' : Edge) : Prop :=
  e.source < e'.source ∨
    e.source = e'.source ∧ g.firstAppearance e.symbol < g.firstAppearance e'.symbol

/-- The numbers of the states tell the states apart, and they are given breadth first. -/
structure BreadthFirst (g : Grammar) (a : Automaton) : Prop where
  told_apart : ∀ (s t : StateId) (x y : State), a.states[s]? = some x → a.states[t]? = some y →
    (x.items.sameState y.items = true ↔ s = t) ∧
      (x.items.sameState y.items = true → x.items = y.items)
  no_warnings : a.warnings = []
  ordered : a.edges.Pairwise (EdgeBefore g)
  one_edge : ∀ s x, a.Reads g s x → (a.edges.map fun e => (e.source, e.symbol)).count (s, x) = 1
  edge_reads : ∀ e ∈ a.edges, a.Reads g e.source e.symbol
  met_in_order : discoverAll [] (a.edges.map (·.target)) = List.range' 1 (a.size - 1)
  met_from_smaller : ∀ t, 0 < t → t < a.size →
    ∃ e, a.edges.find? (·.target = t) = some e ∧ e.source < t
  reachable : ∀ s < a.size, ∃ w, a.walk? .initial w = some s

end Automaton

namespace Grammar

variable {g : Grammar} {s t : StateId} {x : Symbol} {kernel kernel' : ItemSet}

/-! ### Telling states apart -/

theorem MarkersFit.marker_pos (fits : g.MarkersFit) {i : Item} (advanced : i ∈ g.advancedItems) :
    0 < i.marker := by
  obtain ⟨j, ⟨x, next⟩, _, rfl⟩ := mem_advancedItems.mp advanced
  rw [fits.advance_eq next]
  exact Nat.succ_pos _

/-- Closing adds no item that has been advanced. -/
theorem mem_kernel_closure_iff (fits : g.MarkersFit) {i : Item} (advanced : i ∈ g.advancedItems) :
    i ∈ (g.closure kernel).kernel ↔ i ∈ kernel := by
  have moved := fits.marker_pos advanced
  rw [ItemSet.mem_kernel, closure, Predictor.mem_closure]
  -- What closing adds has its marker at the front.
  constructor
  · rintro ⟨given | ⟨_, _, front, _⟩, _⟩
    · exact given
    · omega
  · intro given
    exact ⟨.inl given, by simp [Item.isKernel, moved]⟩

theorem WellFormed.sameState_closure_iff (wf : g.WellFormed) (fits : g.MarkersFit)
    (reached : Reached g kernel) (reached' : Reached g kernel') :
    (g.closure kernel).sameState (g.closure kernel') = true ↔ kernel = kernel' := by
  rw [ItemSet.sameState, beq_iff_eq]
  constructor
  · intro same
    -- The advanced items of a kernel determine it, and closing keeps them.
    refine wf.kernel_eq reached reached' (List.filter_congr fun i advanced => ?_)
    rw [decide_eq_decide, ← mem_kernel_closure_iff fits advanced, same,
      mem_kernel_closure_iff fits advanced]
  · rintro rfl
    rfl

/-- A kernel has one number only. -/
theorem WellFormed.index_unique (wf : g.WellFormed) (found : g.kernels[s]? = some kernel)
    (found' : g.kernels[t]? = some kernel) : s = t :=
  (List.getElem?_inj (List.getElem?_eq_some_iff.mp found).1 wf.nodup_kernels).mp
    (found.trans found'.symm)

theorem WellFormed.states_told_apart (wf : g.WellFormed) (fits : g.MarkersFit) {y z : State}
    (found : (Automaton.ofGrammar g).states[s]? = some y)
    (found' : (Automaton.ofGrammar g).states[t]? = some z) :
    (y.items.sameState z.items = true ↔ s = t) ∧
      (y.items.sameState z.items = true → y.items = z.items) := by
  obtain ⟨kernel, at_s, rfl⟩ := wf.getElem?_states_iff.mp found
  obtain ⟨kernel', at_t, rfl⟩ := wf.getElem?_states_iff.mp found'
  have told : (g.stateOf g.kernels kernel).items.sameState (g.stateOf g.kernels kernel').items =
      true ↔ kernel = kernel' :=
    wf.sameState_closure_iff fits (reached_of_mem_kernels (List.mem_of_getElem? at_s))
      (reached_of_mem_kernels (List.mem_of_getElem? at_t))
  constructor
  · rw [told]
    constructor
    · rintro rfl
      exact wf.index_unique at_s at_t
    · rintro rfl
      exact Option.some.inj (at_s.symm.trans at_t)
  · intro same
    rw [told.mp same]

/-! ### Edges -/

theorem WellFormed.size_eq (wf : g.WellFormed) : (Automaton.ofGrammar g).size = g.kernels.length :=
  wf.states_length

/-- The edges are the moves of the kernels, one kernel after the other. -/
theorem WellFormed.edges_eq (wf : g.WellFormed) :
    (Automaton.ofGrammar g).edges = g.kernels.zipIdx.flatMap fun (kernel, s) =>
      (g.departing kernel).map fun x => ⟨s, x, g.kernels.idxOf (g.successor kernel x)⟩ := by
  rw [Automaton.edges, wf.states_eq, List.zipIdx_map, List.flatMap_map]
  simp [stateOf, Function.comp_def]

theorem WellFormed.mem_edges_iff (wf : g.WellFormed) :
    ⟨s, x, t⟩ ∈ (Automaton.ofGrammar g).edges ↔ ∃ kernel, g.kernels[s]? = some kernel ∧
      x ∈ g.departing kernel ∧ g.kernels.idxOf (g.successor kernel x) = t := by
  simp only [wf.edges_eq, List.mem_flatMap, List.mem_map, Prod.exists, Edge.mk.injEq,
    List.mem_zipIdx_iff_getElem?]
  constructor
  · rintro ⟨kernel, _, found, _, departs, rfl, rfl, target⟩
    exact ⟨kernel, found, departs, target⟩
  · rintro ⟨kernel, found, departs, target⟩
    exact ⟨kernel, s, found, x, departs, rfl, rfl, target⟩

theorem WellFormed.reads_iff (wf : g.WellFormed) :
    (Automaton.ofGrammar g).Reads g s x ↔
      ∃ kernel, g.kernels[s]? = some kernel ∧ x ∈ g.departing kernel := by
  simp only [Automaton.Reads, wf.getElem?_states_iff, mem_departing]
  constructor
  · rintro ⟨_, ⟨kernel, found, rfl⟩, reads⟩
    exact ⟨kernel, found, reads⟩
  · rintro ⟨kernel, found, reads⟩
    exact ⟨_, ⟨kernel, found, rfl⟩, reads⟩

/-- The symbols of a state are tried in the order of the rules. -/
theorem pairwise_departing (g : Grammar) (kernel : ItemSet) :
    (g.departing kernel).Pairwise fun x y => g.firstAppearance x < g.firstAppearance y :=
  (pairwise_idxOf_discoverAll (g.rules.flatMap (·.right))).filter _

theorem WellFormed.edges_ordered (wf : g.WellFormed) :
    (Automaton.ofGrammar g).edges.Pairwise (Automaton.EdgeBefore g) := by
  rw [wf.edges_eq, List.pairwise_flatMap]
  constructor
  · rintro ⟨kernel, s⟩ _
    refine List.pairwise_map.mpr ((pairwise_departing g kernel).imp ?_)
    intro x y before
    exact .inr ⟨rfl, before⟩
  · -- Of two states the one that was numbered first has its edges first.
    have numbers : g.kernels.zipIdx.Pairwise fun p q => p.2 < q.2 := by
      rw [← List.pairwise_map, List.zipIdx_map_snd]
      exact List.pairwise_lt_range'
    refine numbers.imp ?_
    rintro ⟨kernel, s⟩ ⟨kernel', s'⟩ before e member e' member'
    obtain ⟨x, _, rfl⟩ := List.mem_map.mp member
    obtain ⟨x', _, rfl⟩ := List.mem_map.mp member'
    exact .inl before

theorem WellFormed.count_edges (wf : g.WellFormed) (reads : (Automaton.ofGrammar g).Reads g s x) :
    ((Automaton.ofGrammar g).edges.map fun e => (e.source, e.symbol)).count (s, x) = 1 := by
  -- Edges with the same source and symbol would not be in order.
  have distinct : ((Automaton.ofGrammar g).edges.map fun e => (e.source, e.symbol)).Nodup := by
    refine List.pairwise_map.mpr (wf.edges_ordered.imp ?_)
    rintro e e' before same
    obtain ⟨source, symbol⟩ := Prod.mk.inj same
    rcases before with earlier | ⟨_, earlier⟩
    · exact absurd source (Nat.ne_of_lt earlier)
    · exact absurd (congrArg g.firstAppearance symbol) (Nat.ne_of_lt earlier)
  obtain ⟨kernel, found, departs⟩ := wf.reads_iff.mp reads
  have edge := wf.mem_edges_iff.mpr ⟨kernel, found, departs, rfl⟩
  exact List.count_eq_one_of_mem distinct (List.mem_map.mpr ⟨_, edge, rfl⟩)

/-! ### Numbers -/

/-- Reading a symbol does not lead back to the first kernel, where no marker has moved. -/
theorem MarkersFit.successor_ne_startKernel (fits : g.MarkersFit)
    (departs : x ∈ g.departing kernel) :
    g.successor kernel x ≠ .startKernel := by
  intro same
  obtain ⟨i, closed, next⟩ := mem_departing.mp departs
  have member : i.advance ∈ ItemSet.startKernel := same ▸ mem_successor.mpr ⟨i, closed, next, rfl⟩
  rw [fits.advance_eq next] at member
  exact absurd (congrArg Item.marker (mem_startKernel.mp member)) (Nat.succ_ne_zero _)

theorem WellFormed.kernels_eq_cons (wf : g.WellFormed) (fits : g.MarkersFit) :
    g.kernels = .startKernel :: discoverAll [] (g.kernels.flatMap g.successors) := by
  have gone : ItemSet.startKernel ∉ g.kernels.flatMap g.successors := by
    intro member
    obtain ⟨kernel, _, follows⟩ := List.mem_flatMap.mp member
    obtain ⟨x, departs, same⟩ := mem_successors.mp follows
    exact fits.successor_ne_startKernel departs same
  rw [← discoverAll_cons_of_not_mem gone]
  exact wf.kernels_eq

/-- The targets of the edges are the numbers of the kernels that are met. -/
theorem WellFormed.targets_eq (wf : g.WellFormed) :
    (Automaton.ofGrammar g).edges.map (·.target) =
      (g.kernels.flatMap g.successors).map g.kernels.idxOf := by
  rw [wf.edges_eq, List.map_flatMap, List.map_flatMap]
  conv_rhs => rw [← List.zipIdx_map_fst 0 g.kernels, List.flatMap_map]
  simp [successors, Function.comp_def]

theorem WellFormed.targets_met_in_order (wf : g.WellFormed) (fits : g.MarkersFit) :
    discoverAll [] ((Automaton.ofGrammar g).edges.map (·.target)) =
      List.range' 1 ((Automaton.ofGrammar g).size - 1) := by
  have numbers : g.kernels.map g.kernels.idxOf = List.range g.kernels.length := by
    refine List.ext_getElem (by simp) fun s inside _ => ?_
    rw [List.length_map] at inside
    rw [List.getElem_map, wf.nodup_kernels.idxOf_getElem s inside, List.getElem_range]
  -- Different kernels have different numbers, so the numbers are met as the kernels are.
  have apart : ∀ k ∈ g.kernels.flatMap g.successors, ∀ k' ∈ g.kernels.flatMap g.successors,
      g.kernels.idxOf k = g.kernels.idxOf k' → k = k' := by
    intro k member k' _ same
    have known : k ∈ g.kernels := by
      rw [wf.kernels_eq]
      exact mem_discoverAll.mpr (.inr member)
    exact (List.idxOf_inj known).mp same
  have rest : discoverAll [] (g.kernels.flatMap g.successors) = g.kernels.tail :=
    (congrArg List.tail (wf.kernels_eq_cons fits)).symm
  rw [wf.targets_eq, ← map_discoverAll apart, rest, List.map_tail, numbers, wf.size_eq,
    List.range_eq_range', List.tail_range']

theorem exists_of_mem_take {α : Type} {l : List α} {a : α} {t : Nat} (member : a ∈ l.take t) :
    ∃ s < t, l[s]? = some a := by
  obtain ⟨s, inside, same⟩ := List.mem_take_iff_getElem.mp member
  exact ⟨s, by omega, List.getElem?_eq_some_iff.mpr ⟨by omega, same⟩⟩

/-- What has been met when some kernels have been explored keeps its numbers. -/
theorem WellFormed.isPrefix_met (wf : g.WellFormed) (t : Nat) :
    discoverAll [.startKernel] ((g.kernels.take t).flatMap g.successors) <+: g.kernels := by
  have met_first := isPrefix_discoverAll
    (discoverAll [.startKernel] ((g.kernels.take t).flatMap g.successors))
    ((g.kernels.drop t).flatMap g.successors)
  rwa [← discoverAll_append, ← List.flatMap_append, List.take_append_drop, ← wf.kernels_eq]
    at met_first

/-- A kernel has been met when those with smaller numbers have been explored. -/
theorem WellFormed.mem_met (wf : g.WellFormed) (found : g.kernels[t]? = some kernel) :
    kernel ∈ discoverAll [.startKernel] ((g.kernels.take t).flatMap g.successors) := by
  obtain ⟨more, whole⟩ := wf.isPrefix_met t
  generalize met_eq : discoverAll [.startKernel] ((g.kernels.take t).flatMap g.successors) = met
    at whole ⊢
  by_contra unmet
  -- Otherwise all that is met has a smaller number, and exploring leads out of it no more.
  have short : met.length ≤ t := by
    by_contra long
    push Not at long
    rw [← whole, List.getElem?_append_left long] at found
    exact unmet (List.mem_of_getElem? found)
  have closed : met ⊆ g.kernels.take t := by
    rw [← whole, List.take_append, List.take_of_length_le short]
    exact List.subset_append_left _ _
  have all (k : ItemSet) (reached : Reached g k) : k ∈ g.kernels.take t := by
    induction reached with
    | start => exact closed (met_eq ▸ mem_discoverAll.mpr (.inl (List.mem_singleton.mpr rfl)))
    | @follow k x _ departs ih =>
      have follows := mem_successors.mpr ⟨x, departs, rfl⟩
      exact closed (met_eq ▸ mem_discoverAll.mpr (.inr (List.mem_flatMap.mpr ⟨k, ih, follows⟩)))
  -- But then the kernel itself would have a smaller number too.
  have reached := reached_of_mem_kernels (List.mem_of_getElem? found)
  obtain ⟨s, before, at_s⟩ := exists_of_mem_take (all kernel reached)
  exact absurd (wf.index_unique at_s found) (Nat.ne_of_lt before)

/-- A state other than the first has an edge from one with a smaller number. -/
theorem WellFormed.exists_edge_from_smaller (wf : g.WellFormed) (proper : 0 < t)
    (inside : t < (Automaton.ofGrammar g).size) :
    ∃ s x, s < t ∧ ⟨s, x, t⟩ ∈ (Automaton.ofGrammar g).edges := by
  rw [wf.size_eq] at inside
  have found := List.getElem?_eq_getElem inside
  rcases mem_discoverAll.mp (wf.mem_met found) with first | later
  · have at_start := List.mem_singleton.mp first ▸ wf.initial_kernel
    exact absurd (wf.index_unique at_start found) (Nat.ne_of_lt proper)
  · obtain ⟨earlier, member, follows⟩ := List.mem_flatMap.mp later
    obtain ⟨s, before, at_s⟩ := exists_of_mem_take member
    obtain ⟨x, departs, same⟩ := mem_successors.mp follows
    have numbered := wf.getElem?_idxOf_successor (List.mem_of_getElem? at_s) departs
    rw [same] at numbered
    refine ⟨s, x, before, wf.mem_edges_iff.mpr ⟨earlier, at_s, departs, ?_⟩⟩
    rw [same]
    exact wf.index_unique numbered found

/-- The first edge to a state is from one with a smaller number. -/
theorem WellFormed.first_edge (wf : g.WellFormed) (proper : 0 < t)
    (inside : t < (Automaton.ofGrammar g).size) :
    ∃ e, (Automaton.ofGrammar g).edges.find? (·.target = t) = some e ∧ e.source < t := by
  obtain ⟨s, x, before, member⟩ := wf.exists_edge_from_smaller proper inside
  cases first : (Automaton.ofGrammar g).edges.find? (·.target = t) with
  | none => exact absurd (List.find?_eq_none.mp first _ member) (by simp)
  | some e =>
    refine ⟨e, rfl, ?_⟩
    -- Some edge from a smaller number is not before the first one.
    obtain ⟨_, front, back, whole, passed_over⟩ := List.find?_eq_some_iff_append.mp first
    have ordered := wf.edges_ordered
    rw [whole] at member ordered
    rcases List.mem_append.mp member with in_front | in_back
    · exact absurd (passed_over _ in_front) (by simp)
    · rcases List.mem_cons.mp in_back with rfl | later
      · exact before
      · have after := (List.pairwise_cons.mp (List.pairwise_append.mp ordered).2.1).1 _ later
        rcases after with smaller | ⟨same, _⟩
        · exact Nat.lt_trans smaller before
        · exact same ▸ before

theorem WellFormed.goto_of_mem_edges (wf : g.WellFormed)
    (edge : ⟨s, x, t⟩ ∈ (Automaton.ofGrammar g).edges) :
    (Automaton.ofGrammar g).goto s x = some t := by
  obtain ⟨kernel, found, departs, rfl⟩ := wf.mem_edges_iff.mp edge
  exact wf.goto_eq_some_iff.mpr ⟨kernel, found, departs,
    wf.getElem?_idxOf_successor (List.mem_of_getElem? found) departs⟩

/-- Every state is reached from the first one, by induction on its number. -/
theorem WellFormed.exists_walk (wf : g.WellFormed) (s : StateId)
    (inside : s < (Automaton.ofGrammar g).size) :
    ∃ w, (Automaton.ofGrammar g).walk? .initial w = some s := by
  induction s using Nat.strongRecOn with
  | ind s ih =>
    rcases Nat.eq_zero_or_pos s with rfl | proper
    · exact ⟨[], rfl⟩
    · obtain ⟨earlier, x, before, edge⟩ := wf.exists_edge_from_smaller proper inside
      obtain ⟨w, walked⟩ := ih earlier before (Nat.lt_trans before inside)
      refine ⟨w ++ [x], ?_⟩
      rw [Automaton.walk?_concat, walked, Option.bind_some, wf.goto_of_mem_edges edge]

end Grammar

end CanonicalLR
