import CanonicalLR.Automaton.Exploration
import CanonicalLR.Discovery.Completion
import CanonicalLR.Proofs.Closure
import CanonicalLR.Proofs.Traversals
import Mathlib.Data.List.Sublists

/-!
# What exploration finds

While an automaton is explored, each state that is finished is determined by its kernel: its items
are the closure of the kernel, and it moves on every symbol after a marker to the number of the
kernel that reading the symbol leads to. Kernels are met in no other way, so but for the first they
are nonempty sets of items that have been advanced. There are not more of them than states are
explored at most, and in the end no kernel is left over.
-/
namespace CanonicalLR

namespace Grammar

variable (g : Grammar)

/-- The kernel that reading a symbol leads to. -/
def successor (kernel : ItemSet) (x : Symbol) : ItemSet :=
  successorKernel ((g.closure kernel).advances g) x

/-- The symbols after markers, in the order in which they are tried. -/
def departing (kernel : ItemSet) : List Symbol :=
  g.rightSymbols.filter fun x => !(g.successor kernel x).isEmpty

def successors (kernel : ItemSet) : List ItemSet :=
  (g.departing kernel).map (g.successor kernel)

/-- The state of a kernel when its successors have been numbered. -/
def stateOf (kernels : List ItemSet) (kernel : ItemSet) : State where
  items := g.closure kernel
  moves := (g.departing kernel).map fun x => (x, kernels.idxOf (g.successor kernel x))

variable {g}

theorem mem_successor {kernel : ItemSet} {x : Symbol} {i : Item} :
    i ∈ g.successor kernel x ↔ ∃ j ∈ g.closure kernel, j.next? g = some x ∧ j.advance = i := by
  rw [successor, mem_successorKernel, mem_advances]

theorem mem_rightSymbols {x : Symbol} : x ∈ g.rightSymbols ↔ ∃ r ∈ g.rules, x ∈ r.right := by
  simp [rightSymbols]

theorem nodup_rightSymbols : g.rightSymbols.Nodup := nodup_discoverAll List.nodup_nil _

theorem mem_departing {kernel : ItemSet} {x : Symbol} :
    x ∈ g.departing kernel ↔ ∃ i ∈ g.closure kernel, i.next? g = some x := by
  have reads : (g.successor kernel x).isEmpty = false ↔ ∃ i, i ∈ g.successor kernel x := by
    rw [← Bool.not_eq_true, OrderedSet.isEmpty_iff]
    push Not
    rfl
  rw [departing, List.mem_filter, Bool.not_eq_true', reads]
  constructor
  · rintro ⟨_, i, member⟩
    obtain ⟨j, closed, next, _⟩ := mem_successor.mp member
    exact ⟨j, closed, next⟩
  · rintro ⟨j, closed, next⟩
    refine ⟨mem_rightSymbols.mpr ?_, _, mem_successor.mpr ⟨j, closed, next, rfl⟩⟩
    exact ⟨_, rule_mem (Item.rule_known_of_next? next), Item.next?_mem next⟩

theorem mem_successors {kernel kernel' : ItemSet} :
    kernel' ∈ g.successors kernel ↔ ∃ x ∈ g.departing kernel, g.successor kernel x = kernel' :=
  List.mem_map

/-- Meeting more kernels does not change a state whose successors have been met. -/
theorem stateOf_of_isPrefix {kernels more : List ItemSet} {kernel : ItemSet}
    (grown : kernels <+: more) (met : ∀ k ∈ g.successors kernel, k ∈ kernels) :
    g.stateOf more kernel = g.stateOf kernels kernel := by
  simp only [stateOf, State.mk.injEq, true_and]
  refine List.map_congr_left fun x departs => ?_
  rw [grown.idxOf_eq_of_mem (met _ (mem_successors.mpr ⟨x, departs, rfl⟩))]

end Grammar

/-! ### Visits -/

namespace Departures

theorem follow_of_fresh {d : Departures} {x : Symbol} (fresh : d.moves.lookup x = none)
    (g : Grammar) (source : StateId) (kernel : ItemSet) :
    d.follow g source ((g.closure kernel).advances g) x =
      if (g.successor kernel x).isEmpty then d
      else
        let kernels := discover d.kernels (g.successor kernel x)
        { kernels := kernels
          moves := d.moves ++ [(x, kernels.idxOf (g.successor kernel x))]
          warnings := d.warnings } := by
  simp only [follow, connect, fresh]
  rfl

/-- Each symbol after a marker is followed to the kernel that reading it leads to, and no symbol is
followed twice. -/
theorem foldl_follow (g : Grammar) (source : StateId) (kernel : ItemSet) {xs : List Symbol}
    (distinct : xs.Nodup) (d : Departures) (fresh : ∀ x ∈ xs, d.moves.lookup x = none) :
    let departing := xs.filter fun x => !(g.successor kernel x).isEmpty
    let kernels := discoverAll d.kernels (departing.map (g.successor kernel))
    xs.foldl (follow g source ((g.closure kernel).advances g)) d = {
      kernels := kernels
      moves := d.moves ++ departing.map fun x => (x, kernels.idxOf (g.successor kernel x))
      warnings := d.warnings } := by
  induction xs generalizing d with
  | nil => simp [discoverAll]
  | cons x xs ih =>
    obtain ⟨new, distinct⟩ := List.nodup_cons.mp distinct
    have others_fresh : ∀ y ∈ xs, d.moves.lookup y = none :=
      fun y member => fresh y (List.mem_cons_of_mem x member)
    simp only [List.foldl_cons, follow_of_fresh (fresh x List.mem_cons_self), List.filter_cons]
    -- A symbol that no marker stands before is passed over, any other leads to a kernel.
    by_cases empty : (g.successor kernel x).isEmpty = true
    · simp only [empty, ↓reduceIte, Bool.not_true, Bool.false_eq_true]
      exact ih distinct d others_fresh
    · simp only [empty, ↓reduceIte, Bool.not_false, Bool.false_eq_true, List.map_cons]
      rw [ih distinct]
      · -- The number of the kernel stays the same while more kernels are met.
        have met : g.successor kernel x ∈ discover d.kernels (g.successor kernel x) := by simp
        have same (ks : List ItemSet) := (isPrefix_discoverAll _ ks).idxOf_eq_of_mem met
        simp only [discoverAll, List.foldl_cons, List.append_assoc, List.singleton_append] at same ⊢
        rw [same]
      · intro y member
        have other : (y == x) = false := beq_eq_false_iff_ne.mpr fun equal => new (equal ▸ member)
        simp [List.lookup_append, others_fresh y member, List.lookup_cons, other]

end Departures

/-- The kernels that can be met. -/
inductive Reached (g : Grammar) : ItemSet → Prop where
  | start : Reached g .startKernel
  | follow {kernel : ItemSet} {x : Symbol} (reached : Reached g kernel)
      (departs : x ∈ g.departing kernel) : Reached g (g.successor kernel x)

namespace Exploration

/-- The invariant of exploration: the kernels are the first one and the successors of those that
have been explored, in the order in which they were met. -/
structure Explores (g : Grammar) (e : Exploration) : Prop where
  kernels : e.kernels =
    discoverAll [.startKernel] ((e.kernels.take e.states.length).flatMap g.successors)
  states : e.states = (e.kernels.take e.states.length).map (g.stateOf e.kernels)
  explored : e.states.length ≤ e.kernels.length
  reached : ∀ kernel ∈ e.kernels, Reached g kernel
  warnings : e.warnings = []

variable {g : Grammar} {e : Exploration}

theorem initial_explores (g : Grammar) : initial.Explores g where
  kernels := rfl
  states := rfl
  explored := Nat.zero_le _
  reached kernel member := by
    obtain rfl := List.mem_singleton.mp member
    exact .start
  warnings := rfl

/-- A visit meets the successors of the kernel that is next. -/
theorem visit_eq (g : Grammar) (e : Exploration) (kernel : ItemSet) :
    let kernels := discoverAll e.kernels (g.successors kernel)
    e.visit (.ofGrammar g) g.rightSymbols kernel = {
      kernels := kernels
      states := e.states ++ [g.stateOf kernels kernel]
      warnings := e.warnings } := by
  have followed := Departures.foldl_follow g e.states.length kernel
    (Grammar.nodup_rightSymbols (g := g)) ⟨e.kernels, [], e.warnings⟩ fun _ _ => rfl
  simp only [List.nil_append] at followed
  have closed : (Predictor.ofGrammar g).closure kernel = g.closure kernel := rfl
  have same : (Predictor.ofGrammar g).grammar = g := rfl
  simp only [visit, closed, same, followed]
  rfl

theorem visit_explores (explores : e.Explores g) {kernel : ItemSet}
    (next : e.kernels[e.states.length]? = some kernel) :
    (e.visit (.ofGrammar g) g.rightSymbols kernel).Explores g := by
  rw [visit_eq]
  have inside : e.states.length < e.kernels.length := (List.getElem?_eq_some_iff.mp next).1
  have grown := isPrefix_discoverAll e.kernels (g.successors kernel)
  -- The kernel that is visited is the next one after those that have been explored.
  have taken : (discoverAll e.kernels (g.successors kernel)).take (e.states.length + 1) =
      e.kernels.take e.states.length ++ [kernel] := by
    obtain ⟨more, whole⟩ := grown
    rw [← whole, List.take_append_of_le_length inside, List.take_add_one, next, Option.toList_some]
  -- Successors of explored kernels have their numbers, so the moves towards them stay as they are.
  have met : ∀ k ∈ e.kernels.take e.states.length, ∀ k' ∈ g.successors k, k' ∈ e.kernels := by
    intro k earlier k' follows
    rw [explores.kernels]
    exact mem_discoverAll.mpr (.inr (List.mem_flatMap.mpr ⟨k, earlier, follows⟩))
  refine {
    kernels := ?_, states := ?_, explored := ?_, reached := ?_, warnings := explores.warnings }
  · simp only [List.length_append, List.length_singleton, taken, List.flatMap_append,
      List.flatMap_singleton]
    rw [discoverAll_append, ← explores.kernels]
  · simp only [List.length_append, List.length_singleton, taken, List.map_append,
      List.map_singleton]
    congr 1
    rw [explores.states, List.length_map, List.length_take_of_le explores.explored]
    refine (List.map_congr_left fun k earlier => ?_).symm
    exact Grammar.stateOf_of_isPrefix grown (met k earlier)
  · simp only [List.length_append, List.length_singleton]
    exact Nat.le_trans inside grown.length_le
  · intro k member
    rcases mem_discoverAll.mp member with old | new
    · exact explores.reached k old
    · obtain ⟨x, departs, rfl⟩ := Grammar.mem_successors.mp new
      exact .follow (explores.reached kernel (List.mem_of_getElem? next)) departs

theorem complete_explores (explores : e.Explores g) (limit : Nat) :
    (e.complete (.ofGrammar g) g.rightSymbols limit).Explores g := by
  -- By induction on the limit, where the invariant passes from each visit to the next.
  induction limit generalizing e with
  | zero => exact explores
  | succ limit ih =>
    simp only [complete]
    split
    · exact explores
    next kernel next => exact ih (visit_explores explores next)

theorem explores_of_start (g : Grammar) :
    (initial.complete (.ofGrammar g) g.rightSymbols g.maxStates).Explores g :=
  complete_explores (initial_explores g) g.maxStates

/-- Exploration stops only if nothing is left or the limit is reached. -/
theorem complete_stops (e : Exploration) (p : Predictor) (symbols : List Symbol) (limit : Nat) :
    let last := e.complete p symbols limit
    last.kernels.length ≤ last.states.length ∨ last.states.length = e.states.length + limit := by
  induction limit generalizing e with
  | zero => exact .inr rfl
  | succ limit ih =>
    simp only [complete]
    split
    next none_left => exact .inl (List.getElem?_eq_none_iff.mp none_left)
    next kernel _ =>
      refine (ih (e.visit p symbols kernel)).imp_right fun length => ?_
      rw [length, visit, List.length_append, List.length_singleton]
      omega

end Exploration

/-! ### Additions that are checked -/

theorem overflows_iff {g : Grammar} {items : ItemSet} : items.overflows g = true ↔
    ∃ i ∈ items, (∃ x, i.next? g = some x) ∧ i.marker + 1 = markerNumbers := by
  simp [ItemSet.overflows, List.any_eq_true, Option.isSome_iff_exists]

/-- Markers that suffice for the right sides have a next number wherever a symbol follows them. -/
theorem Grammar.MarkersFit.not_overflows {g : Grammar} (fits : g.MarkersFit) (items : ItemSet) :
    items.overflows g = false := by
  rw [← Bool.not_eq_true, overflows_iff]
  rintro ⟨i, _, ⟨x, next⟩, last⟩
  have inside := Item.marker_lt_of_next? next
  have short := fits.right_lt i
  omega

namespace Exploration

theorem completeChecked?_of_fits {p : Predictor} (fits : p.grammar.MarkersFit) (e : Exploration)
    (symbols : List Symbol) (limit : Nat) :
    e.completeChecked? p symbols limit = some (e.complete p symbols limit) := by
  induction limit generalizing e with
  | zero => rfl
  | succ limit ih =>
    rw [completeChecked?, complete]
    split
    · rfl
    · simp only [fits.not_overflows, Bool.false_eq_true, ↓reduceIte]
      exact ih _

/-- Exploration fails if it would find a state that has an item whose marker has no next number. -/
theorem completeChecked?_eq_none {p : Predictor} {e : Exploration} {symbols : List Symbol}
    {limit : Nat} {state : State} (found : state ∈ (e.complete p symbols limit).states)
    (new : state ∉ e.states) (overflows : state.items.overflows p.grammar = true) :
    e.completeChecked? p symbols limit = none := by
  induction limit generalizing e with
  | zero => exact absurd found new
  | succ limit ih =>
    rw [complete] at found
    rw [completeChecked?]
    split
    next none_left =>
      rw [none_left] at found
      exact absurd found new
    next kernel next =>
      rw [next] at found
      split
      · rfl
      next fine =>
        refine ih found fun visited => ?_
        -- The state would be the one that is visited, which does not overflow.
        rcases List.mem_append.mp visited with old | last
        · exact new old
        · obtain rfl := List.mem_singleton.mp last
          exact fine overflows

end Exploration

/-! ### How many kernels there are -/

namespace Grammar

variable (g : Grammar)

/-- The items that are advanced over a symbol, each with each terminal as lookahead. -/
def advancedItems : List Item :=
  g.rules.zipIdx.flatMap fun (r, id) =>
    (List.range r.right.length).flatMap fun marker =>
      (List.range g.terminals.length).map fun lookahead => Item.advance ⟨id, marker, lookahead⟩

theorem length_advancedItems :
    g.advancedItems.length = (g.rules.flatMap (·.right)).length * g.terminals.length := by
  -- The count does not depend on the number with which the rules begin.
  have per_rule (rules : List Rule) (n : Nat) :
      ((rules.zipIdx n).flatMap fun (r, id) =>
        (List.range r.right.length).flatMap fun marker =>
          (List.range g.terminals.length).map fun lookahead =>
            Item.advance ⟨id, marker, lookahead⟩).length =
        (rules.flatMap (·.right)).length * g.terminals.length := by
    induction rules generalizing n with
    | nil => simp
    | cons r rules ih =>
      simp only [List.zipIdx_cons, List.flatMap_cons, List.length_append, ih, Nat.add_mul]
      simp [List.length_flatMap]
  exact per_rule g.rules 0

variable {g}

theorem mem_advancedItems {i : Item} :
    i ∈ g.advancedItems ↔ ∃ j : Item, (∃ x, j.next? g = some x) ∧
      j.lookahead < g.terminals.length ∧ j.advance = i := by
  simp only [advancedItems, List.mem_flatMap, List.mem_map, List.mem_range, Prod.exists,
    List.mem_zipIdx_iff_getElem?]
  constructor
  · rintro ⟨r, id, found, marker, inside, lookahead, known, rfl⟩
    refine ⟨⟨id, marker, lookahead⟩, ⟨r.right[marker], ?_⟩, known, rfl⟩
    rw [Item.next?, Item.right, rule_of_getElem? found]
    exact List.getElem?_eq_getElem inside
  · rintro ⟨j, ⟨x, next⟩, known, rfl⟩
    have found := getElem?_rule (Item.rule_known_of_next? next)
    exact ⟨_, _, found, j.marker, Item.marker_lt_of_next? next, j.lookahead, known, rfl⟩

/-- A closure brings in no lookaheads but terminals of the grammar. -/
theorem WellFormed.lookahead_known (wf : g.WellFormed) {items : ItemSet} {i : Item}
    (known : ∀ j ∈ items, j.lookahead < g.terminals.length) (closed : InClosure g items i) :
    i.lookahead < g.terminals.length := by
  induction closed with
  | given member => exact known _ member
  | @predict i q b _ _ next begins ih =>
    obtain ⟨rest, derivation⟩ := begins
    -- What is derived from after the marker has no terminals but those of right sides.
    have on_right (r : Rule) (rule : r ∈ g.rules) (member : .terminal b ∈ r.right) :
        b < g.terminals.length := ((wf.rules_known r rule).right (.terminal b) member).2.2
    rcases derivation.symbol_mem List.mem_cons_self with given | ⟨r, rule, member⟩
    · rcases List.mem_append.mp given with after | last
      · exact on_right _ (rule_mem (Item.rule_known_of_next? next)) (List.mem_of_mem_drop after)
      · obtain rfl : b = i.lookahead := by simpa using last
        exact ih
    · exact on_right r rule member

theorem WellFormed.lookahead_known_of_reached (wf : g.WellFormed) {kernel : ItemSet}
    (reached : Reached g kernel) : ∀ i ∈ kernel, i.lookahead < g.terminals.length := by
  induction reached with
  | start =>
    intro i member
    obtain rfl := mem_startKernel.mp member
    exact wf.eoi_known
  | @follow kernel x _ _ ih =>
    intro i member
    obtain ⟨j, closed, _, rfl⟩ := mem_successor.mp member
    have known := wf.lookahead_known ih (wf.mem_closure_iff.mp closed)
    exact known

/-- But for the first kernel they all have items, and none that are not advanced. -/
theorem WellFormed.kernel_cases (wf : g.WellFormed) {kernel : ItemSet}
    (reached : Reached g kernel) :
    kernel = .startKernel ∨ (∃ i, i ∈ kernel) ∧ ∀ i ∈ kernel, i ∈ g.advancedItems := by
  cases reached with
  | start => exact .inl rfl
  | @follow kernel x reached departs =>
    obtain ⟨j, closed, next⟩ := mem_departing.mp departs
    refine .inr ⟨⟨_, mem_successor.mpr ⟨j, closed, next, rfl⟩⟩, fun i member => ?_⟩
    obtain ⟨j, closed, next, rfl⟩ := mem_successor.mp member
    have known := wf.lookahead_known_of_reached reached
    exact mem_advancedItems.mpr
      ⟨j, ⟨x, next⟩, wf.lookahead_known known (wf.mem_closure_iff.mp closed), rfl⟩

/-- The advanced items of a kernel tell it from others. -/
theorem WellFormed.kernel_eq (wf : g.WellFormed) {kernel kernel' : ItemSet}
    (reached : Reached g kernel) (reached' : Reached g kernel')
    (same : g.advancedItems.filter (· ∈ kernel) = g.advancedItems.filter (· ∈ kernel')) :
    kernel = kernel' := by
  have agree (i : Item) (advanced : i ∈ g.advancedItems) : i ∈ kernel ↔ i ∈ kernel' := by
    have member : i ∈ g.advancedItems.filter (· ∈ kernel) ↔
        i ∈ g.advancedItems.filter (· ∈ kernel') := by rw [same]
    simpa [advanced] using member
  -- A kernel of advanced items that agrees with the first one has no item but the one of that.
  have first (k : ItemSet) (member : ∃ i, i ∈ k)
      (inside : ∀ i ∈ k, i ∈ ItemSet.startKernel) : k = .startKernel := by
    obtain ⟨i, member⟩ := member
    have only (j : Item) (other : j ∈ k) := mem_startKernel.mp (inside j other)
    ext j
    refine ⟨inside j, fun start => ?_⟩
    rwa [mem_startKernel.mp start, ← only i member]
  rcases wf.kernel_cases reached with rfl | ⟨member, inside⟩ <;>
    rcases wf.kernel_cases reached' with rfl | ⟨member', inside'⟩
  · rfl
  · exact (first kernel' member' fun i other => (agree i (inside' i other)).mpr other).symm
  · exact first kernel member fun i other => (agree i (inside i other)).mp other
  · ext i
    exact ⟨fun member => (agree i (inside i member)).mp member,
      fun member => (agree i (inside' i member)).mpr member⟩

theorem WellFormed.length_kernels_le (wf : g.WellFormed) {e : Exploration}
    (explores : e.Explores g) : e.kernels.length ≤ g.maxStates := by
  -- Different kernels have different lists of advanced items, which are sublists of one list.
  let advanced (kernel : ItemSet) : List Item := g.advancedItems.filter (· ∈ kernel)
  have distinct : e.kernels.Nodup := by
    rw [explores.kernels]
    exact nodup_discoverAll (List.nodup_singleton _) _
  have distinct_advanced : (e.kernels.map advanced).Nodup :=
    distinct.map_on fun kernel member kernel' member' same =>
      wf.kernel_eq (explores.reached kernel member) (explores.reached kernel' member') same
  have inside : e.kernels.map advanced ⊆ g.advancedItems.sublists := by
    intro items member
    obtain ⟨kernel, _, rfl⟩ := List.mem_map.mp member
    exact List.mem_sublists.mpr List.filter_sublist
  have bounded := (List.subperm_of_subset distinct_advanced inside).length_le
  rwa [List.length_map, List.length_sublists, length_advancedItems] at bounded

end Grammar

/-! ### The finished automaton -/

namespace Grammar

variable (g : Grammar)

/-- The kernels of the states, in order. -/
def kernels : List ItemSet :=
  (Exploration.initial.complete (.ofGrammar g) g.rightSymbols g.maxStates).kernels

variable {g}

/-- Nothing is left to explore. -/
theorem WellFormed.states_length (wf : g.WellFormed) :
    (Automaton.ofGrammar g).states.length = g.kernels.length := by
  have explores := Exploration.explores_of_start g
  refine Nat.le_antisymm explores.explored ?_
  -- If exploration were stopped by the limit, it would have explored that many kernels.
  rcases Exploration.complete_stops .initial (.ofGrammar g) g.rightSymbols g.maxStates with
    done | limit
  · exact done
  · have bounded := wf.length_kernels_le explores
    have from_start : Exploration.initial.states.length = 0 := rfl
    rw [from_start, Nat.zero_add] at limit
    exact Nat.le_trans bounded (Nat.le_of_eq limit.symm)

theorem WellFormed.states_eq (wf : g.WellFormed) :
    (Automaton.ofGrammar g).states = g.kernels.map (g.stateOf g.kernels) := by
  have explores := Exploration.explores_of_start g
  have states := explores.states
  have length := wf.states_length
  simp only [Automaton.ofGrammar] at length ⊢
  rw [length] at states
  rwa [kernels, List.take_length] at states

theorem WellFormed.kernels_eq (wf : g.WellFormed) :
    g.kernels = discoverAll [.startKernel] (g.kernels.flatMap g.successors) := by
  have explores := Exploration.explores_of_start g
  have kernels := explores.kernels
  have length := wf.states_length
  simp only [Automaton.ofGrammar] at length
  rw [length] at kernels
  rwa [Grammar.kernels, List.take_length] at kernels

theorem automaton_warnings (g : Grammar) : (Automaton.ofGrammar g).warnings = [] :=
  (Exploration.explores_of_start g).warnings

theorem WellFormed.initial_kernel (wf : g.WellFormed) :
    g.kernels[StateId.initial]? = some .startKernel := by
  obtain ⟨more, whole⟩ :=
    isPrefix_discoverAll [ItemSet.startKernel] (g.kernels.flatMap g.successors)
  rw [wf.kernels_eq, ← whole]
  rfl

theorem WellFormed.successor_mem_kernels (wf : g.WellFormed) {kernel : ItemSet} {x : Symbol}
    (member : kernel ∈ g.kernels) (departs : x ∈ g.departing kernel) :
    g.successor kernel x ∈ g.kernels := by
  rw [wf.kernels_eq]
  exact mem_discoverAll.mpr (.inr (List.mem_flatMap.mpr
    ⟨kernel, member, mem_successors.mpr ⟨x, departs, rfl⟩⟩))

theorem reached_of_mem_kernels {kernel : ItemSet} (member : kernel ∈ g.kernels) :
    Reached g kernel :=
  (Exploration.explores_of_start g).reached kernel member

theorem WellFormed.nodup_kernels (wf : g.WellFormed) : g.kernels.Nodup := by
  rw [wf.kernels_eq]
  exact nodup_discoverAll (List.nodup_singleton _) _

theorem WellFormed.getElem?_idxOf_successor (wf : g.WellFormed) {kernel : ItemSet} {x : Symbol}
    (member : kernel ∈ g.kernels) (departs : x ∈ g.departing kernel) :
    g.kernels[g.kernels.idxOf (g.successor kernel x)]? = some (g.successor kernel x) :=
  List.getElem?_idxOf (wf.successor_mem_kernels member departs)

theorem WellFormed.getElem?_states_iff (wf : g.WellFormed) {s : StateId} {state : State} :
    (Automaton.ofGrammar g).states[s]? = some state ↔
      ∃ kernel, g.kernels[s]? = some kernel ∧ g.stateOf g.kernels kernel = state := by
  rw [wf.states_eq, List.getElem?_map, Option.map_eq_some_iff]

theorem mem_moves_iff {kernels : List ItemSet} {kernel : ItemSet} {x : Symbol} {t : StateId} :
    (x, t) ∈ (g.stateOf kernels kernel).moves ↔
      x ∈ g.departing kernel ∧ kernels.idxOf (g.successor kernel x) = t := by
  simp only [stateOf, List.mem_map, Prod.mk.injEq]
  constructor
  · rintro ⟨y, departs, rfl, target⟩
    exact ⟨departs, target⟩
  · rintro ⟨departs, target⟩
    exact ⟨x, departs, rfl, target⟩

theorem moves_functional {kernels : List ItemSet} {kernel : ItemSet} {x : Symbol} {t u : StateId}
    (move : (x, t) ∈ (g.stateOf kernels kernel).moves)
    (move' : (x, u) ∈ (g.stateOf kernels kernel).moves) : t = u :=
  (mem_moves_iff.mp move).2.symm.trans (mem_moves_iff.mp move').2

theorem lookup_moves_iff {kernels : List ItemSet} {kernel : ItemSet} {x : Symbol} {t : StateId} :
    (g.stateOf kernels kernel).moves.lookup x = some t ↔
      x ∈ g.departing kernel ∧ kernels.idxOf (g.successor kernel x) = t :=
  (lookup_eq_some_iff_mem fun _ _ _ => moves_functional).trans mem_moves_iff

/-- A state moves on a symbol to the state of the kernel that reading the symbol leads to. -/
theorem WellFormed.goto_eq_some_iff (wf : g.WellFormed) {s t : StateId} {x : Symbol} :
    (Automaton.ofGrammar g).goto s x = some t ↔ ∃ kernel, g.kernels[s]? = some kernel ∧
      x ∈ g.departing kernel ∧ g.kernels[t]? = some (g.successor kernel x) := by
  rw [Automaton.goto, wf.states_eq, List.getElem?_map]
  cases found : g.kernels[s]? with
  | none => simp
  | some kernel =>
    have member := List.mem_of_getElem? found
    simp only [Option.map_some, Option.bind_some, lookup_moves_iff, Option.some.injEq,
      exists_eq_left']
    refine and_congr_right fun departs => ?_
    have numbered := wf.getElem?_idxOf_successor member departs
    constructor
    · rintro rfl
      exact numbered
    · intro target
      have inside := (List.getElem?_eq_some_iff.mp numbered).1
      exact (List.getElem?_inj inside wf.nodup_kernels).mp (numbered.trans target.symm)

end Grammar

end CanonicalLR
