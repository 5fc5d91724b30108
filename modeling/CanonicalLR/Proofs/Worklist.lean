import CanonicalLR.Automaton.Worklist
import CanonicalLR.Proofs.StateNumbering
import Mathlib.Data.Set.Card

/-!
# The queues run empty

The worklist passes through the stages of exploration: the numbers in its queue are those of the
kernels that have been met and not explored yet, in order. So it ends when nothing is left to
explore, and then each number has been taken from the queue once. It is met kernels that bound the
number of turns: they are all different, and but for the first they are nonempty sets of items that
have been advanced. The queue of a closure ends because no items but those of the closure enter it,
and none enters twice.
-/
namespace CanonicalLR

/-! ### The queue of a closure -/

namespace Predictor

theorem mem_predicts_iff {p : Predictor} {i j : Item} :
    j ∈ p.predicts i ↔ ∃ n, i.next? p.grammar = some (.nonterminal n) ∧
      ∃ q ∈ p.grammar.rulesOf n, ∃ b ∈ p.first.lookaheads (i.afterNext p.grammar) i.lookahead,
        { rule := q, marker := 0, lookahead := b } = j := by
  simp only [predicts]
  split
  next n next =>
    simp only [next, Option.some.injEq, Symbol.nonterminal.injEq, exists_eq_left', List.mem_flatMap,
      List.mem_map, OrderedSet.mem_toList]
  next other =>
    constructor
    · intro none_in
      exact absurd none_in List.not_mem_nil
    · rintro ⟨n, next, _⟩
      exact absurd next (other n)

/-- What an item predicts is what closures add for it. -/
theorem mem_predicts {g : Grammar} (wf : g.WellFormed) {i j : Item} :
    j ∈ (ofGrammar g).predicts i ↔ ∃ q b, j = { rule := q, marker := 0, lookahead := b } ∧
      q < g.rules.length ∧ i.next? g = some (.nonterminal (g.rule q).left) ∧
      Begins g.rules (i.afterNext g ++ [.terminal i.lookahead]) b := by
  rw [mem_predicts_iff]
  simp only [Grammar.rulesOf, List.mem_filter, List.mem_range, beq_iff_eq]
  constructor
  · rintro ⟨n, next, q, ⟨known, rfl⟩, b, looked, rfl⟩
    have marked := wf.epsilon_not_mem_afterNext next
    exact ⟨q, b, rfl, known, next, (wf.mem_lookaheads marked).mp looked⟩
  · rintro ⟨q, b, rfl, known, next, begins⟩
    have marked := wf.epsilon_not_mem_afterNext next
    exact ⟨_, next, q, ⟨known, rfl⟩, b, (wf.mem_lookaheads marked).mpr begins, rfl⟩

end Predictor

namespace ItemQueue

variable {g : Grammar} {kernel : ItemSet} {q next : ItemQueue} {i : Item}

theorem mem_items_foldl_enter (js : List Item) :
    i ∈ (js.foldl enter q).items ↔ i ∈ q.items ∨ i ∈ js := by
  induction js generalizing q with
  | nil => simp
  | cons j js ih =>
    have entered : i ∈ (q.enter j).items ↔ i ∈ q.items ∨ i = j := by
      simp only [enter]
      split
      next met =>
        constructor
        · exact .inl
        · rintro (old | rfl)
          · exact old
          · exact met
      next => rw [OrderedSet.mem_insert, or_comm]
    rw [List.foldl_cons, ih, entered, List.mem_cons, or_assoc]

/-- An item that is met waits for its turn. -/
theorem mem_pending_foldl_enter (js : List Item) :
    i ∈ (js.foldl enter q).pending ↔ i ∈ q.pending ∨ i ∈ js ∧ i ∉ q.items := by
  induction js generalizing q with
  | nil => simp
  | cons j js ih =>
    rw [List.foldl_cons, ih, List.mem_cons]
    simp only [enter]
    split
    next met =>
      -- An item that has been met before does not wait once more.
      have other : i ∉ q.items → i ≠ j := by
        rintro new rfl
        exact new met
      tauto
    next new =>
      have fresh : i = j → i ∉ q.items := by
        rintro rfl
        exact new
      simp only [List.mem_append, List.mem_singleton, OrderedSet.mem_insert]
      tauto

/-- At most so many turns are left when no items but the given ones can be met. -/
def turnsLeft (findable : ItemSet) (q : ItemQueue) : Nat :=
  findable.size - q.items.size + q.pending.length

theorem turnsLeft_foldl_enter_le {findable : ItemSet} {js : List Item}
    (met : q.items ⊆ findable) (found : ∀ j ∈ js, j ∈ findable) :
    (js.foldl enter q).turnsLeft findable ≤ q.turnsLeft findable := by
  induction js generalizing q with
  | nil => exact Nat.le_refl _
  | cons j js ih =>
    have findable_j := found j List.mem_cons_self
    have found_later (k : Item) (member : k ∈ js) := found k (List.mem_cons_of_mem j member)
    rw [List.foldl_cons]
    simp only [enter]
    split
    next => exact ih met found_later
    next new =>
      have met_more : q.items.insert j ⊆ findable := by
        intro k member
        rcases OrderedSet.mem_insert.mp member with rfl | old
        · exact findable_j
        · exact met k old
      apply Nat.le_trans (ih met_more found_later)
      -- One more item waits, and there is one less that can still be met.
      have grown : q.items.size < (q.items.insert j).size := by
        apply OrderedSet.size_lt_of_subset_of_ne
        · exact fun k old => OrderedSet.mem_insert.mpr (.inr old)
        · intro same
          exact new (same ▸ OrderedSet.mem_insert.mpr (.inl rfl))
      have bounded := OrderedSet.size_le_of_subset met_more
      simp only [turnsLeft, List.length_append, List.length_singleton]
      omega

/-- The invariant of closing: what has been met belongs to the closure, and an item that does not
wait any more has been asked what it predicts. -/
structure Closes (g : Grammar) (kernel : ItemSet) (q : ItemQueue) : Prop where
  given : kernel ⊆ q.items
  closed : ∀ i ∈ q.items, InClosure g kernel i
  pending_met : ∀ i ∈ q.pending, i ∈ q.items
  asked : ∀ i ∈ q.items, i ∉ q.pending → ∀ j ∈ (Predictor.ofGrammar g).predicts i, j ∈ q.items

theorem ofItems_closes (g : Grammar) {items : List Item} (same : ∀ i, i ∈ items ↔ i ∈ kernel) :
    (ofItems items).Closes g kernel := by
  have met (i : Item) : i ∈ (ofItems items).items ↔ i ∈ kernel := by
    rw [ofItems, mem_items_foldl_enter, ← same]
    simp
  have waits (i : Item) : i ∈ (ofItems items).pending ↔ i ∈ kernel := by
    rw [ofItems, mem_pending_foldl_enter, ← same]
    simp
  exact {
    given := fun i member => (met i).mpr member
    closed := fun i member => .given ((met i).mp member)
    pending_met := fun i member => (met i).mpr ((waits i).mp member)
    asked := fun i member gone => absurd ((waits i).mpr ((met i).mp member)) gone }

theorem start_closes (g : Grammar) (kernel : ItemSet) : (start kernel).Closes g kernel :=
  ofItems_closes g fun _ => OrderedSet.mem_toList

theorem inClosure_of_predicts (wf : g.WellFormed) (closed : InClosure g kernel i) :
    ∀ j ∈ (Predictor.ofGrammar g).predicts i, InClosure g kernel j := by
  intro j member
  obtain ⟨_, _, rfl, known, next, begins⟩ := (Predictor.mem_predicts wf).mp member
  exact .predict closed known next begins

/-- The item in front is asked what it predicts. -/
theorem ask_closes (wf : g.WellFormed) {items : ItemSet} {rest : List Item}
    (closes : Closes g kernel ⟨items, i :: rest⟩) :
    (((Predictor.ofGrammar g).predicts i).foldl enter ⟨items, rest⟩).Closes g kernel := by
  have met : i ∈ items := closes.pending_met i List.mem_cons_self
  refine { given := ?_, closed := ?_, pending_met := ?_, asked := ?_ }
  · intro j member
    exact (mem_items_foldl_enter _).mpr (.inl (closes.given j member))
  · intro j member
    rcases (mem_items_foldl_enter _).mp member with old | new
    · exact closes.closed j old
    · exact inClosure_of_predicts wf (closes.closed i met) j new
  · intro j waits
    rcases (mem_pending_foldl_enter _).mp waits with old | ⟨new, _⟩
    · have met_j := closes.pending_met j (List.mem_cons_of_mem i old)
      exact (mem_items_foldl_enter _).mpr (.inl met_j)
    · exact (mem_items_foldl_enter _).mpr (.inr new)
  · intro j member gone k predicts
    rw [mem_pending_foldl_enter] at gone
    push Not at gone
    -- What does not wait has been met before, and it is asked now or was asked earlier.
    have old : j ∈ items := ((mem_items_foldl_enter _).mp member).elim id gone.2
    by_cases now : j = i
    · exact (mem_items_foldl_enter _).mpr (.inr (now ▸ predicts))
    · have earlier : j ∉ i :: rest := by simp [now, gone.1]
      exact (mem_items_foldl_enter _).mpr (.inl (closes.asked j old earlier k predicts))

theorem turnsLeft_ask_lt (wf : g.WellFormed) {items : ItemSet} {rest : List Item}
    (closes : Closes g kernel ⟨items, i :: rest⟩) :
    (((Predictor.ofGrammar g).predicts i).foldl enter ⟨items, rest⟩).turnsLeft (g.closure kernel) <
      turnsLeft (g.closure kernel) ⟨items, i :: rest⟩ := by
  have met : i ∈ items := closes.pending_met i List.mem_cons_self
  have predicted := inClosure_of_predicts wf (closes.closed i met)
  have findable (j : Item) (closed : InClosure g kernel j) := wf.mem_closure_iff.mpr closed
  have no_more := turnsLeft_foldl_enter_le (q := ⟨items, rest⟩)
    (fun j old => findable j (closes.closed j old)) fun j new => findable j (predicted j new)
  apply Nat.lt_of_le_of_lt no_more
  simp only [turnsLeft, List.length_cons]
  omega

theorem turn_closes (wf : g.WellFormed) (closes : q.Closes g kernel)
    (turned : q.turn? (.ofGrammar g) = some next) :
    next.Closes g kernel ∧
      next.turnsLeft (g.closure kernel) < q.turnsLeft (g.closure kernel) := by
  obtain ⟨items, pending⟩ := q
  cases pending with
  | nil => cases turned
  | cons i rest =>
    obtain rfl := Option.some.inj turned
    exact ⟨ask_closes wf closes, turnsLeft_ask_lt wf closes⟩

theorem items_eq_closure (wf : g.WellFormed) (closes : q.Closes g kernel) (empty : q.pending = []) :
    q.items = g.closure kernel := by
  ext i
  rw [wf.mem_closure_iff]
  constructor
  · exact closes.closed i
  · intro closed
    induction closed with
    | given member => exact closes.given _ member
    | @predict i q' b _ known next begins ih =>
      have predicts := (Predictor.mem_predicts wf).mpr ⟨q', b, rfl, known, next, begins⟩
      exact closes.asked i ih (by simp [empty]) _ predicts

/-- Turns end, by induction on how many are left, and what has been met is the closure then. -/
theorem empties_of_closes (wf : g.WellFormed) (closes : q.Closes g kernel) :
    q.Empties (.ofGrammar g) (g.closure kernel) := by
  induction left : q.turnsLeft (g.closure kernel) using Nat.strongRecOn generalizing q with
  | ind left' ih =>
    cases turned : q.turn? (.ofGrammar g) with
    | none =>
      have empty : q.pending = [] := by
        simp only [turn?] at turned
        split at turned
        next empty => exact empty
        next => cases turned
      rw [← items_eq_closure wf closes empty]
      exact .done empty
    | some next =>
      obtain ⟨next_closes, fewer⟩ := turn_closes wf closes turned
      exact .turn turned (ih _ (left ▸ fewer) next_closes rfl)

end ItemQueue

/-! ### The queue of states -/

/-- The number of an element in a list that gives each its position is where it stands first. -/
theorem lookup_zipIdx {α : Type} [DecidableEq α] (as : List α) (n : Nat) (a : α) :
    (as.zipIdx n).lookup a = if a ∈ as then some (n + as.idxOf a) else none := by
  induction as generalizing n with
  | nil => rfl
  | cons b as ih =>
    rw [List.zipIdx_cons, List.lookup_cons]
    by_cases same : a = b
    · simp [same]
    · have other : (a == b) = false := beq_eq_false_iff_ne.mpr same
      have later : (b == a) = false := beq_eq_false_iff_ne.mpr (Ne.symm same)
      simp only [other, ih, List.mem_cons, same, false_or, List.idxOf_cons, later, cond_false]
      split
      · congr 1
        omega
      · rfl

namespace Worklist

variable (p : Predictor)

/-- The worklist while a state is explored, when the edges before its own are known. -/
def during (earlier : List Edge) (source : StateId) (d : Departures) : Worklist where
  states := d.kernels.map p.closure
  kernels := d.kernels.zipIdx
  edges := earlier ++ d.moves.map fun (x, target) => ⟨source, x, target⟩
  pending := List.range' (source + 1) (d.kernels.length - (source + 1))
  warnings := d.warnings

/-- The worklist before a turn. -/
def ofExploration (e : Exploration) : Worklist where
  states := e.kernels.map p.closure
  kernels := e.kernels.zipIdx
  edges := Automaton.edges ⟨e.states, e.warnings⟩
  pending := List.range' e.states.length (e.kernels.length - e.states.length)
  warnings := e.warnings

variable {p} {earlier : List Edge} {source : StateId} {d : Departures}

/-! ### One turn -/

theorem target?_during (before : ∀ e ∈ earlier, e.source ≠ source) (x : Symbol) :
    (during p earlier source d).target? source x = d.moves.lookup x := by
  have none_earlier : (earlier.find? fun e => e.source = source ∧ e.symbol = x) = none := by
    apply List.find?_eq_none.mpr
    intro e member
    simp [before e member]
  simp only [target?, during, List.find?_append, none_earlier, Option.none_or]
  generalize d.moves = moves
  induction moves with
  | nil => rfl
  | cons move moves ih =>
    obtain ⟨y, target⟩ := move
    rw [List.map_cons, List.find?_cons, List.lookup_cons]
    by_cases same : x = y
    · simp [same]
    · have other : (x == y) = false := beq_eq_false_iff_ne.mpr same
      simpa only [other, true_and, Ne.symm same, decide_false] using ih

theorem addEdge_during (before : ∀ e ∈ earlier, e.source ≠ source) (x : Symbol)
    (target : StateId) :
    (during p earlier source d).addEdge p source x target =
      during p earlier source (d.connect p.grammar source x target) := by
  rw [addEdge, target?_during before, Departures.connect]
  cases d.moves.lookup x with
  | none => simp [during]
  | some kept =>
    by_cases same : kept = target
    · simp [same]
    · simp [same, during]

theorem addState_during (taken : source < d.kernels.length) {kernel : ItemSet}
    (new : kernel ∉ d.kernels) :
    (during p earlier source d).addState p kernel =
      during p earlier source { d with kernels := discover d.kernels kernel } := by
  have numbers : List.range' (source + 1) (d.kernels.length - (source + 1)) ++ [d.kernels.length] =
      List.range' (source + 1) (d.kernels.length + 1 - (source + 1)) := by
    have count : d.kernels.length + 1 - (source + 1) = d.kernels.length - (source + 1) + 1 := by
      lia
    have last : d.kernels.length = source + 1 + (d.kernels.length - (source + 1)) := by lia
    rw [count, List.range'_concat, Nat.one_mul, ← last]
  simp [addState, during, discover, new, numbers, List.zipIdx_append]

theorem isPrefix_kernels_follow (g : Grammar) (source : StateId) (advances : List (Symbol × Item))
    (d : Departures) (x : Symbol) : d.kernels <+: (d.follow g source advances x).kernels := by
  have kept (d : Departures) (target : StateId) :
      (d.connect g source x target).kernels = d.kernels := by
    simp only [Departures.connect]
    split
    · rfl
    · split <;> rfl
  simp only [Departures.follow]
  split
  · exact List.prefix_rfl
  · rw [kept]
    exact isPrefix_discover _ _

theorem follow_during (before : ∀ e ∈ earlier, e.source ≠ source)
    (taken : source < d.kernels.length) (advances : List (Symbol × Item)) (x : Symbol) :
    (during p earlier source d).follow p source advances x =
      during p earlier source (d.follow p.grammar source advances x) := by
  simp only [follow, Departures.follow]
  split
  · rfl
  · have number : (during p earlier source d).kernels.lookup (successorKernel advances x) =
        if successorKernel advances x ∈ d.kernels then
          some (d.kernels.idxOf (successorKernel advances x)) else none := by
      rw [during, lookup_zipIdx, Nat.zero_add]
    by_cases met : successorKernel advances x ∈ d.kernels
    · simp only [number, met, if_pos, discover_of_mem]
      exact addEdge_during before x _
    · -- A new kernel is put last, so its number is the count of those before it.
      have last : (discover d.kernels (successorKernel advances x)).idxOf
          (successorKernel advances x) = d.kernels.length := by
        simp [discover, met, List.idxOf_append]
      have length : (during p earlier source d).states.length = d.kernels.length := by
        simp [during]
      simp only [number, met, if_neg, not_false_eq_true, addState_during taken met, length, last]
      exact addEdge_during before x _

theorem foldl_follow_during (before : ∀ e ∈ earlier, e.source ≠ source)
    (taken : source < d.kernels.length) (advances : List (Symbol × Item)) (xs : List Symbol) :
    xs.foldl (fun w x => w.follow p source advances x) (during p earlier source d) =
      during p earlier source (xs.foldl (Departures.follow p.grammar source advances) d) := by
  induction xs generalizing d with
  | nil => rfl
  | cons x xs ih =>
    rw [List.foldl_cons, List.foldl_cons, follow_during before taken]
    apply ih
    have grown := (isPrefix_kernels_follow p.grammar source advances d x).length_le
    exact Nat.lt_of_lt_of_le taken grown

/-- Edges lead from states that have been explored. -/
theorem source_lt_of_mem_edges {a : Automaton} {edge : Edge} (member : edge ∈ a.edges) :
    edge.source < a.size := by
  simp only [Automaton.edges, List.mem_flatMap, List.mem_map, Prod.exists,
    List.mem_zipIdx_iff_getElem?] at member
  obtain ⟨state, source, found, _, _, _, rfl⟩ := member
  exact (List.getElem?_eq_some_iff.mp found).1

/-- When the number in front has been taken from the queue, its state is about to be explored. -/
theorem take_ofExploration (p : Predictor) (e : Exploration) :
    { ofExploration p e with
      pending :=
        List.range' (e.states.length + 1) (e.kernels.length - (e.states.length + 1)) } =
      during p (Automaton.edges ⟨e.states, e.warnings⟩) e.states.length
        ⟨e.kernels, [], e.warnings⟩ := by
  simp [ofExploration, during]

/-- A turn explores the state of the next kernel. -/
theorem turn?_ofExploration {e : Exploration} {kernel : ItemSet}
    (next : e.kernels[e.states.length]? = some kernel) (symbols : List Symbol) :
    (ofExploration p e).turn? p symbols =
      some (e.states.length, ofExploration p (e.visit p symbols kernel)) := by
  have inside : e.states.length < e.kernels.length := (List.getElem?_eq_some_iff.mp next).1
  have queue : (ofExploration p e).pending = e.states.length ::
      List.range' (e.states.length + 1) (e.kernels.length - (e.states.length + 1)) := by
    have count : e.kernels.length - e.states.length =
        e.kernels.length - (e.states.length + 1) + 1 := by omega
    rw [ofExploration, count, List.range'_succ]
  have closed : (ofExploration p e).states[e.states.length]? = some (p.closure kernel) := by
    rw [ofExploration, List.getElem?_map, next, Option.map_some]
  -- No edge has been recorded yet for the state whose turn it is.
  have earlier : ∀ edge ∈ Automaton.edges ⟨e.states, e.warnings⟩,
      edge.source ≠ e.states.length := by
    intro edge member
    exact Nat.ne_of_lt (source_lt_of_mem_edges member)
  simp only [turn?, queue, closed, Option.map_some, take_ofExploration]
  rw [foldl_follow_during earlier inside]
  simp [ofExploration, during, Exploration.visit, Automaton.edges, List.zipIdx_append]

/-! ### All turns -/

theorem start_eq (p : Predictor) : start p = ofExploration p .initial := rfl

/-- The turns that are taken explore one state after the other. -/
theorem runs_complete (p : Predictor) (symbols : List Symbol) (e : Exploration) (limit : Nat) :
    let last := e.complete p symbols limit
    ∃ turns, last.states.length = e.states.length + turns ∧
      Runs p symbols (ofExploration p e) (List.range' e.states.length turns)
        (ofExploration p last) := by
  induction limit generalizing e with
  | zero => exact ⟨0, rfl, .stay⟩
  | succ limit ih =>
    simp only [Exploration.complete]
    split
    next => exact ⟨0, rfl, .stay⟩
    next kernel next =>
      have visited : (e.visit p symbols kernel).states.length = e.states.length + 1 := by
        simp [Exploration.visit]
      obtain ⟨turns, length, runs⟩ := ih (e.visit p symbols kernel)
      refine ⟨turns + 1, by omega, ?_⟩
      rw [List.range'_succ, ← visited]
      exact .turn (turn?_ofExploration next symbols) runs

end Worklist

/-! ### The closed collection -/

namespace Grammar

variable {g : Grammar}

/-- The nonempty sets of items that have been advanced. -/
def advancedSets (g : Grammar) : Set (Finset Item) :=
  {items | items.Nonempty ∧ ∀ i ∈ items, i.rule < g.rules.length ∧ 1 ≤ i.marker ∧
    i.marker ≤ (i.right g).length ∧ i.lookahead < g.terminals.length}

/-- The items with the marker behind a symbol, each with each terminal as lookahead. -/
def itemsBehind (g : Grammar) : List Item :=
  g.rules.zipIdx.flatMap fun (r, id) =>
    (List.range r.right.length).flatMap fun marker =>
      (List.range g.terminals.length).map fun lookahead => ⟨id, marker + 1, lookahead⟩

theorem mem_itemsBehind_iff {i : Item} :
    i ∈ g.itemsBehind ↔ i.rule < g.rules.length ∧ 1 ≤ i.marker ∧
      i.marker ≤ (i.right g).length ∧ i.lookahead < g.terminals.length := by
  simp only [itemsBehind, List.mem_flatMap, List.mem_map, List.mem_range, Prod.exists,
    List.mem_zipIdx_iff_getElem?]
  constructor
  · rintro ⟨r, q, found, m, inside, a, known, rfl⟩
    have right : Item.right g ⟨q, m + 1, a⟩ = r.right := congrArg _ (rule_of_getElem? found)
    refine ⟨(List.getElem?_eq_some_iff.mp found).1, Nat.succ_pos m, ?_, known⟩
    rw [right]
    exact inside
  · rintro ⟨rule_known, moved, inside, known⟩
    refine ⟨_, i.rule, getElem?_rule rule_known, i.marker - 1, ?_, i.lookahead, known, ?_⟩
    · change i.marker - 1 < (i.right g).length
      omega
    · obtain ⟨q, m, a⟩ := i
      congr 1
      exact Nat.sub_add_cancel moved

theorem finite_advancedSets (g : Grammar) : g.advancedSets.Finite := by
  apply Set.Finite.subset (Finset.finite_toSet g.itemsBehind.toFinset.powerset)
  rintro items ⟨_, advanced⟩
  rw [Finset.mem_coe, Finset.mem_powerset]
  intro i member
  exact List.mem_toFinset.mpr (mem_itemsBehind_iff.mpr (advanced i member))

end Grammar

/-- Where the marker of an advanced item stands: after the last number it is at the front again, and
then as many symbols are before it as there are markers. -/
def Item.place (i : Item) : Item :=
  if i.marker = 0 then { i with marker := markerNumbers } else i

theorem Item.place_inj {i j : Item} (bounded : i.marker < markerNumbers)
    (bounded' : j.marker < markerNumbers) (same : i.place = j.place) : i = j := by
  obtain ⟨q, m, a⟩ := i
  obtain ⟨q', m', a'⟩ := j
  dsimp only [place] at *
  split at same <;> split at same <;> simp only [Item.mk.injEq, true_and] at same ⊢ <;> lia

namespace Grammar

variable {g : Grammar}

/-- An item that has been advanced stands behind some symbol of its rule. -/
theorem place_mem_itemsBehind {i : Item} (advanced : i ∈ g.advancedItems) :
    i.place ∈ g.itemsBehind := by
  obtain ⟨j, ⟨x, next⟩, known, rfl⟩ := mem_advancedItems.mp advanced
  have inside := Item.marker_lt_of_next? next
  have rule_known := Item.rule_known_of_next? next
  rw [mem_itemsBehind_iff, Item.place]
  split
  next front =>
    -- Then the symbols that have been read are a multiple of the number of markers.
    have enough : markerNumbers ≤ j.marker + 1 :=
      Nat.le_of_dvd (Nat.succ_pos _) (Nat.dvd_of_mod_eq_zero front)
    exact ⟨rule_known, Nat.succ_pos _, Nat.le_trans enough inside, known⟩
  next moved =>
    exact ⟨rule_known, Nat.pos_of_ne_zero moved,
      Nat.le_trans (Item.advance_marker_le j) inside, known⟩

theorem marker_lt_of_advanced {i : Item} (advanced : i ∈ g.advancedItems) :
    i.marker < markerNumbers := by
  obtain ⟨j, _, _, rfl⟩ := mem_advancedItems.mp advanced
  exact j.advance_marker_lt

/-- Besides the first state there is at most one for each nonempty set of advanced items. -/
theorem WellFormed.size_le (wf : g.WellFormed) :
    (Automaton.ofGrammar g).size ≤ 1 + g.advancedSets.ncard := by
  obtain ⟨others, kernels⟩ :=
    isPrefix_discoverAll [ItemSet.startKernel] (g.kernels.flatMap g.successors)
  rw [← wf.kernels_eq, List.singleton_append] at kernels
  have distinct := wf.nodup_kernels
  rw [wf.size_eq, ← kernels, List.length_cons, Nat.add_comm]
  apply Nat.add_le_add_left
  rw [← kernels] at distinct
  obtain ⟨not_again, distinct⟩ := List.nodup_cons.mp distinct
  have cases (kernel : ItemSet) (other : kernel ∈ others) :
      (∃ i, i ∈ kernel) ∧ ∀ i ∈ kernel, i ∈ g.advancedItems := by
    have reached := reached_of_mem_kernels (kernels ▸ List.mem_cons_of_mem _ other)
    rcases wf.kernel_cases reached with rfl | advanced
    · exact absurd other not_again
    · exact advanced
  let places (kernel : ItemSet) : Finset Item := (kernel.toList.map Item.place).toFinset
  have mem_places (kernel : ItemSet) (i : Item) :
      i ∈ places kernel ↔ ∃ j ∈ kernel, j.place = i := by
    simp [places]
  -- Kernels other than the first are told apart by where the markers of their items stand.
  have inside : ∀ items ∈ (others.map places).toFinset, items ∈ g.advancedSets := by
    intro items member
    obtain ⟨kernel, other, rfl⟩ := List.mem_map.mp (List.mem_toFinset.mp member)
    obtain ⟨⟨i, member⟩, advanced⟩ := cases kernel other
    refine ⟨⟨i.place, (mem_places kernel _).mpr ⟨i, member, rfl⟩⟩, fun j member => ?_⟩
    obtain ⟨k, inside, rfl⟩ := (mem_places kernel j).mp member
    exact mem_itemsBehind_iff.mp (place_mem_itemsBehind (advanced k inside))
  have subset (k k' : ItemSet) (other : k ∈ others) (other' : k' ∈ others)
      (same : places k = places k') (i : Item) (member : i ∈ k) : i ∈ k' := by
    have placed : i.place ∈ places k' := same ▸ (mem_places k _).mpr ⟨i, member, rfl⟩
    obtain ⟨j, member', equal⟩ := (mem_places k' _).mp placed
    have bounded := marker_lt_of_advanced ((cases k other).2 i member)
    have bounded' := marker_lt_of_advanced ((cases k' other').2 j member')
    rwa [← Item.place_inj bounded' bounded equal]
  have counted : (others.map places).toFinset.card = others.length := by
    rw [List.toFinset_card_of_nodup, List.length_map]
    refine distinct.map_on fun k other k' other' same => ?_
    ext i
    exact ⟨subset k k' other other' same i, subset k' k other' other same.symm i⟩
  rw [← counted, ← Set.ncard_coe_finset]
  exact Set.ncard_le_ncard inside g.finite_advancedSets

end Grammar

/-- The queue of states has run empty, after each state was taken from it once, and the queue of
each closure has run empty too. The states that were found are those of the automaton, and reading
a symbol leads from each of them to one of them. -/
structure Worklist.Finishes (g : Grammar) (popped : List StateId) (w : Worklist) : Prop where
  empty : w.pending = []
  each_once : popped = List.range w.states.length
  closures : w.states = w.kernels.map fun (kernel, _) => g.closure kernel
  closures_end : ∀ kernel : ItemSet,
    (ItemQueue.start kernel).Empties (.ofGrammar g) (g.closure kernel)
  bounded : w.states.length ≤ 1 + g.advancedSets.ncard
  closed : ∀ s items, w.states[s]? = some items → ∀ i ∈ items, ∀ x, i.next? g = some x →
    ∃ target < w.states.length, ⟨s, x, target⟩ ∈ w.edges
  states_eq : w.states = (Automaton.ofGrammar g).states.map (·.items)
  edges_eq : w.edges = (Automaton.ofGrammar g).edges
  warnings_eq : w.warnings = (Automaton.ofGrammar g).warnings

namespace Grammar

variable {g : Grammar}

/-- In the closed collection every symbol after a marker leads to a state. -/
theorem WellFormed.exists_edge (wf : g.WellFormed) {s : StateId} {state : State} {i : Item}
    {x : Symbol} (found : (Automaton.ofGrammar g).states[s]? = some state)
    (member : i ∈ state.items) (next : i.next? g = some x) :
    ∃ target < (Automaton.ofGrammar g).size, ⟨s, x, target⟩ ∈ (Automaton.ofGrammar g).edges := by
  obtain ⟨kernel, at_s, departs⟩ := wf.reads_iff.mp ⟨state, found, i, member, next⟩
  have met := wf.successor_mem_kernels (List.mem_of_getElem? at_s) departs
  refine ⟨_, ?_, wf.mem_edges_iff.mpr ⟨kernel, at_s, departs, rfl⟩⟩
  rw [wf.size_eq]
  exact List.idxOf_lt_length_of_mem met

/-- When exploration has ended, the worklist has too. -/
theorem WellFormed.exists_runs (wf : g.WellFormed) :
    ∃ e : Exploration, Automaton.ofGrammar g = ⟨e.states, e.warnings⟩ ∧ e.kernels = g.kernels ∧
      Worklist.Runs (.ofGrammar g) g.rightSymbols (.start (.ofGrammar g))
        (List.range g.kernels.length) (.ofExploration (.ofGrammar g) e) := by
  obtain ⟨turns, length, runs⟩ :=
    Worklist.runs_complete (.ofGrammar g) g.rightSymbols .initial g.maxStates
  refine ⟨_, rfl, rfl, ?_⟩
  have from_start : Exploration.initial.states.length = 0 := rfl
  rw [from_start, Nat.zero_add] at length
  rw [from_start, ← List.range_eq_range', ← Worklist.start_eq] at runs
  rwa [← wf.states_length, Automaton.ofGrammar, length]

/-- What is left when all kernels have been explored is the closed collection. -/
theorem WellFormed.finishes (wf : g.WellFormed) {e : Exploration}
    (automaton : Automaton.ofGrammar g = ⟨e.states, e.warnings⟩) (kernels : e.kernels = g.kernels) :
    (Worklist.ofExploration (.ofGrammar g) e).Finishes g (List.range g.kernels.length) := by
  have all_explored : e.states.length = g.kernels.length := by
    have explored := wf.states_length
    rwa [automaton] at explored
  have counted : (Worklist.ofExploration (.ofGrammar g) e).states.length =
      (Automaton.ofGrammar g).size := by
    rw [wf.size_eq, Worklist.ofExploration, List.length_map, kernels]
  have states_eq : (Worklist.ofExploration (.ofGrammar g) e).states =
      (Automaton.ofGrammar g).states.map (·.items) := by
    rw [wf.states_eq, ← kernels, List.map_map]
    rfl
  have edges_eq : (Worklist.ofExploration (.ofGrammar g) e).edges =
      (Automaton.ofGrammar g).edges := by
    rw [automaton]
    rfl
  refine {
    empty := ?_, each_once := ?_, closures := ?_, closures_end := ?_, bounded := ?_, closed := ?_
    states_eq := states_eq, edges_eq := edges_eq, warnings_eq := ?_ }
  · rw [Worklist.ofExploration, all_explored, kernels, Nat.sub_self, List.range'_zero]
  · rw [counted, wf.size_eq]
  · calc e.kernels.map g.closure
      _ = (e.kernels.zipIdx.map Prod.fst).map g.closure := by rw [List.zipIdx_map_fst]
      _ = e.kernels.zipIdx.map (g.closure ∘ Prod.fst) := List.map_map
  · exact fun kernel => ItemQueue.empties_of_closes wf (ItemQueue.start_closes g kernel)
  · rw [counted]
    exact wf.size_le
  · intro s items at_s i member x next
    rw [states_eq, List.getElem?_map, Option.map_eq_some_iff] at at_s
    obtain ⟨state, found, rfl⟩ := at_s
    rw [counted, edges_eq]
    exact wf.exists_edge found member next
  · rw [automaton]
    rfl

/-- The queue from which the states of a defined grammar are made runs empty when each state has
been taken from it once, and the collection is closed then. -/
theorem collection_closes {ds : List Declaration} (defined : defineAccepted ds = .ok g) :
    ∃ popped last,
      Worklist.Runs (.ofGrammar g) g.rightSymbols (.start (.ofGrammar g)) popped last ∧
      last.Finishes g popped := by
  have wf := wellFormed_of_defined defined
  obtain ⟨e, automaton, kernels, runs⟩ := wf.exists_runs
  exact ⟨_, _, runs, wf.finishes automaton kernels⟩

/-- Eight states are found, and the numbers of all of them are taken from the queue. -/
theorem collection_closes_balanced :
    let g := Examples.grammarOf Examples.balanced
    let p := Predictor.ofGrammar g
    defineAccepted Examples.balanced = .ok g ∧ ∃ last,
      Worklist.Runs p g.rightSymbols (.start p) (List.range 8) last ∧
        last.Finishes g (List.range 8) := by
  intro g p
  have defined : defineAccepted Examples.balanced = .ok g := rfl
  obtain ⟨popped, last, runs, finishes⟩ := collection_closes defined
  have size : last.states.length = 8 := by
    rw [finishes.states_eq, List.length_map]
    decide +kernel
  have eight : popped = List.range 8 := by rw [finishes.each_once, size]
  rw [eight] at runs finishes
  exact ⟨defined, last, runs, finishes⟩

end Grammar

end CanonicalLR
