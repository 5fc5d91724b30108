import CanonicalLR.Text.Listing
import CanonicalLR.Proofs.SymbolNames
import CanonicalLR.Proofs.Worklist

/-!
# Edges in the listing of an automaton

The sections of a listing share one list of edges, and an edge out of order would keep all edges
behind it from being listed. There is none, because numbers are taken from the queue in ascending
order and the edges that are found in a turn leave the number that was taken. So what a section
takes from the front of the list are all the edges that leave its state, and they can be read back
from the text.
-/
namespace CanonicalLR

/-- No edge stands behind one that leaves a later state. -/
def Ascending (edges : List Edge) : Prop := edges.Pairwise fun e e' => e.source ≤ e'.source

/-! ### The order in which edges are found -/

namespace Worklist

variable {p : Predictor} {symbols : List Symbol} {w w' last : Worklist} {n s : StateId}
  {popped : List StateId}

/-- The numbers below this one have been taken from the queue, those from it on are in the queue,
and edges were found in the order of their sources. -/
structure InOrder (w : Worklist) (n : StateId) : Prop where
  queue : w.pending = List.range' n (w.states.length - n)
  le : n ≤ w.states.length
  ascending : Ascending w.edges
  explored : ∀ e ∈ w.edges, e.source < n

theorem InOrder.addState (ordered : w.InOrder n) (kernel : ItemSet) :
    (w.addState p kernel).InOrder n where
  queue := by
    have grown : w.states.length + 1 - n = w.states.length - n + 1 := Nat.sub_add_comm ordered.le
    rw [Worklist.addState, ordered.queue, List.length_append, List.length_singleton, grown,
      List.range'_concat, Nat.one_mul, Nat.add_sub_cancel' ordered.le]
  le := by
    rw [Worklist.addState, List.length_append]
    exact Nat.le_add_right_of_le ordered.le
  ascending := ordered.ascending
  explored := ordered.explored

/-- In the turn of a number the edges that leave it come last. -/
theorem InOrder.addEdge (ordered : w.InOrder (s + 1)) (x : Symbol) (target : StateId) :
    (w.addEdge p s x target).InOrder (s + 1) := by
  rw [Worklist.addEdge]
  split
  · refine { ordered with ascending := ?_, explored := ?_ }
    · refine List.pairwise_append.mpr ⟨ordered.ascending, List.pairwise_singleton _ _, ?_⟩
      intro e earlier e' added
      obtain rfl := List.mem_singleton.mp added
      exact Nat.le_of_lt_succ (ordered.explored e earlier)
    · intro e member
      rcases List.mem_append.mp member with earlier | added
      · exact ordered.explored e earlier
      · obtain rfl := List.mem_singleton.mp added
        exact Nat.lt_succ_self s
  · split
    · exact ordered
    · exact { ordered with }

theorem InOrder.follow (ordered : w.InOrder (s + 1)) (advances : List (Symbol × Item))
    (x : Symbol) : (w.follow p s advances x).InOrder (s + 1) := by
  simp only [Worklist.follow]
  split
  · exact ordered
  · split
    · exact ordered.addEdge _ _
    · exact (ordered.addState _).addEdge _ _

theorem InOrder.foldl_follow (ordered : w.InOrder (s + 1)) (advances : List (Symbol × Item)) :
    (symbols.foldl (fun w x => w.follow p s advances x) w).InOrder (s + 1) := by
  induction symbols generalizing w with
  | nil => exact ordered
  | cons x symbols ih => exact ih (ordered.follow advances x)

/-- A turn takes the next number. -/
theorem InOrder.turn (ordered : w.InOrder n) (turned : w.turn? p symbols = some (s, w')) :
    s = n ∧ w'.InOrder (n + 1) := by
  rw [turn?] at turned
  split at turned
  · cases turned
  next current rest queue =>
    obtain ⟨items, _, taken⟩ := Option.map_eq_some_iff.mp turned
    obtain ⟨rfl, rfl⟩ := Prod.mk.inj taken
    rw [ordered.queue] at queue
    -- The queue is a range, so what is taken from its front is the number where it begins.
    have waits : 0 < w.states.length - n := by
      have length := congrArg List.length queue
      rw [List.length_range', List.length_cons] at length
      exact length ▸ Nat.succ_pos _
    rw [← Nat.sub_add_cancel waits, List.range'_succ] at queue
    obtain ⟨rfl, rfl⟩ := List.cons.inj queue
    have popped : ({ w with
        pending := List.range' (n + 1) (w.states.length - n - 1) } : Worklist).InOrder (n + 1) :=
      { queue := by rw [Nat.sub_sub]
        le := Nat.lt_of_sub_pos waits
        ascending := ordered.ascending
        explored := fun e member => Nat.lt_succ_of_lt (ordered.explored e member) }
    exact ⟨rfl, popped.foldl_follow _⟩

/-- The numbers are taken in ascending order, however many turns there are. -/
theorem Runs.inOrder (runs : Runs p symbols w popped last) (ordered : w.InOrder n) :
    popped = List.range' n popped.length ∧ last.InOrder (n + popped.length) := by
  induction runs generalizing n with
  | stay => exact ⟨rfl, ordered⟩
  | turn turned _ ih =>
    obtain ⟨rfl, later⟩ := ordered.turn turned
    obtain ⟨numbers, at_end⟩ := ih later
    rw [List.length_cons, List.range'_succ, ← numbers]
    exact ⟨rfl, by rwa [Nat.add_right_comm] at at_end⟩

theorem start_inOrder : (start p).InOrder 0 where
  queue := rfl
  le := Nat.zero_le _
  ascending := List.Pairwise.nil
  explored := by simp [start, Worklist.addState]

end Worklist

/-! ### Sharing the edges out -/

/-- The edges of a list that leave a state. -/
def edgesFrom (edges : List Edge) (s : StateId) : List Edge := edges.filter (·.source = s)

/-- The edges of a list that leave later states. -/
def edgesBehind (edges : List Edge) (s : StateId) : List Edge := edges.filter (s < ·.source)

section Sharing

variable {g : Grammar} {edges : List Edge} {k s : StateId}

/-- What leaves a state behind another one is what it has behind that one. -/
theorem edgesFrom_edgesBehind (behind : k < s) :
    edgesFrom (edgesBehind edges k) s = edgesFrom edges s := by
  rw [edgesFrom, edgesBehind, List.filter_filter]
  refine List.filter_congr fun e _ => ?_
  by_cases leaves : e.source = s
  · simp [leaves, behind]
  · simp [leaves]

theorem Ascending.edgesBehind (ascending : Ascending edges) : Ascending (edgesBehind edges k) :=
  List.Pairwise.filter _ ascending

theorem le_of_mem_edgesBehind : ∀ e ∈ edgesBehind edges k, k + 1 ≤ e.source := by
  intro e member
  simpa using (List.mem_filter.mp member).2

/-- From ascending edges a section takes all those of its state. -/
theorem span_source (ascending : Ascending edges)
    (left : ∀ e ∈ edges, k ≤ e.source) :
    edges.span (·.source == k) = (edgesFrom edges k, edgesBehind edges k) := by
  rw [List.span_eq_takeWhile_dropWhile, edgesFrom, edgesBehind]
  induction edges with
  | nil => rfl
  | cons e rest ih =>
    rw [Ascending, List.pairwise_cons] at ascending
    by_cases leaves : e.source = k
    · have later := ih ascending.2 fun e' member => left e' (List.mem_cons_of_mem _ member)
      simp only [Prod.mk.injEq] at later
      -- An edge of the state is taken, and the rest of the list is shared out in the same way.
      simp [leaves, later]
    · -- The first edge of another state is behind all edges of this one.
      have first : k < e.source :=
        Nat.lt_of_le_of_ne (left e List.mem_cons_self) (Ne.symm leaves)
      have behind : ∀ e' ∈ rest, k < e'.source := fun e' member =>
        Nat.lt_of_lt_of_le first (ascending.1 e' member)
      have none_left : rest.filter (fun e' => e'.source = k) = [] := by
        refine List.filter_eq_nil_iff.mpr fun e' member same => ?_
        exact Nat.ne_of_gt (behind e' member) (of_decide_eq_true same)
      have all_kept : rest.filter (fun e' => k < e'.source) = rest :=
        List.filter_eq_self.mpr fun e' member => decide_eq_true (behind e' member)
      simp [leaves, first, none_left, all_kept]

theorem edgesFrom_append_edgesBehind (ascending : Ascending edges)
    (left : ∀ e ∈ edges, k ≤ e.source) : edgesFrom edges k ++ edgesBehind edges k = edges := by
  have shared := span_source ascending left
  rw [List.span_eq_takeWhile_dropWhile] at shared
  obtain ⟨first, others⟩ := Prod.mk.inj shared
  rw [← first, ← others, List.takeWhile_append_dropWhile]

theorem stateSections_eq (ascending : Ascending edges)
    (left : ∀ e ∈ edges, k ≤ e.source) (states : List ItemSet) :
    stateSections g edges (states.zipIdx k) =
      (states.zipIdx k).map fun state =>
        stateLines g state.2 state.1 (edgesFrom edges state.2) := by
  induction states generalizing edges k with
  | nil => rfl
  | cons items states ih =>
    rw [List.zipIdx_cons, stateSections, span_source ascending left, List.map_cons]
    refine congrArg (stateLines g k items _ :: ·) ?_
    -- The sections behind have fewer edges left to them, but all that leave their states.
    rw [ih ascending.edgesBehind le_of_mem_edgesBehind]
    refine List.map_congr_left fun state member => ?_
    rw [edgesFrom_edgesBehind (List.le_snd_of_mem_zipIdx member)]

/-- Edges that are shared out among all states are the same list again. -/
theorem flatMap_edgesFrom (ascending : Ascending edges)
    (left : ∀ e ∈ edges, k ≤ e.source) {n : Nat} (inside : ∀ e ∈ edges, e.source < k + n) :
    (List.range' k n).flatMap (edgesFrom edges) = edges := by
  induction n generalizing edges k with
  | zero =>
    refine (List.eq_nil_iff_forall_not_mem.mpr fun e member => ?_).symm
    exact absurd (inside e member) (Nat.not_lt.mpr (left e member))
  | succ n ih =>
    have later : ∀ e ∈ edgesBehind edges k, e.source < k + 1 + n := by
      intro e member
      rw [Nat.add_assoc, Nat.add_comm 1]
      exact inside e (List.mem_of_mem_filter member)
    have rest := ih ascending.edgesBehind le_of_mem_edgesBehind later
    have same : (List.range' (k + 1) n).flatMap (edgesFrom (edgesBehind edges k)) =
        (List.range' (k + 1) n).flatMap (edgesFrom edges) := by
      refine congrArg List.flatten (List.map_congr_left fun s member => ?_)
      exact edgesFrom_edgesBehind (List.mem_range'_1.mp member).1
    rw [List.range'_succ, List.flatMap_cons, ← same, rest,
      edgesFrom_append_edgesBehind ascending left]

end Sharing

/-! ### Reading the lines back -/

/-- The lines of a section that stand under the heading of its edges. -/
def edgeLines (section_lines : List String) : List String :=
  (section_lines.dropWhile (· != "## edges")).drop 1

/-- A line of its own: it is not empty, and it does not break. -/
def IsLine (line : String) : Prop := FreeOf '\n' line ∧ line ≠ ""

section Lines

variable {g : Grammar}

theorem freeOf_stateText (s : StateId) : FreeOf '\n' s.text := freeOf_padded (by decide) 2 s

theorem freeOf_itemText (spelled : g.Spelled) (i : Item) : FreeOf '\n' (i.text g) := by
  have names : ∀ name ∈ (i.right g).map g.symbolName, FreeOf '\n' name := by
    intro name member
    obtain ⟨x, _, rfl⟩ := List.mem_map.mp member
    exact spelled.freeOf_symbolName (.inr rfl) x
  simp only [Item.text, freeOf_append]
  refine ⟨⟨⟨⟨by decide, freeOf_intercalate (by decide) ?_⟩, by decide⟩, ?_⟩, by decide⟩
  · intro word member
    rcases List.mem_cons.mp member with rfl | member
    · exact spelled.freeOf_nonterminalName (.inr rfl) _
    rcases List.mem_cons.mp member with rfl | member
    · decide
    split at member
    · rcases List.mem_append.mp member with before | member
      · exact names word (List.mem_of_mem_take before)
      rcases List.mem_cons.mp member with rfl | after
      · decide
      · exact names word (List.mem_of_mem_drop after)
    · exact names word member
  · exact spelled.freeOf_terminalName (.inr rfl) _

theorem isLine_itemLine (spelled : g.Spelled) (i : Item) : IsLine (i.line g) := by
  rw [Item.line]
  split
  · exact ⟨freeOf_append.mpr ⟨by decide, freeOf_itemText spelled i⟩, by simp⟩
  · exact ⟨freeOf_append.mpr ⟨by decide, freeOf_itemText spelled i⟩, by simp⟩

theorem itemLine_ne (i : Item) : i.line g ≠ "## edges" := by
  rw [Item.line]
  split <;> simp [← String.toList_inj]

theorem isLine_edgeLine (spelled : g.Spelled) (e : Edge) : IsLine (e.line g) := by
  have signs : FreeOf '\n' "- " ∧ FreeOf '\n' " => " := by decide
  have name := spelled.freeOf_symbolName (.inr rfl) e.symbol
  have target := freeOf_stateText e.target
  exact ⟨by simpa [Edge.line, toString, name, target] using signs, by simp [Edge.line, toString]⟩

theorem isLine_of_mem_stateLines (spelled : g.Spelled) {s : StateId} {items : ItemSet}
    {leaving : List Edge} : ∀ line ∈ stateLines g s items leaving, IsLine line := by
  intro line member
  simp only [stateLines, List.append_assoc, List.mem_append, List.mem_map] at member
  rcases member with heading | ⟨i, _, rfl⟩ | heading | ⟨e, _, rfl⟩
  · rcases List.mem_cons.mp heading with rfl | heading
    · have sign : FreeOf '\n' "#### State " := by decide
      exact ⟨by simpa [toString, freeOf_stateText] using sign, by simp [toString]⟩
    · obtain rfl := List.mem_singleton.mp heading
      exact ⟨by decide, by decide⟩
  · exact isLine_itemLine spelled i
  · obtain rfl := List.mem_singleton.mp heading
    exact ⟨by decide, by decide⟩
  · exact isLine_edgeLine spelled e

theorem edgeLines_stateLines (s : StateId) (items : ItemSet) (leaving : List Edge) :
    edgeLines (stateLines g s items leaving) = leaving.map (Edge.line g) := by
  -- No line before the heading reads like it, since items begin with their mark.
  have passed : ∀ line ∈ [s!"#### State {s.text}", "## items"] ++ items.toList.map (Item.line g),
      (line != "## edges") = true := by
    intro line member
    rw [bne_iff_ne]
    rcases List.mem_append.mp member with heading | listed
    · rcases List.mem_cons.mp heading with rfl | heading
      · simp [toString, ← String.toList_inj]
      · obtain rfl := List.mem_singleton.mp heading
        decide
    · obtain ⟨i, _, rfl⟩ := List.mem_map.mp listed
      exact itemLine_ne i
  rw [edgeLines, stateLines, List.append_assoc _ ["## edges"], List.dropWhile_append_of_pos passed]
  simp

end Lines

/-- The text has a section for each state in the order of their numbers, whose edges are those that
leave the state in their order, and no edge is in no section or in two. -/
structure Automaton.ListedIn (g : Grammar) (a : Automaton) (text : String) : Prop where
  sections : textSections text = a.states.zipIdx.map fun state =>
    stateLines g state.2 state.1.items (edgesFrom a.edges state.2)
  edge_lines : (textSections text).map edgeLines =
    (List.range a.size).map fun s => (edgesFrom a.edges s).map (Edge.line g)
  shared : (List.range a.size).flatMap (edgesFrom a.edges) = a.edges

theorem Automaton.listedIn {g : Grammar} {a : Automaton} (spelled : g.Spelled)
    (ascending : Ascending a.edges) (some_state : a.states ≠ []) : a.ListedIn g (a.text g) := by
  have from_first : ∀ e ∈ a.edges, 0 ≤ e.source := fun _ _ => Nat.zero_le _
  have sections : textSections (a.text g) = a.states.zipIdx.map fun state =>
      stateLines g state.2 state.1.items (edgesFrom a.edges state.2) := by
    rw [text, listing, stateSections_eq ascending from_first, List.zipIdx_map, List.map_map]
    refine textSections_sectionsText ?_ (by simpa using some_state)
    intro group listed line member
    obtain ⟨state, _, rfl⟩ := List.mem_map.mp listed
    exact isLine_of_mem_stateLines spelled line member
  refine { sections := sections, edge_lines := ?_, shared := ?_ }
  · rw [sections, List.map_map, size, List.range_eq_range', ← List.zipIdx_map_snd 0 a.states,
      List.map_map]
    exact List.map_congr_left fun state _ => edgeLines_stateLines _ _ _
  · rw [List.range_eq_range']
    refine flatMap_edgesFrom ascending from_first fun e member => ?_
    rw [Nat.zero_add]
    exact Worklist.source_lt_of_mem_edges member

namespace Grammar

variable {g : Grammar}

end Grammar

end CanonicalLR
