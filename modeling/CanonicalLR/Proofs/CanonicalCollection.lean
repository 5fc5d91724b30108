import CanonicalLR.Examples.Small
import CanonicalLR.Item.Validity
import CanonicalLR.Proofs.Exploration
import CanonicalLR.Proofs.LongRules
import CanonicalLR.Table.Contest

/-!
# The canonical collection

Reading a string leads from kernel to kernel, and the closure of the last one has exactly the items
that are valid for the string. Since exploration leaves no kernel over, the automaton can read the
string whenever there are such items, and they are the items of the state it comes to.
-/
namespace CanonicalLR

namespace Grammar

variable {g : Grammar}

/-- The kernel that reading a string leads to, without items if the string cannot be read. -/
def kernelAfter (g : Grammar) (w : List Symbol) : ItemSet :=
  w.foldl g.successor .startKernel

@[simp] theorem kernelAfter_nil : g.kernelAfter [] = .startKernel := rfl

@[simp] theorem kernelAfter_concat (w : List Symbol) (x : Symbol) :
    g.kernelAfter (w ++ [x]) = g.successor (g.kernelAfter w) x := by
  simp [kernelAfter]

/-- What closes the items valid for a string is valid for it. -/
theorem valid_of_inClosure {w : List Symbol} {kernel : ItemSet} {i : Item}
    (kernel_valid : ∀ j ∈ kernel, Valid g w j) (closed : InClosure g kernel i) : Valid g w i := by
  induction closed with
  | given member => exact kernel_valid _ member
  | predict _ known next begins ih => exact .predict ih known next begins

theorem WellFormed.valid_of_mem_kernelAfter (wf : g.WellFormed) {w : List Symbol} :
    ∀ i ∈ g.kernelAfter w, Valid g w i := by
  -- By the last symbol: its successor kernel has the items that advance over it.
  induction w using List.reverseRecOn with
  | nil =>
    intro i member
    obtain rfl := mem_startKernel.mp member
    exact .start
  | append_singleton w x ih =>
    intro i member
    rw [kernelAfter_concat] at member
    obtain ⟨j, closed, next, rfl⟩ := mem_successor.mp member
    have valid : Valid g w j := valid_of_inClosure ih (wf.mem_closure_iff.mp closed)
    exact .advance valid next

/-- The items that can be reached by reading a string are the valid ones. -/
theorem WellFormed.mem_closure_kernelAfter_iff (wf : g.WellFormed) {w : List Symbol} {i : Item} :
    i ∈ g.closure (g.kernelAfter w) ↔ Valid g w i := by
  constructor
  · intro closed
    exact valid_of_inClosure wf.valid_of_mem_kernelAfter (wf.mem_closure_iff.mp closed)
  · -- Closures have what is predicted, and successors what is advanced.
    intro valid
    induction valid with
    | start => exact wf.mem_closure_iff.mpr (.given (mem_startKernel.mpr rfl))
    | predict _ known next begins ih =>
      exact wf.mem_closure_iff.mpr (.predict (wf.mem_closure_iff.mp ih) known next begins)
    | advance _ next ih =>
      rw [kernelAfter_concat]
      exact wf.mem_closure_iff.mpr (.given (mem_successor.mpr ⟨_, ih, next, rfl⟩))

/-- The kernel after a symbol has what is advanced over it. -/
theorem WellFormed.mem_kernelAfter_concat_iff (wf : g.WellFormed) {w : List Symbol} {x : Symbol}
    {i : Item} : i ∈ g.kernelAfter (w ++ [x]) ↔
      ∃ j, Valid g w j ∧ j.next? g = some x ∧ j.advance = i := by
  simp only [kernelAfter_concat, mem_successor, wf.mem_closure_kernelAfter_iff]

theorem WellFormed.mem_departing_kernelAfter_iff (wf : g.WellFormed) {w : List Symbol}
    {x : Symbol} :
    x ∈ g.departing (g.kernelAfter w) ↔ ∃ i, Valid g w i ∧ i.next? g = some x := by
  simp only [mem_departing, wf.mem_closure_kernelAfter_iff]

/-! ### Walks -/

/-- A walk ends in the state of the kernel that its string leads to. -/
theorem WellFormed.kernel_of_walk (wf : g.WellFormed) {w : List Symbol} {s : StateId}
    (walked : (Automaton.ofGrammar g).walk? .initial w = some s) :
    g.kernels[s]? = some (g.kernelAfter w) ∧ ∃ i, Valid g w i := by
  -- A move is made only on a symbol that some item of the state has next.
  induction w using List.reverseRecOn generalizing s with
  | nil =>
    obtain rfl : StateId.initial = s := by simpa [Automaton.walk?] using walked
    exact ⟨wf.initial_kernel, _, .start⟩
  | append_singleton w x ih =>
    rw [Automaton.walk?_concat, Option.bind_eq_some_iff] at walked
    obtain ⟨t, front, moved⟩ := walked
    obtain ⟨kernel, found, departs, target⟩ := wf.goto_eq_some_iff.mp moved
    obtain rfl : g.kernelAfter w = kernel := Option.some.inj ((ih front).1.symm.trans found)
    obtain ⟨i, valid, next⟩ := wf.mem_departing_kernelAfter_iff.mp departs
    exact ⟨by rw [kernelAfter_concat]; exact target, _, .advance valid next⟩

/-- A string with valid items can be read. -/
theorem WellFormed.exists_walk_of_valid (wf : g.WellFormed) {w : List Symbol} {i : Item}
    (valid : Valid g w i) : ∃ s, (Automaton.ofGrammar g).walk? .initial w = some s := by
  induction w using List.reverseRecOn generalizing i with
  | nil => exact ⟨_, rfl⟩
  | append_singleton w x ih =>
    -- The string without its last symbol has an item that can read it.
    obtain ⟨j, earlier, next⟩ := valid.exists_next
    obtain ⟨s, walked⟩ := ih earlier
    have found := (wf.kernel_of_walk walked).1
    have departs := wf.mem_departing_kernelAfter_iff.mpr ⟨j, earlier, next⟩
    have numbered := wf.getElem?_idxOf_successor (List.mem_of_getElem? found) departs
    have moved := wf.goto_eq_some_iff.mpr ⟨_, found, departs, numbered⟩
    exact ⟨_, by rw [Automaton.walk?_concat, walked, Option.bind_some, moved]⟩

theorem WellFormed.exists_walk_iff (wf : g.WellFormed) {w : List Symbol} :
    (∃ s, (Automaton.ofGrammar g).walk? .initial w = some s) ↔ ∃ i, Valid g w i :=
  ⟨fun ⟨_, walked⟩ => (wf.kernel_of_walk walked).2, fun ⟨_, valid⟩ => wf.exists_walk_of_valid valid⟩

/-- The state that a walk ends in has the items that are valid for the string. -/
theorem WellFormed.state_of_walk (wf : g.WellFormed) {w : List Symbol} {s : StateId}
    (walked : (Automaton.ofGrammar g).walk? .initial w = some s) :
    ∃ state, (Automaton.ofGrammar g).states[s]? = some state ∧
      ∀ i, i ∈ state.items ↔ Valid g w i :=
  ⟨_, wf.getElem?_states_iff.mpr ⟨_, (wf.kernel_of_walk walked).1, rfl⟩,
    fun _ => wf.mem_closure_kernelAfter_iff⟩

/-- Every kernel is had by reading some string. -/
theorem exists_kernelAfter {kernel : ItemSet} (reached : Reached g kernel) :
    ∃ w, g.kernelAfter w = kernel := by
  induction reached with
  | start => exact ⟨[], rfl⟩
  | @follow kernel x _ _ ih =>
    obtain ⟨w, rfl⟩ := ih
    exact ⟨w ++ [x], kernelAfter_concat w x⟩

/-- The items of every state are those that are valid for some string. -/
theorem WellFormed.exists_valid_of_state (wf : g.WellFormed) {state : State}
    (member : state ∈ (Automaton.ofGrammar g).states) :
    ∃ w, ∀ i, i ∈ state.items ↔ Valid g w i := by
  obtain ⟨s, found⟩ := List.getElem?_of_mem member
  obtain ⟨kernel, at_s, rfl⟩ := wf.getElem?_states_iff.mp found
  obtain ⟨w, rfl⟩ := exists_kernelAfter (reached_of_mem_kernels (List.mem_of_getElem? at_s))
  exact ⟨w, fun _ => wf.mem_closure_kernelAfter_iff⟩

/-- If beside a complete item only nonterminals are next, nothing competes with it. -/
theorem WellFormed.conflictFree_of_alone (wf : g.WellFormed) (alone : g.CompletesAlone) :
    (Automaton.ofGrammar g).ConflictFree g := by
  intro state member t competing
  obtain ⟨w, items⟩ := wf.exists_valid_of_state member
  rcases competing with ⟨rule, ⟨j, shifts, next⟩, i, completes, complete, _⟩ |
    ⟨rule, other, apart, ⟨i, completes, complete, _, rfl⟩, j, completes', complete', _, rfl⟩
  · rcases alone w i j ((items i).mp completes) ((items j).mp shifts) complete with
      rfl | ⟨n, predicts⟩
    · rw [next] at complete
      cases complete
    · rw [next] at predicts
      cases predicts
  · rcases alone w i j ((items i).mp completes) ((items j).mp completes') complete with
      rfl | ⟨n, predicts⟩
    · exact apart rfl
    · rw [predicts] at complete'
      cases complete'

end Grammar

/-- Behind as many of one terminal as there are markers, the rule is at its front again. -/
theorem Examples.Repeats.exists_state {g : Grammar} {j : Nat}
    (repeats : Repeats g markerNumbers) (either : j < 2) :
    ∃ (s : StateId) (state : State),
      (Automaton.ofGrammar g).walk? .initial (List.replicate markerNumbers (.terminal (j + 3))) =
        some s ∧
      (Automaton.ofGrammar g).states[s]? = some state ∧
      ∀ i, i ∈ state.items ↔ i = ⟨j + 1, 0, .eoi⟩ := by
  have valid_iff (i : Item) := repeats.valid_replicate_iff (i := i) (Nat.le_refl _) either
    markerNumbers_pos
  simp only [Nat.mod_self] at valid_iff
  obtain ⟨s, walked⟩ := repeats.exists_walk_of_valid ((valid_iff _).mpr rfl)
  obtain ⟨state, found, items⟩ := repeats.state_of_walk walked
  exact ⟨s, state, walked, found, fun i => (items i).trans (valid_iff i)⟩

namespace Grammar

variable {g : Grammar}

end Grammar

end CanonicalLR
