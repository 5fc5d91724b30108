import CanonicalLR.Proofs.StateNumbering
import CanonicalLR.Proofs.TableEntries

/-!
# Listings, lookups and moves agree

A table can be listed or looked up, and both ways show the same. Rows are made in ascending order of
their terminals, so no cell is listed twice and the listing is in order. Gotos are the moves of the
automaton on nonterminals. On the terminals the automaton moves exactly where an item of the state
has the terminal next; then the cell is never empty, and a shift in it leads to where the automaton
moves, though a reduction may have won against it.
-/
namespace CanonicalLR

/-- Actions are listed by states, and those of a state by terminals. -/
def ActionEntry.Before (e e' : ActionEntry) : Prop :=
  e.state < e'.state ∨ e.state = e'.state ∧ e.terminal < e'.terminal

/-- What a table lists is what is found in it, and it fits the moves and the items of an automaton.
-/
structure Table.Agrees (g : Grammar) (a : Automaton) (table : Table) : Prop where
  actions_in_order : table.actionEntries.Pairwise ActionEntry.Before
  actions_once : (table.actionEntries.map fun e => (e.state, e.terminal)).Nodup
  actions_listed : ∀ s t act, ⟨s, t, act⟩ ∈ table.actionEntries ↔ table.action s t = some act
  gotos_once : (table.gotoEntries.map fun e => (e.state, e.nonterminal)).Nodup
  gotos_listed : ∀ s n target, ⟨s, n, target⟩ ∈ table.gotoEntries ↔ table.goto s n = some target
  gotos_move : ∀ s n target, table.goto s n = some target ↔
    a.goto s (.nonterminal n) = some target
  moves_read : ∀ s t, (∃ target, a.goto s (.terminal t) = some target) ↔ a.Reads g s (.terminal t)
  shifts_move : ∀ s t target, a.goto s (.terminal t) = some target →
    ∃ act, table.action s t = some act ∧ ∀ shifted, act = .shift shifted → shifted = target

namespace Grammar

variable {g : Grammar} {built : Construction} {s target : StateId} {x : Symbol} {t : TerminalId}

/-- A state moves on the symbols that its items have next. -/
theorem WellFormed.exists_goto_iff_reads (wf : g.WellFormed) :
    (∃ target, (Automaton.ofGrammar g).goto s x = some target) ↔
      (Automaton.ofGrammar g).Reads g s x := by
  rw [wf.reads_iff]
  constructor
  · rintro ⟨target, moved⟩
    obtain ⟨kernel, found, departs, _⟩ := wf.goto_eq_some_iff.mp moved
    exact ⟨kernel, found, departs⟩
  · rintro ⟨kernel, found, departs⟩
    have numbered := wf.getElem?_idxOf_successor (List.mem_of_getElem? found) departs
    exact ⟨_, wf.goto_eq_some_iff.mpr ⟨kernel, found, departs, numbered⟩⟩

/-- Where the automaton moves on a terminal the table has an action, and a shift leads to the same
state. -/
theorem WellFormed.exists_action_of_goto (wf : g.WellFormed) (constructed : g.construct = .ok built)
    (moved : (Automaton.ofGrammar g).goto s (.terminal t) = some target) :
    ∃ act, built.table.action s t = some act ∧
      ∀ shifted, act = .shift shifted → shifted = target := by
  obtain ⟨state, found, shifts⟩ := wf.exists_goto_iff_reads.mp ⟨target, moved⟩
  obtain ⟨act, action⟩ := (wf.exists_action_iff constructed found).mpr (.inl shifts)
  refine ⟨act, action, ?_⟩
  rintro shifted rfl
  exact Option.some.inj ((wf.goto_of_shift constructed action).symm.trans moved)

theorem actions_in_order (constructed : g.construct = .ok built) :
    built.table.actionEntries.Pairwise ActionEntry.Before := by
  have keys := pairwise_entryKeys (WellFormed.ascending_rows constructed)
  rw [← keys_actionEntries] at keys
  exact (List.pairwise_map.mp keys).imp fun before => before

theorem WellFormed.table_agrees (wf : g.WellFormed) (constructed : g.construct = .ok built) :
    built.table.Agrees g (.ofGrammar g) := by
  have distinct (row) (member : row ∈ built.table.rows) := wf.nodup_rows constructed row member
  have actions_distinct (row) (member : row ∈ built.table.rows) := (distinct row member).1
  have gotos_distinct (row) (member : row ∈ built.table.rows) := (distinct row member).2
  exact {
    actions_in_order := actions_in_order constructed
    actions_once := keys_actionEntries built.table ▸ nodup_entryKeys actions_distinct
    actions_listed := fun _ _ _ => mem_actionEntries actions_distinct
    gotos_once := keys_gotoEntries built.table ▸ nodup_entryKeys gotos_distinct
    gotos_listed := fun _ _ _ => mem_gotoEntries gotos_distinct
    gotos_move := fun _ _ _ => wf.table_goto_iff constructed
    moves_read := fun _ _ => wf.exists_goto_iff_reads
    shifts_move := fun _ _ _ => wf.exists_action_of_goto constructed }

end Grammar

end CanonicalLR
