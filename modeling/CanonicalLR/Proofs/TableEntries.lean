import CanonicalLR.Proofs.ConflictAccounting

/-!
# The entries of tables

Tables and automata list their entries row by row and look them up by state and key. A row has no
key twice, so an entry is listed exactly if looking its key up finds it, and it is listed once.
-/
namespace CanonicalLR

section Entries

variable {ρ κ υ : Type} {rows : List ρ} {entries : ρ → List (κ × υ)}

/-- The states and keys of entries that are listed row by row. -/
def entryKeys (rows : List ρ) (entries : ρ → List (κ × υ)) : List (StateId × κ) :=
  rows.zipIdx.flatMap fun (row, s) => (entries row).map fun (k, _) => (s, k)

/-- If the keys of each row are in order, entries are listed in the order of their states and then
of their keys. -/
theorem pairwise_entryKeys {before : κ → κ → Prop}
    (ordered : ∀ row ∈ rows, ((entries row).map (·.1)).Pairwise before) :
    (entryKeys rows entries).Pairwise fun c c' => c.1 < c'.1 ∨ c.1 = c'.1 ∧ before c.2 c'.2 := by
  rw [entryKeys, List.pairwise_flatMap]
  constructor
  · rintro ⟨row, s⟩ member
    have in_rows := List.mem_of_getElem? (List.mem_zipIdx_iff_getElem?.mp member)
    refine List.pairwise_map.mpr ((List.pairwise_map.mp (ordered row in_rows)).imp ?_)
    intro e e' earlier
    exact .inr ⟨rfl, earlier⟩
  · have numbers : rows.zipIdx.Pairwise fun x y => x.2 < y.2 := by
      rw [← List.pairwise_map, List.zipIdx_map_snd]
      exact List.pairwise_lt_range'
    refine numbers.imp ?_
    rintro ⟨row, s⟩ ⟨row', s'⟩ smaller c member c' member'
    obtain ⟨_, _, rfl⟩ := List.mem_map.mp member
    obtain ⟨_, _, rfl⟩ := List.mem_map.mp member'
    exact .inl smaller

theorem nodup_entryKeys (distinct : ∀ row ∈ rows, ((entries row).map (·.1)).Nodup) :
    (entryKeys rows entries).Nodup := by
  refine (pairwise_entryKeys distinct).imp ?_
  rintro c c' earlier rfl
  rcases earlier with smaller | ⟨_, different⟩
  · exact absurd rfl (Nat.ne_of_lt smaller)
  · exact different rfl

/-- An entry is listed exactly if looking its key up in its row finds one. -/
theorem mem_entryKeys [BEq κ] [LawfulBEq κ] {s : StateId} {k : κ} :
    (s, k) ∈ entryKeys rows entries ↔
      ∃ v, (rows[s]?.bind fun row => (entries row).lookup k) = some v := by
  have found (row : ρ) : (∃ v, (entries row).lookup k = some v) ↔ ∃ v, (k, v) ∈ entries row := by
    constructor
    · rintro ⟨v, looked_up⟩
      obtain ⟨before, after, whole, _⟩ := List.lookup_eq_some_iff.mp looked_up
      exact ⟨v, by simp [whole]⟩
    · rintro ⟨v, member⟩
      refine Option.ne_none_iff_exists'.mp fun none => ?_
      exact absurd (List.lookup_eq_none_iff.mp none _ member) (by simp)
  simp only [entryKeys, List.mem_flatMap, List.mem_map, Prod.exists, Prod.mk.injEq,
    List.mem_zipIdx_iff_getElem?, Option.bind_eq_some_iff]
  constructor
  · rintro ⟨row, _, listed, _, v, member, rfl, rfl⟩
    obtain ⟨v, looked_up⟩ := (found row).mpr ⟨v, member⟩
    exact ⟨v, row, listed, looked_up⟩
  · rintro ⟨v, row, listed, looked_up⟩
    obtain ⟨v, member⟩ := (found row).mp ⟨v, looked_up⟩
    exact ⟨row, s, listed, k, v, member, rfl, rfl⟩

/-- In rows without repeated keys an entry is found by looking up its key. -/
theorem mem_row_iff [BEq κ] [LawfulBEq κ] (distinct : ∀ row ∈ rows, ((entries row).map (·.1)).Nodup)
    {s : StateId} {k : κ} {v : υ} :
    (∃ row, rows[s]? = some row ∧ (k, v) ∈ entries row) ↔
      (rows[s]?.bind fun row => (entries row).lookup k) = some v := by
  rw [Option.bind_eq_some_iff]
  refine exists_congr fun row => and_congr_right fun found => ?_
  have once := List.inj_on_of_nodup_map (distinct row (List.mem_of_getElem? found))
  refine (lookup_eq_some_iff_mem fun a b b' member member' => ?_).symm
  exact (Prod.mk.inj (once member member' rfl)).2

/-- What is listed of the entries, each with its state and key, is found by looking the key up. -/
theorem mem_entries [BEq κ] [LawfulBEq κ]
    (distinct : ∀ row ∈ rows, ((entries row).map (·.1)).Nodup) {ε : Type}
    (list : StateId → κ → υ → ε)
    (told : ∀ s k v s' k' v', list s k v = list s' k' v' → s = s' ∧ k = k' ∧ v = v')
    {s : StateId} {k : κ} {v : υ} :
    list s k v ∈ rows.zipIdx.flatMap (fun (row, s) => (entries row).map fun (k, v) => list s k v) ↔
      (rows[s]?.bind fun row => (entries row).lookup k) = some v := by
  rw [← mem_row_iff distinct]
  simp only [List.mem_flatMap, List.mem_map, Prod.exists, List.mem_zipIdx_iff_getElem?]
  constructor
  · rintro ⟨row, s', found, k', v', member, same⟩
    obtain ⟨rfl, rfl, rfl⟩ := told _ _ _ _ _ _ same
    exact ⟨row, found, member⟩
  · rintro ⟨row, found, member⟩
    exact ⟨row, s, found, k, v, member, rfl⟩

/-- Entries lie in the rows. -/
theorem inside_of_mem_entryKeys {c : StateId × κ} (member : c ∈ entryKeys rows entries) :
    c.1 < rows.length := by
  simp only [entryKeys, List.mem_flatMap, List.mem_map, Prod.exists,
    List.mem_zipIdx_iff_getElem?] at member
  obtain ⟨row, s, listed, _, _, _, rfl⟩ := member
  exact (List.getElem?_eq_some_iff.mp listed).1

end Entries

theorem length_edges (a : Automaton) :
    a.edges.length = (entryKeys a.states State.moves).length := by
  simp [Automaton.edges, entryKeys]

/-- The states and terminals of the actions. -/
theorem keys_actionEntries (table : Table) :
    table.actionEntries.map (fun e => (e.state, e.terminal)) =
      entryKeys table.rows Row.actions := by
  simp [Table.actionEntries, entryKeys, List.map_flatMap, Function.comp_def]

/-- The states and nonterminals of the gotos. -/
theorem keys_gotoEntries (table : Table) :
    table.gotoEntries.map (fun e => (e.state, e.nonterminal)) =
      entryKeys table.rows Row.gotos := by
  simp [Table.gotoEntries, entryKeys, List.map_flatMap, Function.comp_def]

theorem length_actionEntries (table : Table) :
    table.actionEntries.length = (entryKeys table.rows Row.actions).length := by
  rw [← keys_actionEntries, List.length_map]

theorem length_gotoEntries (table : Table) :
    table.gotoEntries.length = (entryKeys table.rows Row.gotos).length := by
  rw [← keys_gotoEntries, List.length_map]

/-- Listing the actions and looking them up agree. -/
theorem mem_actionEntries {table : Table}
    (distinct : ∀ row ∈ table.rows, (row.actions.map (·.1)).Nodup) {s : StateId} {t : TerminalId}
    {act : Action} : ⟨s, t, act⟩ ∈ table.actionEntries ↔ table.action s t = some act :=
  mem_entries distinct ActionEntry.mk fun _ _ _ _ _ _ same => by simpa using same

/-- Listing the gotos and looking them up agree. -/
theorem mem_gotoEntries {table : Table}
    (distinct : ∀ row ∈ table.rows, (row.gotos.map (·.1)).Nodup) {s : StateId} {n : NonterminalId}
    {target : StateId} : ⟨s, n, target⟩ ∈ table.gotoEntries ↔ table.goto s n = some target :=
  mem_entries distinct GotoEntry.mk fun _ _ _ _ _ _ same => by simpa using same

theorem nodup_actionEntries {table : Table}
    (distinct : ∀ row ∈ table.rows, (row.actions.map (·.1)).Nodup) : table.actionEntries.Nodup :=
  List.Nodup.of_map _ (keys_actionEntries table ▸ nodup_entryKeys distinct)

namespace Grammar.WellFormed

variable {g : Grammar} {built : Construction}

/-- A state moves on a symbol once. -/
theorem nodup_moves (wf : g.WellFormed) : ∀ state ∈ (Automaton.ofGrammar g).states,
    (state.moves.map (·.1)).Nodup := by
  intro state member
  rw [wf.states_eq] at member
  obtain ⟨kernel, _, rfl⟩ := List.mem_map.mp member
  have distinct : (g.departing kernel).Nodup := nodup_rightSymbols.filter _
  simpa [stateOf, Function.comp_def] using distinct

/-- Every row is made of a state and what is settled for it. -/
theorem exists_state_of_row (constructed : g.construct = .ok built) {row : Row}
    (member : row ∈ built.table.rows) :
    ∃ (s : StateId) (state : State) (rs : List (TerminalId × Resolution)),
      (Automaton.ofGrammar g).states[s]? = some state ∧ state.resolutions g s = .ok rs ∧
        state.row rs = row := by
  obtain ⟨rows, mem_rows, rows_eq, _⟩ := Table.exists_rows (generate_of_construct constructed)
  rw [rows_eq] at member
  obtain ⟨⟨state, rs⟩, in_rows, same⟩ := List.mem_map.mp member
  obtain ⟨s, listed⟩ := List.getElem?_of_mem in_rows
  obtain ⟨found, resolved⟩ := (mem_rows s state rs).mp listed
  exact ⟨s, state, rs, found, resolved, same⟩

theorem ascending_rows (constructed : g.construct = .ok built) :
    ∀ row ∈ built.table.rows, (row.actions.map (·.1)).Pairwise (· < ·) := by
  intro row member
  obtain ⟨s, state, rs, _, resolved, rfl⟩ := exists_state_of_row constructed member
  simpa [State.row, Function.comp_def] using State.keys_ascending resolved

/-- A row has one action on a terminal and one goto on a nonterminal. -/
theorem nodup_rows (wf : g.WellFormed) (constructed : g.construct = .ok built) :
    ∀ row ∈ built.table.rows, (row.actions.map (·.1)).Nodup ∧ (row.gotos.map (·.1)).Nodup := by
  intro row member
  refine ⟨(ascending_rows constructed row member).imp Nat.ne_of_lt, ?_⟩
  obtain ⟨s, state, rs, found, _, rfl⟩ := exists_state_of_row constructed member
  have nonterminals : state.gotos.map (·.1) =
      (state.moves.map (·.1)).filterMap Symbol.nonterminal? := by
    rw [State.gotos, List.map_filterMap, List.filterMap_map]
    exact List.filterMap_congr fun move _ => by simp [Function.comp_def]
  have distinct := wf.nodup_moves state (List.mem_of_getElem? found)
  have gotos_distinct : (state.gotos.map (·.1)).Nodup := by
    rw [nonterminals]
    refine distinct.filterMap fun x y n here there => ?_
    rw [Option.mem_def, Symbol.nonterminal?_eq_some_iff] at here there
    rw [here, there]
  exact gotos_distinct

end Grammar.WellFormed

end CanonicalLR
