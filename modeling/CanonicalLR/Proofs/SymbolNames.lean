import CanonicalLR.Proofs.DeclarationRecords
import CanonicalLR.Text.Reading

/-!
# Names of symbols

A declared name is an identifier, and those of the reserved symbols have a dollar sign in front that
no identifier has. So no name has a space or a line break in it, and names can be read back from
texts that are written with such characters between them.
-/
namespace CanonicalLR

/-- What texts are written with between their words and lines. -/
def IsSeparator (c : Char) : Prop := c = ' ' ∨ c = '\n'

theorem IsSeparator.freeOf_identifier {c : Char} (separates : IsSeparator c) {name : String}
    (identifier : isIdentifier name = true) : FreeOf c name := by
  have refused : Identifier.isStart c = false ∧ Identifier.isContinue c = false := by
    rcases separates with rfl | rfl <;> decide
  intro member
  rw [isIdentifier] at identifier
  split at identifier
  · cases identifier
  next first rest characters =>
    simp only [Bool.and_eq_true, List.all_eq_true] at identifier
    rw [characters] at member
    rcases List.mem_cons.mp member with rfl | later
    · exact absurd (identifier.1.symm.trans refused.1) (by decide)
    · exact absurd ((identifier.2 c later).symm.trans refused.2) (by decide)

namespace Vocabulary

/-- A name that is no identifier belongs to a reserved symbol. -/
structure Spelled (v : Vocabulary) : Prop where
  terminals : ∀ name ∈ v.terminals.map (·.name),
    isIdentifier name = true ∨ name ∈ reserved.terminals.map (·.name)
  nonterminals : ∀ name ∈ v.nonterminals.map (·.name),
    isIdentifier name = true ∨ name ∈ reserved.nonterminals.map (·.name)

/-- No terminal has the name of a nonterminal. Each kind has distinct names in any case. -/
def KindsApart (v : Vocabulary) : Prop :=
  ∀ name ∈ v.terminals.map (·.name), name ∉ v.nonterminals.map (·.name)

instance (v : Vocabulary) : Decidable v.KindsApart :=
  inferInstanceAs (Decidable (∀ name ∈ _, _))

/-- The symbol of a name, where no name is that of two. -/
def symbolNamed? (v : Vocabulary) (name : String) : Option Symbol :=
  match v.terminalNamed? name with
  | some t => some (.terminal t)
  | none => (v.nonterminalNamed? name).map .nonterminal

variable {v : Vocabulary} {c : Char} {x y : Symbol}

/-! ### Separators -/

theorem freeOf_reserved (separates : IsSeparator c) : ∀ name ∈
    reserved.terminals.map (·.name) ++ reserved.nonterminals.map (·.name), FreeOf c name := by
  rcases separates with rfl | rfl <;> decide

/-- Names that are looked up are identifiers or reserved. The empty name of an unknown symbol has no
characters at all. -/
theorem freeOf_lookup (separates : IsSeparator c) {names : List String}
    (spelled : ∀ name ∈ names, isIdentifier name = true ∨
      name ∈ reserved.terminals.map (·.name) ++ reserved.nonterminals.map (·.name)) (i : Nat) :
    FreeOf c (names[i]?.getD "") := by
  cases found : names[i]? with
  | none => simp [FreeOf]
  | some name =>
    rcases spelled name (List.mem_of_getElem? found) with identifier | reserved_name
    · exact separates.freeOf_identifier identifier
    · exact freeOf_reserved separates name reserved_name

theorem Spelled.freeOf_terminalName (spelled : v.Spelled) (separates : IsSeparator c)
    (t : TerminalId) : FreeOf c (v.terminalName t) := by
  rw [terminalName, ← List.getElem?_map]
  exact freeOf_lookup separates
    (fun name member => (spelled.terminals name member).imp_right (List.mem_append_left _)) t

theorem Spelled.freeOf_nonterminalName (spelled : v.Spelled) (separates : IsSeparator c)
    (n : NonterminalId) : FreeOf c (v.nonterminalName n) := by
  rw [nonterminalName, ← List.getElem?_map]
  exact freeOf_lookup separates
    (fun name member => (spelled.nonterminals name member).imp_right (List.mem_append_right _)) n

theorem Spelled.freeOf_symbolName (spelled : v.Spelled) (separates : IsSeparator c) (x : Symbol) :
    FreeOf c (v.symbolName x) := by
  cases x with
  | terminal t => exact spelled.freeOf_terminalName separates t
  | nonterminal n => exact spelled.freeOf_nonterminalName separates n

/-! ### Looking names up -/

theorem terminalName_mem {t : TerminalId} (known : t < v.terminals.length) :
    v.terminalName t ∈ v.terminals.map (·.name) := by
  rw [terminalName, List.getElem?_eq_getElem known]
  exact List.mem_map_of_mem (List.getElem_mem known)

theorem nonterminalName_mem {n : NonterminalId} (known : n < v.nonterminals.length) :
    v.nonterminalName n ∈ v.nonterminals.map (·.name) := by
  rw [nonterminalName, List.getElem?_eq_getElem known]
  exact List.mem_map_of_mem (List.getElem_mem known)

/-- A symbol is found again by its name. -/
theorem NamesInvert.symbolNamed?_symbolName (invert : v.NamesInvert) (apart : v.KindsApart)
    (known : v.Knows x) : v.symbolNamed? (v.symbolName x) = some x := by
  cases x with
  | terminal t =>
    rw [symbolNamed?, symbolName, (invert.terminals _ t).mpr ⟨known.2.2, rfl⟩]
  | nonterminal n =>
    rw [symbolNamed?, symbolName, (invert.nonterminals _ n).mpr ⟨known, rfl⟩]
    cases found : v.terminalNamed? (v.nonterminalName n) with
    | none => rfl
    | some t =>
      obtain ⟨inside, same⟩ := (invert.terminals _ t).mp found
      exact absurd (nonterminalName_mem known) (apart _ (same ▸ terminalName_mem inside))

theorem NamesInvert.symbolName_inj (invert : v.NamesInvert) (apart : v.KindsApart)
    (known : v.Knows x) (known' : v.Knows y) (same : v.symbolName x = v.symbolName y) : x = y := by
  have found := invert.symbolNamed?_symbolName apart known
  rw [same, invert.symbolNamed?_symbolName apart known'] at found
  exact (Option.some.inj found).symm

end Vocabulary

/-! ### Declarations -/

namespace Builder

variable {b b' : Builder} {d : Declaration} {answer : CanonicalLR.Declared}

/-- Only identifiers are added to the reserved names. -/
theorem Accepts.spelled (accepts : b.Accepts d answer b') (spelled : b.Spelled) : b'.Spelled := by
  cases accepts with
  | terminal identifier _ =>
    refine ⟨fun name member => ?_, spelled.nonterminals⟩
    rw [List.map_append, List.mem_append] at member
    rcases member with old | new
    · exact spelled.terminals name old
    · obtain rfl := List.mem_singleton.mp new
      exact .inl identifier
  | nonterminal identifier _ =>
    refine ⟨spelled.terminals, fun name member => ?_⟩
    rw [List.map_append, List.mem_append] at member
    rcases member with old | new
    · exact spelled.nonterminals name old
    · obtain rfl := List.mem_singleton.mp new
      exact .inl identifier
  | typeTag =>
    refine ⟨?_, ?_⟩
    · rw [map_terminals_declareTypeTag fun _ => rfl]
      exact spelled.terminals
    · rw [map_nonterminals_declareTypeTag fun _ => rfl]
      exact spelled.nonterminals
  | precedence | unknownAssoc | rule | duplicate | action | precedenceOf | unknownTerminal |
    start => exact ⟨spelled.terminals, spelled.nonterminals⟩

theorem attemptAll_spelled (ds : List Declaration) : (initial.attemptAll ds).2.Spelled :=
  attemptAll_induction (fun b => b.Spelled) (fun _ _ _ _ spelled accepts => accepts.spelled spelled)
    ⟨fun _ member => .inr member, fun _ member => .inr member⟩ ds

end Builder

theorem Grammar.spelled_of_defined {ds : List Declaration} {g : Grammar}
    (defined : defineAccepted ds = .ok g) : g.Spelled := by
  rw [(Builder.finishes_of_finish defined).vocabulary]
  exact Builder.attemptAll_spelled ds

/-- Names and symbols of a kind determine each other. -/
theorem Grammar.namesInvert_of_defined {ds : List Declaration} {g : Grammar}
    (defined : defineAccepted ds = .ok g) : g.NamesInvert := by
  have records := Builder.attemptAll_records ds
  rw [(Builder.finishes_of_finish defined).vocabulary]
  exact Vocabulary.namesInvert_of_nodup records.terminal_names records.nonterminal_names

end CanonicalLR
