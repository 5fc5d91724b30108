import CanonicalLR.Examples.Small
import CanonicalLR.Grammar.Log
import CanonicalLR.Proofs.Declarations
import CanonicalLR.Proofs.SessionTables
import Mathlib.Data.List.Nodup

/-!
# What a builder keeps of its declarations

Whatever is declared in whatever order, refused declarations among the others, a builder and the
log of its answers agree. The symbols are the reserved ones and then those of the accepted
declarations, each at the number that was answered. No name and no pair of sides is taken twice, and
the number of a rule leads to the sides that were asked for. Each field is an invariant of its own:
an accepted declaration adds to it what it adds to the log, and a refused one adds nothing to
either.
-/
namespace CanonicalLR

/-- What a rule is told apart by. -/
def Rule.sides (r : Rule) : NonterminalId × List Symbol := (r.left, r.right)

namespace Vocabulary

/-- Each terminal as the declaration that it comes from, with its number as the answer. -/
def terminalEntries (v : Vocabulary) : List (Declaration × Declared) :=
  (v.terminals.map fun t => .terminal t.name t.precedence).mapIdx fun id d => (d, .terminal id)

def nonterminalEntries (v : Vocabulary) : List (Declaration × Declared) :=
  (v.nonterminals.map fun n => .nonterminal n.name).mapIdx fun id d => (d, .nonterminal id)

/-- Looking up a name gives the symbol of that name, whatever the symbol. -/
structure NamesInvert (v : Vocabulary) : Prop where
  terminals : ∀ name t, v.terminalNamed? name = some t ↔
    t < v.terminals.length ∧ v.terminalName t = name
  nonterminals : ∀ name n, v.nonterminalNamed? name = some n ↔
    n < v.nonterminals.length ∧ v.nonterminalName n = name

end Vocabulary

/-- A builder is what the accepted declarations of a log make of the initial one, and the answers of
the log are right about it. -/
structure Builder.Records (b : Builder) (log : Log) : Prop extends b.Sound where
  terminals : b.terminalEntries =
    [(.terminal "$eoi" none, .terminal .eoi), (.terminal "$epsilon" none, .terminal .epsilon),
      (.terminal "$error" none, .terminal .error)] ++ log.accepted.filter (·.1.isTerminal)
  nonterminals : b.nonterminalEntries =
    (.nonterminal "$start", .nonterminal .start) :: log.accepted.filter (·.1.isNonterminal)
  terminal_names : (b.terminals.map (·.name)).Nodup
  nonterminal_names : (b.nonterminals.map (·.name)).Nodup
  sides : (b.rules.map Rule.sides).Nodup
  handles : ∀ left right override answer, (.rule left right override, answer) ∈ log.accepted →
    ∃ index, answer = .rule index ∧ b.rules[index]?.map Rule.sides = some (left, right)
  levels : b.levels = (log.filterMap (·.1.assoc?)).length
  /-- The levels are numbered from 1, whether or not their associativity is known. -/
  precedences : log.filter (·.1.assoc?.isSome) =
    (log.filterMap (·.1.assoc?)).mapIdx fun k assoc =>
      (.precedence assoc, .ok (.precedence ⟨k + 1, (Assoc.ofName? assoc).getD .unspecified⟩))

/-- What an update keeps of each element, it keeps of a list. -/
theorem map_modify {α β : Type} {f : α → β} {g : α → α} (same : ∀ x, f (g x) = f x) (xs : List α)
    (index : Nat) : (xs.modify index g).map f = xs.map f := by
  refine List.ext_getElem (by simp) fun i _ _ => ?_
  simp only [List.getElem_map, List.getElem_modify]
  split
  · exact same _
  · rfl

/-- Where no key is there twice, looking up a key gives the position that has it. -/
theorem findIdx?_key_eq_some_iff {α β : Type} [BEq β] [LawfulBEq β] {key : α → β} {xs : List α}
    (distinct : (xs.map key).Nodup) {fallback k : β} {i : Nat} :
    xs.findIdx? (key · == k) = some i ↔ i < xs.length ∧ (xs[i]?.map key).getD fallback = k := by
  rw [List.findIdx?_eq_some_iff_getElem]
  constructor
  · rintro ⟨inside, found, _⟩
    exact ⟨inside, by simpa [inside] using found⟩
  · rintro ⟨inside, found⟩
    have at_i : key xs[i] = k := by simpa [inside] using found
    refine ⟨inside, beq_iff_eq.mpr at_i, fun j earlier same => ?_⟩
    have equal : (xs.map key)[j]? = (xs.map key)[i]? := by
      simpa [inside, Nat.lt_trans earlier inside, at_i] using same
    exact absurd ((List.getElem?_inj (by simp; omega) distinct).mp equal) (by omega)

theorem Vocabulary.namesInvert_of_nodup {v : Vocabulary}
    (terminals : (v.terminals.map (·.name)).Nodup)
    (nonterminals : (v.nonterminals.map (·.name)).Nodup) : v.NamesInvert where
  terminals _ _ := findIdx?_key_eq_some_iff terminals
  nonterminals _ _ := findIdx?_key_eq_some_iff nonterminals

namespace Builder

variable {b b' : Builder} {d : Declaration} {answer : CanonicalLR.Declared}

/-! ### Symbols -/

section TypeTags

variable {symbol : Symbol} {tag : String}

/-- A tag is no part of what symbols are declared with. -/
theorem map_terminals_declareTypeTag {β : Type} {f : Terminal → β}
    (same : ∀ t, f { t with typeTag := some tag } = f t) :
    (b.declareTypeTag symbol tag).terminals.map f = b.terminals.map f := by
  cases symbol with
  | terminal t => exact map_modify same _ t
  | nonterminal => rfl

theorem map_nonterminals_declareTypeTag {β : Type} {f : Nonterminal → β}
    (same : ∀ n, f { n with typeTag := some tag } = f n) :
    (b.declareTypeTag symbol tag).nonterminals.map f = b.nonterminals.map f := by
  cases symbol with
  | terminal => rfl
  | nonterminal n => exact map_modify same _ n

end TypeTags

/-- A terminal is declared with the number that follows the last one. -/
theorem Accepts.terminalEntries_eq (accepts : b.Accepts d answer b') :
    b'.terminalEntries = b.terminalEntries ++ [(d, answer)].filter (·.1.isTerminal) := by
  cases accepts with
  | terminal =>
    rw [Vocabulary.terminalEntries, List.map_append, List.map_singleton, List.mapIdx_concat,
      List.length_map]
    rfl
  | typeTag =>
    rw [Vocabulary.terminalEntries, map_terminals_declareTypeTag fun _ => rfl]
    exact (List.append_nil _).symm
  | nonterminal | precedence | unknownAssoc | rule | duplicate | action | precedenceOf |
    unknownTerminal | start => exact (List.append_nil _).symm

theorem Accepts.nonterminalEntries_eq (accepts : b.Accepts d answer b') :
    b'.nonterminalEntries = b.nonterminalEntries ++ [(d, answer)].filter (·.1.isNonterminal) := by
  cases accepts with
  | nonterminal =>
    rw [Vocabulary.nonterminalEntries, List.map_append, List.map_singleton, List.mapIdx_concat,
      List.length_map]
    rfl
  | typeTag =>
    rw [Vocabulary.nonterminalEntries, map_nonterminals_declareTypeTag fun _ => rfl]
    exact (List.append_nil _).symm
  | terminal | precedence | unknownAssoc | rule | duplicate | action | precedenceOf |
    unknownTerminal | start => exact (List.append_nil _).symm

/-- A symbol keeps its name, and a new one gets a name that is free. -/
theorem Accepts.nodup_terminal_names (accepts : b.Accepts d answer b')
    (distinct : (b.terminals.map (·.name)).Nodup) : (b'.terminals.map (·.name)).Nodup := by
  cases accepts with
  | terminal _ fresh =>
    rw [List.map_append, List.map_singleton, ← List.concat_eq_append]
    exact distinct.concat fresh
  | typeTag => rwa [map_terminals_declareTypeTag fun _ => rfl]
  | nonterminal | precedence | unknownAssoc | rule | duplicate | action | precedenceOf |
    unknownTerminal | start => exact distinct

theorem Accepts.nodup_nonterminal_names (accepts : b.Accepts d answer b')
    (distinct : (b.nonterminals.map (·.name)).Nodup) : (b'.nonterminals.map (·.name)).Nodup := by
  cases accepts with
  | nonterminal _ fresh =>
    rw [List.map_append, List.map_singleton, ← List.concat_eq_append]
    exact distinct.concat fresh
  | typeTag => rwa [map_nonterminals_declareTypeTag fun _ => rfl]
  | terminal | precedence | unknownAssoc | rule | duplicate | action | precedenceOf |
    unknownTerminal | start => exact distinct

/-! ### Rules -/

/-- The sides of the rules stay as they are, but for new ones that are added at the end. -/
theorem Accepts.sides_eq (accepts : b.Accepts d answer b') :
    b'.rules.map Rule.sides = b.rules.map Rule.sides ∨
      ∃ new ∉ b.rules.map Rule.sides,
        b'.rules.map Rule.sides = b.rules.map Rule.sides ++ [new] := by
  cases accepts with
  | @rule left right _ _ _ fresh =>
    refine .inr ⟨(left, right), ?_, by rw [List.map_append]; rfl⟩
    simpa [Rule.sides] using fresh
  | action | precedenceOf =>
    refine .inl (map_modify ?_ _ _)
    exact fun _ => rfl
  | @typeTag symbol => cases symbol <;> exact .inl rfl
  | terminal | nonterminal | precedence | unknownAssoc | duplicate | unknownTerminal | start =>
    exact .inl rfl

theorem Accepts.sides_prefix (accepts : b.Accepts d answer b') :
    b.rules.map Rule.sides <+: b'.rules.map Rule.sides := by
  rcases accepts.sides_eq with same | ⟨new, _, added⟩
  · exact ⟨[], by rw [same, List.append_nil]⟩
  · exact ⟨[new], added.symm⟩

theorem Accepts.nodup_sides (accepts : b.Accepts d answer b')
    (distinct : (b.rules.map Rule.sides).Nodup) : (b'.rules.map Rule.sides).Nodup := by
  rcases accepts.sides_eq with same | ⟨new, fresh, added⟩
  · rwa [same]
  · rw [added, ← List.concat_eq_append]
    exact distinct.concat fresh

/-- The answer is the number of a rule that has the sides, be it a new one or the first. -/
theorem Accepts.exists_handle {left : NonterminalId} {right : List Symbol}
    {override : Option Precedence} (accepts : b.Accepts (.rule left right override) answer b') :
    ∃ index, answer = .rule index ∧ b'.rules[index]?.map Rule.sides = some (left, right) := by
  cases accepts with
  | rule => exact ⟨_, rfl, by simp [Rule.sides]⟩
  | @duplicate _ _ _ index _ _ first =>
    obtain ⟨inside, same, _⟩ := List.findIdx?_eq_some_iff_getElem.mp first
    exact ⟨index, rfl, by simpa [Rule.sides, inside] using same⟩

/-! ### Precedence levels -/

theorem assoc?_of_refused {e : DefinitionError} (refused : b.declare d = .error e) :
    d.assoc? = none := by
  cases d with
  | precedence => cases refused
  | _ => rfl

/-- A level is opened with the next priority, and nothing else opens one. -/
theorem Accepts.levels_cases (accepts : b.Accepts d answer b') :
    d.assoc? = none ∧ b'.levels = b.levels ∨
      ∃ assoc, d = .precedence assoc ∧ b'.levels = b.levels + 1 ∧
        answer = .precedence ⟨b.levels + 1, (Assoc.ofName? assoc).getD .unspecified⟩ := by
  cases accepts with
  | precedence known => exact .inr ⟨_, rfl, rfl, by rw [known]; rfl⟩
  | unknownAssoc unknown => exact .inr ⟨_, rfl, rfl, by rw [unknown]; rfl⟩
  | @typeTag symbol => cases symbol <;> exact .inl ⟨rfl, rfl⟩
  | terminal | nonterminal | rule | duplicate | action | precedenceOf | unknownTerminal | start =>
    exact .inl ⟨rfl, rfl⟩

/-! ### Runs -/

theorem initial_records : initial.Records [] where
  toSound := initial_sound
  terminals := rfl
  nonterminals := rfl
  terminal_names := by decide
  nonterminal_names := by decide
  sides := List.nodup_nil
  handles := by simp
  levels := rfl
  precedences := rfl

/-- What an accepted declaration adds to the builder is what it adds to the log. -/
theorem Records.accept {log : Log} (records : b.Records log)
    (declared : b.declare d = .ok (answer, b')) : b'.Records (log ++ [(d, .ok answer)]) := by
  have accepts := accepts_of_declare declared
  refine {
    toSound := declare_sound records.toSound declared
    terminals := ?terminals
    nonterminals := ?nonterminals
    terminal_names := accepts.nodup_terminal_names records.terminal_names
    nonterminal_names := accepts.nodup_nonterminal_names records.nonterminal_names
    sides := accepts.nodup_sides records.sides
    handles := ?handles
    levels := ?levels
    precedences := ?precedences }
  case terminals =>
    rw [accepts.terminalEntries_eq, records.terminals, Log.accepted_append, List.filter_append,
      List.append_assoc]
    rfl
  case nonterminals =>
    rw [accepts.nonterminalEntries_eq, records.nonterminals, Log.accepted_append,
      List.filter_append, List.cons_append]
    rfl
  case handles =>
    intro left right override answer' member
    rw [Log.accepted_append] at member
    rcases List.mem_append.mp member with old | new
    · -- The rules that were there keep their places.
      obtain ⟨index, answered, found⟩ := records.handles left right override answer' old
      obtain ⟨added, grown⟩ := accepts.sides_prefix
      rw [← List.getElem?_map] at found
      refine ⟨index, answered, ?_⟩
      rw [← List.getElem?_map, ← grown, List.getElem?_append_left, found]
      exact (List.getElem?_eq_some_iff.mp found).1
    · obtain ⟨rfl, rfl⟩ := Prod.mk.inj (List.mem_singleton.mp new)
      exact accepts.exists_handle
  case levels =>
    rcases accepts.levels_cases with ⟨other, same⟩ | ⟨assoc, rfl, next, -⟩
    · simp [other, same, records.levels]
    · simp [Declaration.assoc?, next, records.levels]
  case precedences =>
    rw [List.filter_append, List.filterMap_append, records.precedences]
    rcases accepts.levels_cases with ⟨other, -⟩ | ⟨assoc, rfl, -, rfl⟩
    · simp [other]
    · simp [Declaration.assoc?, records.levels]

/-- A refused declaration adds nothing to either. -/
theorem Records.refuse {log : Log} {e : DefinitionError} (records : b.Records log)
    (refused : b.declare d = .error e) : b.Records (log ++ [(d, .error e)]) := by
  have accepted : Log.accepted (log ++ [(d, .error e)]) = log.accepted := by simp
  have other := assoc?_of_refused refused
  exact { records with
    terminals := by rw [accepted]; exact records.terminals
    nonterminals := by rw [accepted]; exact records.nonterminals
    handles := by rw [accepted]; exact records.handles
    levels := by simpa [other] using records.levels
    precedences := by simpa [other] using records.precedences }

theorem attemptAll_records (ds : List Declaration) :
    (initial.attemptAll ds).2.Records (initial.log ds) :=
  log_induction (fun log b => b.Records log) (fun _ _ _ _ _ records => records.accept)
    (fun _ _ _ _ records => records.refuse) [] initial_records ds

end Builder

namespace Grammar

/-- After any declarations, refused ones among them, the builder and the log of its answers are
right about each other, names and symbols determine each other, and a session has given the same
answers and has each symbol under its number. -/
theorem declarations_are_recorded (ds : List Declaration) :
    let run := Builder.initial.attemptAll ds
    let log := Builder.initial.log ds
    log.unzip = (ds, run.1) ∧ run.2.Records log ∧
      (∀ g, defineAccepted ds = .ok g → g.NamesInvert) ∧
      Session.declareAll ds .initial = (run.1, .ofBuilder run.2) := by
  have records := Builder.attemptAll_records ds
  refine ⟨Builder.unzip_log, records, fun g defined => ?_, Session.declareAll_ofBuilder ds .initial⟩
  rw [(Builder.finishes_of_finish defined).vocabulary]
  exact Vocabulary.namesInvert_of_nodup records.terminal_names records.nonterminal_names

/-- Four declarations are refused, and the others are numbered as if there had been none of them. -/
theorem declarations_are_recorded_interrupted :
    let g := Examples.grammarOf Examples.interrupted
    let log := Builder.initial.log Examples.interrupted
    defineAccepted Examples.interrupted = .ok g ∧ g.NamesInvert ∧
      (Builder.initial.attemptAll Examples.interrupted).2.Records log ∧ log.length = 12 ∧
      log.accepted.map (·.2) = [.terminal 3, .nonterminal 1, .precedence ⟨1, .unspecified⟩, .rule 0,
        .precedence ⟨2, .left⟩, .terminal 4, .rule 1, .rule 0] := by
  intro g log
  have defined : defineAccepted Examples.interrupted = .ok g := rfl
  obtain ⟨_, records, invert, _⟩ := declarations_are_recorded Examples.interrupted
  exact ⟨defined, invert g defined, records, by decide +kernel, by decide +kernel⟩

end Grammar

end CanonicalLR
