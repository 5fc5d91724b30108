import CanonicalLR.Grammar.Session

/-!
# The tables of a session

A session and a builder that make the same declarations give the same answers. The tables of the
session hold what the builder does, each symbol under its position, and each counter is at the
number that comes next. One declaration keeps it so, and with it any number of them.
-/
namespace CanonicalLR

namespace Numbered

variable {α : Type}

/-- Each element under its position. -/
def ofList (xs : List α) : Numbered α := xs.mapIdx Prod.mk

variable (xs : List α)

theorem mem_ofList {entry : Nat × α} : entry ∈ ofList xs ↔ xs[entry.1]? = some entry.2 := by
  rw [ofList, List.mem_mapIdx, List.getElem?_eq_some_iff]
  constructor
  · rintro ⟨i, inside, rfl⟩
    exact ⟨inside, rfl⟩
  · rintro ⟨inside, same⟩
    exact ⟨entry.1, inside, Prod.ext rfl same⟩

@[simp] theorem values_ofList : (ofList xs).values = xs := by
  refine List.ext_getElem (by simp [ofList, values]) fun i _ _ => ?_
  simp [ofList, values]

@[simp] theorem contains_ofList (key : Nat) :
    (ofList xs).contains key = decide (key < xs.length) := by
  rw [Bool.eq_iff_iff, contains, List.any_eq_true, decide_eq_true_eq]
  constructor
  · rintro ⟨entry, member, same⟩
    obtain ⟨inside, _⟩ := List.getElem?_eq_some_iff.mp ((mem_ofList xs).mp member)
    rwa [← eq_of_beq same]
  · intro inside
    exact ⟨(key, xs[key]), (mem_ofList xs).mpr (List.getElem?_eq_getElem inside), BEq.rfl⟩

@[simp] theorem get?_ofList (key : Nat) : (ofList xs).get? key = xs[key]? := by
  rw [get?]
  cases found : (ofList xs).find? (·.1 == key) with
  | none =>
    cases at_key : xs[key]? with
    | none => rfl
    | some x =>
      have absent := List.find?_eq_none.mp found (key, x) ((mem_ofList xs).mpr at_key)
      exact absurd BEq.rfl absent
  | some entry =>
    have member := (mem_ofList xs).mp (List.mem_of_find?_eq_some found)
    have same : entry.1 = key := by simpa using List.find?_some found
    rw [Option.map_some, ← member, same]

@[simp] theorem insert_ofList (x : α) : (ofList xs).insert xs.length x = ofList (xs ++ [x]) := by
  rw [insert, contains_ofList, if_neg (by simp), ofList, ofList, List.mapIdx_concat]

@[simp] theorem update_ofList (key : Nat) (f : α → α) :
    (ofList xs).update key f = ofList (xs.modify key f) := by
  refine List.ext_getElem (by simp [update, ofList]) fun i _ _ => ?_
  simp only [update, ofList, List.getElem_map, List.getElem_mapIdx, List.getElem_modify]
  by_cases same : key = i
  · simp [same]
  · simp [same, Ne.symm same]

end Numbered

/-- The tables of a session that has made the declarations of a builder. -/
def Registry.ofBuilder (b : Builder) : Registry where
  terminals := .ofList b.terminals
  nonterminals := .ofList b.nonterminals
  rules := b.rules
  start := b.start
  nextTerminal := b.terminals.length
  nextNonterminal := b.nonterminals.length
  nextPriority := b.levels + 1
  warnings := b.warnings

namespace Registry

variable {b : Builder}

@[simp] theorem values_terminals_ofBuilder :
    (ofBuilder b).terminals.values = b.terminals :=
  Numbered.values_ofList b.terminals

@[simp] theorem values_nonterminals_ofBuilder :
    (ofBuilder b).nonterminals.values = b.nonterminals :=
  Numbered.values_ofList b.nonterminals

theorem builder_ofBuilder : (ofBuilder b).builder = b := by
  simp [ofBuilder, builder]

theorem usable_ofBuilder : (ofBuilder b).usable = b.usable := by
  funext x
  cases x <;> simp [usable, ofBuilder, Builder.usable, Builder.usableNonterminal]

theorem productionText_ofBuilder (left : NonterminalId) (right : List Symbol) :
    (ofBuilder b).productionText left right = b.productionText left right := by
  have symbolName : (ofBuilder b).symbolName = b.symbolName := by
    funext x
    cases x <;> simp [Registry.symbolName, nonterminalName, ofBuilder, Vocabulary.symbolName,
      Vocabulary.terminalName, Vocabulary.nonterminalName]
  rw [productionText, Vocabulary.productionText, symbolName]
  simp [nonterminalName, ofBuilder, Vocabulary.nonterminalName]

end Registry

namespace Session

variable {b : Builder}

/-- A session answers what the builder answers, and its tables stay those of the builder. -/
theorem exec_declare_ofBuilder (d : Declaration) :
    (declare d).exec (.ofBuilder b) = ((b.attempt d).1, .ofBuilder (b.attempt d).2) := by
  -- Both sides make the same checks in the same order, and enter what passes at the next position.
  cases d with
  | terminal name precedence =>
    simp only [declare, exec_bind, exec_terminal, exec_pure, Builder.attempt, Builder.declare,
      Builder.declareTerminal, Registry.values_terminals_ofBuilder]
    cases isIdentifier name with
    | false => rfl
    | true =>
      cases b.terminals.any (·.name == name) with
      | true => rfl
      | false => simp [Registry.ofBuilder]
  | nonterminal name =>
    simp only [declare, exec_bind, exec_nonterminal, exec_pure, Builder.attempt, Builder.declare,
      Builder.declareNonterminal, Registry.values_nonterminals_ofBuilder]
    cases isIdentifier name with
    | false => rfl
    | true =>
      cases b.nonterminals.any (·.name == name) with
      | true => rfl
      | false => simp [Registry.ofBuilder]
  | precedence assoc =>
    simp only [declare, exec_bind, exec_precedence, exec_pure, Builder.attempt, Builder.declare,
      Builder.declarePrecedence]
    cases Assoc.ofName? assoc <;> rfl
  | typeTag symbol tag =>
    simp only [declare, exec_bind, exec_typeTag, exec_pure, Builder.attempt, Builder.declare,
      Builder.declareTypeTag]
    cases symbol <;> simp [Registry.ofBuilder]
  | rule left right override =>
    simp only [declare, exec_bind, exec_rule, exec_pure, Builder.attempt, Builder.declare,
      Builder.declareRule, Registry.usable_ofBuilder, Registry.productionText_ofBuilder]
    have left_usable : (left == .start || !(Registry.ofBuilder b).nonterminals.contains left) =
        !b.usableNonterminal left := by
      simp [Registry.ofBuilder, Builder.usableNonterminal, bne]
    rw [left_usable]
    cases b.usableNonterminal left with
    | false => rfl
    | true =>
      cases right.all b.usable with
      | false => rfl
      | true =>
        simp only [Bool.not_true, Bool.false_eq_true, if_false, Registry.ofBuilder]
        cases b.rules.findIdx? fun r => r.left == left && r.right == right <;> rfl
  | action | start => rfl
  | precedenceOf rule terminal =>
    simp only [declare, exec_bind, exec_precedenceOf, exec_pure, Builder.attempt, Builder.declare,
      Builder.declarePrecedenceOf, Registry.values_terminals_ofBuilder,
      Registry.productionText_ofBuilder]
    cases b.terminals.find? (·.name == terminal) <;> rfl

theorem declareAll_ofBuilder (ds : List Declaration) (b : Builder) :
    declareAll ds (.ofBuilder b) = ((b.attemptAll ds).1, .ofBuilder (b.attemptAll ds).2) := by
  induction ds generalizing b with
  | nil => rfl
  | cons d ds ih => simp only [declareAll, exec_declare_ofBuilder, ih, Builder.attemptAll]

end Session

end CanonicalLR
