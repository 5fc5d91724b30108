import CanonicalLR.Table.Indexed

/-!
# The indexed construction is the construction

Looking the symbol after a marker up in an array gives the symbol that the grammar has there, and an
indexed exploration stands for the exploration that has met and explored the same. So both ways lead
to the same automaton, and to the same table or the same error.
-/
namespace CanonicalLR

theorem Item.nextIn?_rightSides (g : Grammar) (i : Item) : i.nextIn? g.rightSides = i.next? g := by
  rw [nextIn?, next?, right, Grammar.rule, Grammar.rightSides, List.getElem?_toArray,
    List.getElem?_map, List.getD_eq_getElem?_getD]
  cases g.rules[i.rule]? with
  | none => rfl
  | some r => simp

theorem Departures.connect_withKernels (d : Departures) (kernels : List ItemSet) (g : Grammar)
    (source : StateId) (x : Symbol) (target : StateId) :
    { d with kernels := kernels }.connect g source x target =
      { d.connect g source x target with kernels := kernels } := by
  simp only [connect]
  cases d.moves.lookup x with
  | none => rfl
  | some kept =>
    dsimp only
    split <;> rfl

/-- The departures that indexed ones stand for. -/
def IndexedDepartures.plain (d : IndexedDepartures) : Departures :=
  { d.base with kernels := d.kernels.toList }

theorem IndexedDepartures.plain_follow (g : Grammar) (source : StateId)
    (advances : List (Symbol × Item)) (d : IndexedDepartures) (x : Symbol) :
    (d.follow g source advances x).plain = d.plain.follow g source advances x := by
  simp only [follow, Departures.follow]
  split
  · rfl
  · rw [plain, plain, Numbering.toList_number, Numbering.number_eq_idxOf,
      ← Departures.connect_withKernels]

theorem IndexedDepartures.plain_foldl (g : Grammar) (source : StateId)
    (advances : List (Symbol × Item)) (symbols : List Symbol) (d : IndexedDepartures) :
    (symbols.foldl (follow g source advances) d).plain =
      symbols.foldl (Departures.follow g source advances) d.plain := by
  induction symbols generalizing d with
  | nil => rfl
  | cons x symbols ih => rw [List.foldl_cons, List.foldl_cons, ih, plain_follow]

namespace IndexedExploration

variable {p : Predictor} {next : Item → Option Symbol}

/-- The exploration that an indexed one stands for. -/
def plain (e : IndexedExploration) : Exploration where
  kernels := e.kernels.toList
  states := e.states.toList
  warnings := e.warnings

theorem plain_initial (files : Nat) : (initial files).plain = .initial := by
  rw [initial, plain, Numbering.toList_number]
  rfl

theorem plain_visit (looked_up : ∀ i, next i = i.next? p.grammar) (symbols : List Symbol)
    (e : IndexedExploration) (kernel : ItemSet) :
    (e.visit next p symbols kernel).plain = e.plain.visit p symbols kernel := by
  obtain rfl : next = fun i => i.next? p.grammar := funext looked_up
  have followed := IndexedDepartures.plain_foldl p.grammar e.states.size
    ((p.closure kernel).advances p.grammar) symbols
    { kernels := e.kernels, base := { kernels := [], moves := [], warnings := e.warnings } }
  simp only [IndexedDepartures.plain] at followed
  simp only [plain, Exploration.visit, Array.length_toList, ← followed]
  simp only [visit, Array.toList_push]
  rfl

theorem plain_complete (looked_up : ∀ i, next i = i.next? p.grammar) (symbols : List Symbol)
    (limit : Nat) (e : IndexedExploration) :
    (e.complete next p symbols limit).plain = e.plain.complete p symbols limit := by
  induction limit generalizing e with
  | zero => rfl
  | succ limit ih =>
    have unexplored :
        e.plain.kernels[e.plain.states.length]? = e.kernels.elements[e.states.size]? := by
      simp [plain, Numbering.toList]
    rw [complete, Exploration.complete, unexplored]
    cases e.kernels.elements[e.states.size]? with
    | none => rfl
    | some kernel => rw [ih, plain_visit looked_up]

end IndexedExploration

variable {g : Grammar} {next : Item → Option Symbol}

theorem Automaton.ofGrammarBy_eq (looked_up : ∀ i, next i = i.next? g) :
    ofGrammarBy next g = ofGrammar g := by
  have completed := IndexedExploration.plain_complete (p := .ofGrammar g) looked_up g.rightSymbols
    g.maxStates (.initial (g.rules.foldl (fun length r => length + r.right.length) 0))
  rw [IndexedExploration.plain_initial] at completed
  rw [ofGrammar, ← completed]
  rfl

theorem Table.generateBy_eq (looked_up : ∀ i, next i = i.next? g) (a : Automaton) :
    generateBy next g a = generate g a := by
  obtain rfl : next = fun i => i.next? g := funext looked_up
  rfl

/-- Looking up gives what searching would give. -/
theorem Grammar.constructIndexed_eq (g : Grammar) : g.constructIndexed = g.construct := by
  have looked_up := Item.nextIn?_rightSides g
  simp only [constructIndexed, Automaton.ofGrammarBy_eq looked_up, Table.generateBy_eq looked_up]
  rfl

end CanonicalLR
