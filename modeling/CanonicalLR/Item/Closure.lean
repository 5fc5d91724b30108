import CanonicalLR.First.Basic
import CanonicalLR.Item.Basic

/-!
# Closure of item sets

An item with a nonterminal after its marker predicts the rules of that nonterminal, with the marker
at the front and each terminal that may then follow as lookahead. All rules of a nonterminal are
predicted with the same lookaheads, so the closure of an item set is found by the sets of terminals
that may follow each nonterminal: the given items start these sets off, and a rule that begins with
a nonterminal lets what may follow its left side flow on.
-/
namespace CanonicalLR

/-- A grammar with what the closures of all its item sets have in common. -/
structure Predictor where
  grammar : Grammar
  first : FirstSets
  flows : List Flow

namespace Predictor

/-- A rule hands on to its leading nonterminal what begins the rest of its right side, and its own
lookaheads if that rest may be empty. -/
def flow? (first : FirstSets) (r : Rule) : Option Flow :=
  match r.right with
  | .nonterminal n :: rest =>
    let s := first.firstOf rest
    some {
      source := r.left
      target := n
      emits := s.erase .epsilon
      passes := s.contains .epsilon }
  | _ => none

def ofGrammar (g : Grammar) : Predictor :=
  let first := FirstSets.ofGrammar g
  { grammar := g, first := first, flows := g.rules.filterMap (flow? first) }

variable (p : Predictor)

/-- Add the lookaheads with which an item predicts the rules of a nonterminal after its marker. -/
def predictOn (sets : List TerminalSet) (i : Item) : Option Symbol → List TerminalSet
  | some (.nonterminal n) =>
    Flow.addTo sets n (p.first.lookaheads (i.afterNext p.grammar) i.lookahead)
  | _ => sets

def predictFrom (sets : List TerminalSet) (i : Item) : List TerminalSet :=
  p.predictOn sets i (i.next? p.grammar)

/-- For each nonterminal the lookaheads with which its rules are predicted. -/
def predictions (items : ItemSet) : List TerminalSet :=
  let none := List.replicate p.grammar.nonterminals.length (∅ : TerminalSet)
  Flow.solve p.flows (items.toList.foldl p.predictFrom none)

def predictedItems (sets : List TerminalSet) : List Item :=
  p.grammar.rules.zipIdx.flatMap fun (r, id) =>
    (Flow.setOf sets r.left).toList.map fun lookahead =>
      { rule := id, marker := 0, lookahead := lookahead }

theorem mem_predictedItems {sets : List TerminalSet} {i : Item} :
    i ∈ p.predictedItems sets ↔
      ∃ r, p.grammar.rules[i.rule]? = some r ∧ i.marker = 0 ∧
        i.lookahead ∈ Flow.setOf sets r.left := by
  simp only [predictedItems, List.mem_flatMap, List.mem_map, Prod.exists,
    List.mem_zipIdx_iff_getElem?]
  constructor
  · rintro ⟨r, id, found, lookahead, member, rfl⟩
    exact ⟨r, found, rfl, member⟩
  · rintro ⟨r, found, front, member⟩
    refine ⟨r, i.rule, found, i.lookahead, member, ?_⟩
    rw [← front]

def closure (items : ItemSet) : ItemSet :=
  items ∪ .ofList (p.predictedItems (p.predictions items))

/-- A closure adds nothing but items with the marker at the front. -/
theorem mem_closure {items : ItemSet} {i : Item} :
    i ∈ p.closure items ↔ i ∈ items ∨
      ∃ r, p.grammar.rules[i.rule]? = some r ∧ i.marker = 0 ∧
        i.lookahead ∈ Flow.setOf (p.predictions items) r.left := by
  simp only [closure, OrderedSet.mem_union, OrderedSet.mem_ofList, mem_predictedItems]

end Predictor

def Grammar.closure (g : Grammar) (items : ItemSet) : ItemSet :=
  (Predictor.ofGrammar g).closure items

end CanonicalLR
