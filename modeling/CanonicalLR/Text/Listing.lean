import CanonicalLR.Automaton.Basic
import CanonicalLR.Table.Basic

/-!
# Listings

A listing is a text of lines, each of which ends in a line break. Sections are separated by an empty
line. A grammar is written as three sections: terminals, nonterminals and rules.

In the listing of an automaton each state is a section with its items, kernel items marked by a
star, and the edges that leave it. The list of all edges is gone through once: the section of a
state takes edges from its front as long as they leave the state, and what is left goes to the
sections behind. In the listing of a table each state is a section with its actions and its gotos.
-/
namespace CanonicalLR

def linesText (lines : List String) : String :=
  String.join (lines.map (· ++ "\n"))

def sectionsText (sections : List (List String)) : String :=
  linesText (List.intercalate [""] sections)

/-! ### Grammars -/

namespace Grammar

variable (g : Grammar)

def terminalLine (t : Terminal) : String :=
  match t.precedence with
  | none => t.name
  | some p => s!"{t.name} {p.text}"

def nonterminalLine (id : NonterminalId) (n : Nonterminal) : String :=
  if id = g.start then s!"{n.name} (start)" else n.name

/-- Rule numbers have three digits at least. Only a rule's own precedence is shown. -/
def ruleLine (id : RuleId) (r : Rule) : String :=
  let text := s!"{padded 3 id}: {g.ruleText r}"
  match r.override with
  | none => text
  | some p => s!"{text} {p.text}"

def text : String :=
  sectionsText [
    "## terminals:" :: g.terminals.map terminalLine,
    "## nonterminals:" :: g.nonterminals.zipIdx.map fun (n, id) => g.nonterminalLine id n,
    "## rules:" :: g.rules.zipIdx.map fun (r, id) => g.ruleLine id r]

end Grammar

/-! ### Automata -/

def Item.line (g : Grammar) (i : Item) : String :=
  (if i.isKernel then "* " else "- ") ++ i.text g

def Edge.line (g : Grammar) (e : Edge) : String :=
  s!"- {g.symbolName e.symbol} => {e.target.text}"

/-- The lines of a state, with the edges that are listed in its section. -/
def stateLines (g : Grammar) (id : StateId) (items : ItemSet) (leaving : List Edge) :
    List String :=
  [s!"#### State {id.text}", "## items"] ++ items.toList.map (Item.line g) ++
    ["## edges"] ++ leaving.map (Edge.line g)

/-- The sections of some states, which have these edges left to them. -/
def stateSections (g : Grammar) (edges : List Edge) :
    List (ItemSet × StateId) → List (List String)
  | [] => []
  | (items, id) :: rest =>
    let (leaving, others) := edges.span (·.source == id)
    stateLines g id items leaving :: stateSections g others rest

def listing (g : Grammar) (states : List ItemSet) (edges : List Edge) : String :=
  sectionsText (stateSections g edges states.zipIdx)

def Automaton.text (g : Grammar) (a : Automaton) : String :=
  listing g (a.states.map (·.items)) a.edges

/-! ### Tables -/

def Action.text (g : Grammar) : Action → String
  | .shift target => s!"shift({target.text})"
  | .reduce rule => s!"reduce({g.ruleText (g.rule rule)})"
  | .accept => "accept"

namespace Table

def rowLines (g : Grammar) (id : StateId) (row : Row) : List String :=
  [s!"#### State {id.text}", "## actions"] ++
    row.actions.map (fun (t, action) => s!"- {g.terminalName t} => {action.text g}") ++
    ["## gotos"] ++
    row.gotos.map fun (n, target) => s!"- {g.nonterminalName n} => goto({target.text})"

def text (g : Grammar) (t : Table) : String :=
  sectionsText (t.rows.zipIdx.map fun (row, id) => rowLines g id row)

end Table

end CanonicalLR
