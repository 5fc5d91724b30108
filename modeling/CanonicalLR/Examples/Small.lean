import CanonicalLR.Grammar.Outline

/-!
# Small example grammars
-/
namespace CanonicalLR.Examples

/-- The grammar of some declarations that have one. -/
def grammarOf (ds : List Declaration) : Grammar :=
  (Grammar.defineAccepted ds).toOption.getD default

/-- Equations between sums. -/
def equations : List Declaration :=
  Outline.declarations {
    terminals := ["EQUAL", "PLUS", "ID", "NUM"]
    nonterminals := ["A", "E", "T"]
    productions := [
      ("A", ["E", "EQUAL", "E"]),
      ("A", ["ID"]),
      ("E", ["E", "PLUS", "T"]),
      ("E", ["T"]),
      ("T", ["NUM"]),
      ("T", ["ID"])] }

/-- Arithmetic whose rules alone say what binds tighter. -/
def layeredArithmetic : List Declaration :=
  Outline.declarations {
    terminals := ["LPAREN", "RPAREN", "PLUS", "MINUS", "STAR", "SLASH", "NUM"]
    nonterminals := ["EXPR", "FACTOR", "TERM"]
    productions := [
      ("EXPR", ["EXPR", "PLUS", "FACTOR"]),
      ("EXPR", ["EXPR", "MINUS", "FACTOR"]),
      ("EXPR", ["FACTOR"]),
      ("FACTOR", ["FACTOR", "STAR", "TERM"]),
      ("FACTOR", ["FACTOR", "SLASH", "TERM"]),
      ("FACTOR", ["TERM"]),
      ("TERM", ["NUM"]),
      ("TERM", ["LPAREN", "EXPR", "RPAREN"])] }

/-- Parameter declarations, where a type and a name look alike until the next symbol is read. -/
def parameters : List Declaration :=
  Outline.declarations {
    terminals := ["COMMA", "COLON", "ID"]
    nonterminals := ["DEF", "PARAM_SPEC", "RETURN_SPEC", "TYPE", "NAME", "NAME_LIST"]
    productions := [
      ("DEF", ["PARAM_SPEC", "RETURN_SPEC", "COMMA"]),
      ("PARAM_SPEC", ["TYPE"]),
      ("PARAM_SPEC", ["NAME_LIST", "COLON", "TYPE"]),
      ("RETURN_SPEC", ["TYPE"]),
      ("RETURN_SPEC", ["NAME", "COLON", "TYPE"]),
      ("TYPE", ["ID"]),
      ("NAME", ["ID"]),
      ("NAME_LIST", ["NAME"]),
      ("NAME_LIST", ["NAME", "COMMA", "NAME_LIST"])] }

/-- As many `a` as `b` after them. -/
def balanced : List Declaration :=
  Outline.declarations {
    terminals := ["a", "b"]
    nonterminals := ["S"]
    productions := [
      ("S", ["a", "S", "b"]),
      ("S", [])] }

/-- Statements with an optional else branch, which the grammar leaves ambiguous. -/
def danglingElse : List Declaration :=
  Outline.declarations {
    terminals := ["i", "e", "a"]
    nonterminals := ["S"]
    productions := [
      ("S", ["i", "S"]),
      ("S", ["i", "S", "e", "S"]),
      ("S", ["a"])] }

/-- The same statements, with precedences that give the branch to the inner one. -/
def rankedElse : List Declaration :=
  [.precedence "left", .precedence "left",
    .terminal "i" (some ⟨1, .left⟩),
    .terminal "e" (some ⟨2, .left⟩),
    .terminal "a" none,
    .nonterminal "S",
    .rule 1 [.terminal 3, .nonterminal 1] none,
    .rule 1 [.terminal 3, .nonterminal 1, .terminal 4, .nonterminal 1] none,
    .rule 1 [.terminal 5] none]

/-- Ambiguous arithmetic that precedences decide. The terminals are numbered 3 to 7 and the rules
carry the names of what they do. -/
def arithmetic : List Declaration :=
  let plus : Symbol := .terminal 3
  let star : Symbol := .terminal 4
  let lparen : Symbol := .terminal 5
  let rparen : Symbol := .terminal 6
  let num : Symbol := .terminal 7
  let expr : Symbol := .nonterminal 1
  [.precedence "left", .precedence "left",
    .terminal "PLUS" (some ⟨1, .left⟩),
    .terminal "STAR" (some ⟨2, .left⟩),
    .terminal "LPAREN" none,
    .terminal "RPAREN" none,
    .terminal "NUM" none,
    .typeTag num "i64",
    .nonterminal "EXPR",
    .typeTag expr "i64",
    .rule 1 [expr, plus, expr] none,
    .action 0 "add",
    .rule 1 [expr, star, expr] none,
    .action 1 "mul",
    .rule 1 [lparen, expr, rparen] none,
    .action 2 "paren",
    .rule 1 [num] none,
    .action 3 "num"]

/-- The same arithmetic with its rules from last to first. -/
def reversedArithmetic : List Declaration :=
  let plus : Symbol := .terminal 3
  let star : Symbol := .terminal 4
  let lparen : Symbol := .terminal 5
  let rparen : Symbol := .terminal 6
  let num : Symbol := .terminal 7
  let expr : Symbol := .nonterminal 1
  [.precedence "left", .precedence "left",
    .terminal "PLUS" (some ⟨1, .left⟩),
    .terminal "STAR" (some ⟨2, .left⟩),
    .terminal "LPAREN" none,
    .terminal "RPAREN" none,
    .terminal "NUM" none,
    .nonterminal "EXPR",
    .rule 1 [num] none,
    .rule 1 [lparen, expr, rparen] none,
    .rule 1 [expr, star, expr] none,
    .rule 1 [expr, plus, expr] none]

/-- A rule for a nonterminal that nothing mentions. -/
def withUnreachable : List Declaration :=
  Outline.declarations {
    terminals := ["a", "b"]
    nonterminals := ["S", "UNUSED"]
    productions := [
      ("S", ["a", "S"]),
      ("UNUSED", ["b", "S"]),
      ("S", ["a"])] }

/-- Rules for a nonterminal that nothing mentions, and a nonterminal that has no rules. -/
def withGaps : List Declaration :=
  Outline.declarations {
    terminals := ["a", "b"]
    nonterminals := ["S", "U", "X", "M"]
    productions := [
      ("S", ["a", "X"]),
      ("U", ["b"]),
      ("U", ["S"]),
      ("X", ["b", "M"]),
      ("X", ["b"])] }

/-- Two rules that may be reduced on the same terminal. -/
def reduceReduce : List Declaration :=
  Outline.declarations {
    terminals := ["x", "c"]
    nonterminals := ["S", "A", "B"]
    productions := [
      ("S", ["A", "c"]),
      ("S", ["B", "c"]),
      ("A", ["x"]),
      ("B", ["x"])] }

/-- A start symbol that derives itself, so that it may be reduced where it may be accepted. -/
def unitCycle : List Declaration :=
  Outline.declarations {
    terminals := ["a"]
    nonterminals := ["S", "A"]
    productions := [
      ("S", ["a"]),
      ("S", ["A"]),
      ("A", ["S"])] }

/-- Sums with a nonterminal that may be empty. -/
def withNullable : List Declaration :=
  Outline.declarations {
    terminals := ["LPAREN", "RPAREN", "PLUS", "A", "NUM"]
    nonterminals := ["EXPR", "TERM", "NULLABLE"]
    productions := [
      ("EXPR", ["EXPR", "PLUS", "TERM", "NULLABLE"]),
      ("EXPR", ["TERM"]),
      ("TERM", ["A"]),
      ("TERM", ["LPAREN", "EXPR", "NULLABLE", "RPAREN"]),
      ("TERM", ["NULLABLE", "A"]),
      ("NULLABLE", []),
      ("NULLABLE", ["NUM"])] }

/-- A nonterminal behind something empty that any shift is given up for. -/
def eagerRecursion : List Declaration :=
  [.precedence "left", .precedence "left",
    .terminal "a" none,
    .terminal "b" (some ⟨1, .left⟩),
    .nonterminal "S", .nonterminal "B",
    .rule 1 [.nonterminal 2, .nonterminal 1, .terminal 3] none,
    .rule 1 [.terminal 4] none,
    .rule 2 [] (some ⟨2, .left⟩)]

/-- A nonterminal behind something empty, and one that derives no terminals. -/
def endlessRecursion : List Declaration :=
  Outline.declarations {
    terminals := ["t", "u"]
    nonterminals := ["X", "A", "B", "U"]
    productions := [
      ("X", ["B", "X"]),
      ("X", ["A", "U"]),
      ("A", ["t"]),
      ("B", []),
      ("U", ["U", "u"])] }

/-- A nonterminal that derives itself, and that any shift is given up for. -/
def eagerCycle : List Declaration :=
  [.precedence "left", .precedence "left",
    .terminal "a" none,
    .terminal "b" (some ⟨1, .left⟩),
    .nonterminal "S", .nonterminal "A",
    .rule 1 [.nonterminal 2, .terminal 4] none,
    .rule 2 [.nonterminal 2] (some ⟨2, .left⟩),
    .rule 2 [.terminal 3] none]

/-- A nonterminal that derives itself, and one that derives no terminals. -/
def endlessCycle : List Declaration :=
  Outline.declarations {
    terminals := ["t", "b", "u"]
    nonterminals := ["S", "A", "P", "U"]
    productions := [
      ("S", ["A", "P", "U"]),
      ("A", ["A"]),
      ("A", ["t"]),
      ("P", ["b"]),
      ("U", ["U", "u"])] }

/-- Refused declarations among the others: of a name that is taken or is none, of a reserved symbol
on a right side, of a left side that is not declared. -/
def interrupted : List Declaration :=
  [.terminal "a" none, .terminal "a" (some ⟨1, .left⟩), .nonterminal "S", .nonterminal "$start",
    .precedence "up",
    .rule 1 [.terminal 3, .nonterminal 1] none,
    .rule 1 [.terminal .eoi] none,
    .rule 2 [] none,
    .precedence "left",
    .terminal "b" (some ⟨2, .left⟩),
    .rule 1 [.terminal 4] none,
    .rule 1 [.terminal 3, .nonterminal 1] none]

/-- Precedences that are passed, borrowed before and after their terminal is declared, and taken
away, through the number of a rule that is declared twice, behind a rule that is dropped. -/
def borrowed : List Declaration :=
  [.precedence "left", .precedence "right",
    .terminal "a" (some ⟨1, .left⟩), .nonterminal "S", .nonterminal "U",
    .rule 2 [.terminal 3] none,
    .rule 1 [.nonterminal 1, .terminal 3] (some ⟨2, .right⟩),
    .rule 1 [.terminal 3] none,
    .rule 1 [.nonterminal 1, .terminal 3] none,
    .precedenceOf 2 "b",
    .terminal "b" (some ⟨2, .right⟩),
    .precedenceOf 2 "b",
    .precedenceOf 1 "$error",
    .start 1]

/-- A terminal with the name that an empty right side is written with. -/
def namedEpsilon : List Declaration :=
  Outline.declarations {
    terminals := ["ε", "a"]
    nonterminals := ["S"]
    productions := [
      ("S", ["ε"]),
      ("S", []),
      ("S", ["a", "ε"])] }

end CanonicalLR.Examples
