import CanonicalLR.Grammar.Outline

/-!
# The grammar of MinCaml

A functional language of expressions, with a rule for each construct and each operator.
-/
namespace CanonicalLR.Examples

def minCamlOutline : Outline where
  terminals := [
    "LPAREN", "RPAREN", "TRUE", "FALSE", "INTEGER", "FLOAT", "IDENT", "NOT", "PLUS", "PLUS_DOT",
    "MINUS", "MINUS_DOT", "STAR_DOT", "SLASH_DOT", "EQUAL", "LESS_GREATER", "LESS", "GREATER",
    "LESS_EQUAL", "GREATER_EQUAL", "LESS_MINUS", "COMMA", "SEMICOLON", "IF", "THEN", "ELSE", "LET",
    "REC", "IN", "ARRAY_MAKE", "DOT"]
  nonterminals := [
    "SIMPLE_EXP", "APP_EXP", "NEG_EXP", "MULT_EXP", "ADD_EXP", "REL_EXP", "TUPLE_EXP", "PUT_EXP",
    "IF_EXP", "LET_EXP", "EXPR", "FORMAL_ARGS", "ACTUAL_ARGS", "TUPLE_EXP_REST", "FUNDEF", "PAT"]
  productions :=
    [("SIMPLE_EXP", ["LPAREN", "EXPR", "RPAREN"]),
      ("SIMPLE_EXP", ["LPAREN", "RPAREN"])] ++
    ["TRUE", "FALSE", "INTEGER", "FLOAT", "IDENT"].map (fun t => ("SIMPLE_EXP", [t])) ++
    [("SIMPLE_EXP", ["SIMPLE_EXP", "DOT", "LPAREN", "EXPR", "RPAREN"]),
      ("APP_EXP", ["SIMPLE_EXP"]),
      ("APP_EXP", ["SIMPLE_EXP", "ACTUAL_ARGS"]),
      ("APP_EXP", ["ARRAY_MAKE", "SIMPLE_EXP", "SIMPLE_EXP"]),
      ("APP_EXP", ["NOT", "APP_EXP"]),
      ("NEG_EXP", ["APP_EXP"]),
      ("NEG_EXP", ["MINUS", "NEG_EXP"]),
      ("NEG_EXP", ["MINUS_DOT", "NEG_EXP"]),
      ("MULT_EXP", ["NEG_EXP"])] ++
    ["STAR_DOT", "SLASH_DOT"].map (fun t => ("MULT_EXP", ["MULT_EXP", t, "NEG_EXP"])) ++
    [("ADD_EXP", ["MULT_EXP"])] ++
    ["PLUS", "MINUS", "PLUS_DOT", "MINUS_DOT"].map
      (fun t => ("ADD_EXP", ["ADD_EXP", t, "MULT_EXP"])) ++
    [("REL_EXP", ["ADD_EXP"])] ++
    ["EQUAL", "LESS_GREATER", "LESS", "GREATER", "LESS_EQUAL", "GREATER_EQUAL"].map
      (fun t => ("REL_EXP", ["REL_EXP", t, "ADD_EXP"])) ++
    [("TUPLE_EXP", ["REL_EXP"]),
      ("TUPLE_EXP", ["REL_EXP", "COMMA", "TUPLE_EXP_REST"]),
      ("TUPLE_EXP_REST", ["REL_EXP"]),
      ("TUPLE_EXP_REST", ["REL_EXP", "COMMA", "TUPLE_EXP_REST"]),
      ("PUT_EXP", ["TUPLE_EXP"]),
      ("PUT_EXP", ["SIMPLE_EXP", "DOT", "LPAREN", "EXPR", "RPAREN", "LESS_MINUS", "EXPR"]),
      ("IF_EXP", ["PUT_EXP"]),
      ("IF_EXP", ["IF", "EXPR", "THEN", "EXPR", "ELSE", "EXPR"]),
      ("LET_EXP", ["LET", "IDENT", "EQUAL", "EXPR", "IN", "EXPR"]),
      ("LET_EXP", ["LET", "REC", "FUNDEF", "IN", "EXPR"]),
      ("LET_EXP", ["LET", "LPAREN", "PAT", "RPAREN", "EQUAL", "EXPR", "IN", "EXPR"]),
      ("FUNDEF", ["IDENT", "FORMAL_ARGS", "EQUAL", "EXPR"]),
      ("FORMAL_ARGS", ["IDENT", "FORMAL_ARGS"]),
      ("FORMAL_ARGS", ["IDENT"]),
      ("ACTUAL_ARGS", ["ACTUAL_ARGS", "SIMPLE_EXP"]),
      ("ACTUAL_ARGS", ["SIMPLE_EXP"]),
      ("PAT", ["PAT", "COMMA", "IDENT"]),
      ("PAT", ["IDENT", "COMMA", "IDENT"]),
      ("EXPR", ["IF_EXP"]),
      ("EXPR", ["IF_EXP", "SEMICOLON", "EXPR"]),
      ("EXPR", ["LET_EXP"])]

/-- A program is an expression. -/
def minCaml : List Declaration :=
  minCamlOutline.declarations ++ [.start (minCamlOutline.nonterminalId "EXPR")]

end CanonicalLR.Examples
