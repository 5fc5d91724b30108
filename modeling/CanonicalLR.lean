import CanonicalLR.Parser
import CanonicalLR.Parser.Tree
import CanonicalLR.Examples.MinCaml
import CanonicalLR.Examples.Small
import CanonicalLR.First.Nullability
import CanonicalLR.First.Stripping
import CanonicalLR.Grammar.Reachability
import CanonicalLR.Item.Validity
import CanonicalLR.Proofs.ParserCompleteness
import CanonicalLR.Table.Contest
import CanonicalLR.TerminalSet.FlowSolution
import CanonicalLR.TerminalSet.Registers
import CanonicalLR.Parser.Course
import CanonicalLR.Proofs.ParserSafety
import CanonicalLR.Proofs.ConflictResolution
import CanonicalLR.Proofs.CorrectPrefixes
import CanonicalLR.Proofs.FirstStrings
import CanonicalLR.Proofs.Pruning
import CanonicalLR.Proofs.TableErrors
import CanonicalLR.Proofs.StateNumbering
import CanonicalLR.Proofs.ParserTermination
import CanonicalLR.Proofs.ConflictAccounting
import CanonicalLR.Proofs.Renumbering
import CanonicalLR.Proofs.DeclarationOrder
import CanonicalLR.Proofs.LeftRecursion
import CanonicalLR.Proofs.SilentRuns
import CanonicalLR.Proofs.OperatorGrammars
import CanonicalLR.Proofs.OperatorTrees
import CanonicalLR.Proofs.ItemOrigins
import CanonicalLR.Proofs.Accepting
import CanonicalLR.Proofs.DeclarationRecords
import CanonicalLR.Grammar.Session
import CanonicalLR.Proofs.RefusedDeclarations
import CanonicalLR.Proofs.Mentions
import CanonicalLR.Proofs.TableViews
import CanonicalLR.Automaton.Worklist
import CanonicalLR.Proofs.Worklist
import CanonicalLR.Proofs.Stripping
import CanonicalLR.Proofs.ParseTrees
import CanonicalLR.Proofs.ElseGrammars
import CanonicalLR.Proofs.ElseTrees
import CanonicalLR.Grammar.Overrides
import CanonicalLR.Grammar.Indexed
import CanonicalLR.Proofs.Overrides
import CanonicalLR.Text.Reading
import CanonicalLR.Proofs.SymbolNames
import CanonicalLR.Proofs.RuleTexts
import CanonicalLR.Proofs.AutomatonListing
import CanonicalLR.TerminalSet.Bits
import CanonicalLR.Proofs.TerminalSets
import CanonicalLR.Proofs.LeastClosure
import CanonicalLR.Proofs.IndexedBuilder
import CanonicalLR.Proofs.IndexedConstruction
import CanonicalLR.Proofs.RuleNumbering
