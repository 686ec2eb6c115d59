import PrecedenceGrammar.Journal
import PrecedenceGrammar.Main
import PrecedenceGrammar.Proofs.ParserCompleteness
import PrecedenceGrammar.Proofs.ParserSoundness
import PrecedenceGrammar.Proofs.DerivedEnds
import PrecedenceGrammar.Proofs.VerdictStability
import PrecedenceGrammar.Proofs.ParserInvariant
import PrecedenceGrammar.Proofs.GeneratedSentences
import PrecedenceGrammar.Proofs.SimpleGrammars
import PrecedenceGrammar.Proofs.Documents
import PrecedenceGrammar.Proofs.ReportSections
import PrecedenceGrammar.Proofs.ParserTermination
import PrecedenceGrammar.Proofs.SaturationRounds
import PrecedenceGrammar.Proofs.ProgramRuns
import PrecedenceGrammar.Proofs.Reductions
import PrecedenceGrammar.Proofs.Lookahead
import PrecedenceGrammar.Proofs.DeclarationOrder
import PrecedenceGrammar.Proofs.ExactVerdicts
import PrecedenceGrammar.Proofs.SettledSentences
import PrecedenceGrammar.Proofs.SteeredTrees
import PrecedenceGrammar.Proofs.PrintedDocuments
import PrecedenceGrammar.Proofs.TableReading
import PrecedenceGrammar.Proofs.Warnings
