import DocModelLexer.Diagnostic
import DocModelLexer.Grammar.ByLine
import DocModelLexer.Main
import DocModelLexer.Recipe
import DocModelLexer.Proofs.Command.LineEnds
import DocModelLexer.Proofs.Command.Precedence
import DocModelLexer.Proofs.Cursor.LineTable
import DocModelLexer.Proofs.Cursor.Runs
import DocModelLexer.Proofs.Grammar.BlankLine
import DocModelLexer.Proofs.Grammar.Cause
import DocModelLexer.Proofs.Grammar.Respacing
import DocModelLexer.Proofs.Scan.Windows
import DocModelLexer.Proofs.Session.Backpressure
import DocModelLexer.Proofs.Session.Cancellation
import DocModelLexer.Proofs.Tokenize.Caret
import DocModelLexer.Proofs.Tokenize.Diagnosis
import DocModelLexer.Proofs.Tokenize.Dump
import DocModelLexer.Proofs.Watch.Freshness
