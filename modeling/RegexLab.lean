import RegexLab.Main
import RegexLab.Proofs.Automaton.StockLanguage
import RegexLab.Proofs.Grammar.Viable
import RegexLab.Proofs.Shell.Batch
import RegexLab.Proofs.Workers.Delivery
import RegexLab.Proofs.Postfix.Fragments
import RegexLab.Proofs.Regex.Trim
import RegexLab.Proofs.Thompson
import RegexLab.Proofs.Workers.Account
import RegexLab.Proofs.Workers.Turns
import RegexLab.Proofs.Workers.Outcome
import RegexLab.Proofs.Automaton.Closure
import RegexLab.Proofs.Postfix.NormalForm
import RegexLab.Proofs.Postfix.Refusal
import RegexLab.Proofs.Text.Arguments
import RegexLab.Proofs.Text.Spans
import RegexLab.Proofs.Shell.Line
import RegexLab.Proofs.Shell.Settings
import RegexLab.Proofs.Grammar.Listing
import RegexLab.Proofs.Shell.Reading
import RegexLab.Proofs.Shell.Console
import RegexLab.Proofs.Text.Endings
import RegexLab.Proofs.Shell.Start
import RegexLab.Proofs.Shell.Endings
import RegexLab.Proofs.Automaton.Frontier
