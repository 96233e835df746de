import BaseLang.Command.Directory
import BaseLang.Main
import BaseLang.Proofs.Printing.RoundTrip
import BaseLang.Proofs.Resolving.Scoping
import BaseLang.Proofs.Typing.Acceptance
import BaseLang.Tree.Views
import BaseLang.Proofs.Renaming.Resolving
import BaseLang.Proofs.Renaming.Typing
import BaseLang.Proofs.Grammar.Placing
import BaseLang.Proofs.Resolving.Faults
import BaseLang.Proofs.Reporting.Expressions
import BaseLang.Proofs.Reporting.Statements
import BaseLang.Proofs.Reporting.Programs
import BaseLang.Proofs.Reporting.InOrder
import BaseLang.Proofs.Renaming.Formatting
import BaseLang.Proofs.Concrete.Operators
import BaseLang.Proofs.Concrete.Statements
import BaseLang.Proofs.Concrete.Phrases
import BaseLang.Proofs.Concrete.Programs
import BaseLang.Proofs.Concrete.Language
import BaseLang.Proofs.Scanning.Tiling
import BaseLang.Proofs.Scanning.Longest
import BaseLang.Proofs.Scanning.LineByLine
import BaseLang.Proofs.Scanning.Layout
import BaseLang.Proofs.Printing.Content
import BaseLang.Proofs.Isolation.Functions
import BaseLang.Proofs.Resolving.Chains
import BaseLang.Proofs.Resolving.WellFormed
import BaseLang.Proofs.Resolving.Nominal
import BaseLang.Proofs.Resolving.Linked
import BaseLang.Proofs.Typing.Suppression
import BaseLang.Proofs.Grammar.SourceOrder
import BaseLang.Proofs.Isolation.Prefixes
import BaseLang.Proofs.Renaming.Consistent
import BaseLang.Proofs.Renaming.Analysis
import BaseLang.Proofs.Typing.Values
import BaseLang.Proofs.Grammar.Parenthesised
import BaseLang.Proofs.Parsing.Termination
import BaseLang.Proofs.Parsing.Locality
import BaseLang.Proofs.Resolving.ScopeStack
import BaseLang.Proofs.Typing.Statements
import BaseLang.Proofs.Grammar.Concatenation
import BaseLang.Proofs.Parsing.Quoting
import BaseLang.Proofs.Reporting.Snippets
import BaseLang.Proofs.Printing.Annotated
import BaseLang.Proofs.Resolving.Parameters
import BaseLang.Proofs.Scanning.Moves
import BaseLang.Proofs.Reporting.Outcomes
import BaseLang.Proofs.Resolving.Restoring
