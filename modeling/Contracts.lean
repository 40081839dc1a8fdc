import Contracts.Main
import Contracts.Proofs.Pattern.Reading
import Contracts.Proofs.Directive.Blocks
import Contracts.Proofs.Directive.Growth
import Contracts.Proofs.Directive.Innermost
import Contracts.Proofs.Directive.Merge
import Contracts.Proofs.Directive.Printing
import Contracts.Proofs.Directive.Prologue
import Contracts.Proofs.Directive.Reading
import Contracts.Proofs.Directive.Removal
import Contracts.Proofs.Instrument.Accumulation
import Contracts.Proofs.Instrument.Conservative
import Contracts.Proofs.Instrument.Independence
import Contracts.Proofs.Instrument.Reparse
import Contracts.Proofs.Instrument.Unchanged
import Contracts.Proofs.Layout.Lines
import Contracts.Proofs.Position.Decoding
import Contracts.Proofs.Syntax.Calls
import Contracts.Proofs.Syntax.Lexing
import Contracts.Proofs.Syntax.Statements
import Contracts.Proofs.Syntax.Taking
import Contracts.Proofs.Wrap.Counting
import Contracts.Proofs.Wrap.Erasure
import Contracts.Proofs.Wrap.Nesting
import Contracts.Proofs.Wrap.Rewriting
import Contracts.Proofs.Position.Agreement
import Contracts.Proofs.Directive.Malformed
import Contracts.Proofs.Directive.Choices
import Contracts.Proofs.Instrument.Strictness
import Contracts.Proofs.Command.Inputs
import Contracts.Proofs.Command.Outputs
import Contracts.Proofs.Command.Batch
import Contracts.Proofs.Command.Refusals
import Contracts.Proofs.Command.Configured
import Contracts.Proofs.Pattern.Merging
import Contracts.Proofs.Pattern.Compiling
import Contracts.Proofs.Pattern.Variables
import Contracts.Proofs.Pattern.Generalization
import Contracts.Proofs.Instrument.Forwarding
import Contracts.Proofs.Directive.Marks
import Contracts.Proofs.Instrument.Roles
import Contracts.Proofs.Pattern.Defects
import Contracts.Proofs.Wrap.Recognition
import Contracts.Proofs.Directive.Enclosing
import Contracts.Proofs.Position.Advancing
import Contracts.Proofs.Directive.SingleLine
import Contracts.Proofs.Command.Places
import Contracts.Proofs.Pattern.Bracketing
import Contracts.Proofs.Command.Exclusion
import Contracts.Proofs.Command.Collection
import Contracts.Proofs.Config.Members
import Contracts.Proofs.Wrap.Stability
import Contracts.Proofs.Position.Columns
import Contracts.Proofs.Position.Lookup
