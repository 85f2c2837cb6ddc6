import Quasiquote.Node.Equality
import Quasiquote.Template.Program
import Quasiquote.Template.Evaluation
import Quasiquote.Program
import Quasiquote.Macro.Inline
import Quasiquote.Macro.Extension
import Quasiquote.Unit.Lowering
import Quasiquote.Unit.Namespace
import Quasiquote.Unit.Evaluator
import Quasiquote.Settings.Basic
import Quasiquote.Session.Descriptors
import Quasiquote.Typing.Infer
import Quasiquote.Session.Compile
import Quasiquote.Text.Hidden
import Quasiquote.CommandLine.Run
import Quasiquote.Main
import Quasiquote.Proofs.NameMap
import Quasiquote.Proofs.Typing.Congruence
import Quasiquote.Proofs.Session.Steps
import Quasiquote.Proofs.Session.Runs
import Quasiquote.Proofs.Session.Termination
import Quasiquote.Proofs.Text.Digits
import Quasiquote.Proofs.Macro.Descriptor
import Quasiquote.Proofs.Session.Names
import Quasiquote.Proofs.Files
import Quasiquote.Proofs.Session.Assertions
import Quasiquote.Proofs.Session.Leftovers
import Quasiquote.Proofs.Template.Balance
import Quasiquote.Proofs.Template.Ordinals
import Quasiquote.Proofs.Session.Settling
import Quasiquote.Proofs.Session.LifeCycle
import Quasiquote.Proofs.Session.Numbering
import Quasiquote.Proofs.Session.Clashes
import Quasiquote.Proofs.Session.Inheritance
import Quasiquote.Proofs.Session.Incoming
import Quasiquote.Proofs.Session.Expanded
import Quasiquote.Proofs.Grammar.Combinators
import Quasiquote.Proofs.Program.Bodies
import Quasiquote.Proofs.Program.Calls
import Quasiquote.Proofs.Program.Literals
import Quasiquote.Proofs.Program.Strings
import Quasiquote.Proofs.Session.Moves
import Quasiquote.Proofs.Session.Persistence
import Quasiquote.Proofs.Session.Output
import Quasiquote.Proofs.Types.Descriptors
import Quasiquote.Proofs.Session.Records
import Quasiquote.Proofs.Session.Forward
import Quasiquote.Proofs.Unit.Loading
import Quasiquote.Proofs.Unit.Binding
import Quasiquote.Proofs.Template.Phases
import Quasiquote.Proofs.Macro.Settled
import Quasiquote.Proofs.Macro.Policies
import Quasiquote.Proofs.Program.Anchors
import Quasiquote.Proofs.Program.Commands
import Quasiquote.Proofs.Node.Grouping
import Quasiquote.Proofs.Program.Operators
import Quasiquote.Proofs.Macro.Signature
import Quasiquote.Proofs.Macro.Definition
import Quasiquote.Proofs.Macro.Records
import Quasiquote.Proofs.Macro.Table
import Quasiquote.Proofs.Types.Search
import Quasiquote.Proofs.Session.Methods
import Quasiquote.Proofs.Session.ClassMacros
import Quasiquote.Proofs.Unit.Endings
import Quasiquote.Proofs.Unit.Arithmetic
import Quasiquote.Proofs.Session.Marks
import Quasiquote.Proofs.CommandLine.Runs
