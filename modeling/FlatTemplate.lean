import FlatTemplate.Text.Letter
import FlatTemplate.Text.Numeral
import FlatTemplate.Text.Blank
import FlatTemplate.Text.Combining
import FlatTemplate.Text.Unprintable
import FlatTemplate.Template
import FlatTemplate.Template.Printer
import FlatTemplate.Tree
import FlatTemplate.Tree.Reading
import FlatTemplate.Tree.Place
import FlatTemplate.Tree.Build
import FlatTemplate.Token.Lexer
import FlatTemplate.Template.Parser
import FlatTemplate.TemplateSet
import FlatTemplate.Config
import FlatTemplate.Variable
import FlatTemplate.Rewrite.Match
import FlatTemplate.Rewrite.Apply
import FlatTemplate.Hygiene
import FlatTemplate.Session
import FlatTemplate.Shape
import FlatTemplate.Interchange.Tree
import FlatTemplate.Proofs.Except
import FlatTemplate.Proofs.Template.Entries
import FlatTemplate.Proofs.Tree.Holding
import FlatTemplate.Proofs.Template.Rewriting
import FlatTemplate.Proofs.Tree.Searching
import FlatTemplate.Proofs.Template.Contexts
import FlatTemplate.Proofs.Tree.Locating
import FlatTemplate.Proofs.Tree.Exchanging
import FlatTemplate.Proofs.Tree.Applying
import FlatTemplate.Proofs.Session.Running
import FlatTemplate.Proofs.Template.Spelling
import FlatTemplate.Proofs.Termination.Lowering
import FlatTemplate.Proofs.Tree.Respelling
import FlatTemplate.Proofs.Session.Canonicalizing
import FlatTemplate.Proofs.Template.Proper
import FlatTemplate.Proofs.Text.Characters
import FlatTemplate.Proofs.Template.Legible
import FlatTemplate.Proofs.Parser.Tokens
import FlatTemplate.Proofs.Parser.Parsing
import FlatTemplate.Proofs.Tree.Storing
import FlatTemplate.Proofs.Parser.Parsed
import FlatTemplate.Proofs.Template.Governing
import FlatTemplate.Proofs.Template.Naming
import FlatTemplate.Proofs.Termination.Passes
import FlatTemplate.Proofs.Template.Hygiene
import FlatTemplate.Proofs.Rendering.Interpretation
import FlatTemplate.Proofs.Rendering.Renaming
import FlatTemplate.Proofs.Template.Nesting
import FlatTemplate.Proofs.Rendering.Hoisting
import FlatTemplate.Proofs.Rendering.Preserving
import FlatTemplate.Proofs.Ordering.Events
import FlatTemplate.Proofs.Ordering.Exactness
import FlatTemplate.Proofs.Ordering.Hoisting
import FlatTemplate.Proofs.Ordering.Tracing
import FlatTemplate.Proofs.Ordering.Attributing
import FlatTemplate.Proofs.Tree.Ownership
import FlatTemplate.Proofs.Session.Safety
import FlatTemplate.Proofs.Template.Forms
import FlatTemplate.Proofs.Template.Canonical
import FlatTemplate.Proofs.Session.Flattening
import FlatTemplate.Proofs.Temporaries.Moving
import FlatTemplate.Proofs.Temporaries.Placing
import FlatTemplate.Proofs.Temporaries.Using
import FlatTemplate.Proofs.Temporaries.Scoping
import FlatTemplate.Proofs.Scope.Resolving
import FlatTemplate.Proofs.Session.Assigning
import FlatTemplate.Proofs.Session.Evaluating
import FlatTemplate.Proofs.Session.Resolving
import FlatTemplate.Proofs.Printing.Lexemes
import FlatTemplate.Proofs.Printing.Cutting
import FlatTemplate.Proofs.Printing.Merging
import FlatTemplate.Proofs.Printing.Scanning
import FlatTemplate.Proofs.Printing.Pieces
import FlatTemplate.Proofs.Printing.Rereading
import FlatTemplate.Proofs.Printing.RoundTrip
import FlatTemplate.Proofs.Printing.Exact
import FlatTemplate.Proofs.Template.Skeleton
import FlatTemplate.Proofs.Session.Keeping
import FlatTemplate.Proofs.Template.Relabelling
import FlatTemplate.Proofs.Template.Equivariance
import FlatTemplate.Proofs.Template.Lockstep
import FlatTemplate.Proofs.Template.Translating
import FlatTemplate.Proofs.Session.Resuming
import FlatTemplate.Proofs.Template.Appending
import FlatTemplate.Proofs.Session.Appending
import FlatTemplate.Proofs.Parser.Texts
import FlatTemplate.Proofs.Tree.Nodes
import FlatTemplate.Proofs.Parser.Building
import FlatTemplate.Proofs.Session.Naming
import FlatTemplate.Proofs.Template.Respelled
import FlatTemplate.Proofs.Printing.Canonical
import FlatTemplate.Proofs.Session.Reprinting
import FlatTemplate.Proofs.Template.Heads
import FlatTemplate.Proofs.Temporaries.Conserving
import FlatTemplate.Proofs.Session.Conserving
import FlatTemplate.Proofs.Shape.Violations
import FlatTemplate.Proofs.Shape.Agreement
import FlatTemplate.Proofs.Session.Limiting
import FlatTemplate.Proofs.Cursor.Lexing
import FlatTemplate.Proofs.Cursor.Parsing
import FlatTemplate.Proofs.Cursor.Positions
import FlatTemplate.Proofs.Cursor.Reporting
import FlatTemplate.Proofs.Tree.Standing
import FlatTemplate.Proofs.Tree.Splicing
import FlatTemplate.Proofs.Tree.Renaming
import FlatTemplate.Proofs.Parser.Strings
import FlatTemplate.Proofs.Scope.Checking
import FlatTemplate.Proofs.Temporaries.Counting
import FlatTemplate.Proofs.Session.Accounting
import FlatTemplate.Proofs.Printing.Spelling
import FlatTemplate.Proofs.Printing.Chaining
import FlatTemplate.Proofs.Parser.Defining
import FlatTemplate.Proofs.Printing.Layout
import FlatTemplate.Proofs.Tree.Visiting
