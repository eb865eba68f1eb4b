import CaptureLR.Storage
import CaptureLR.Tree.Summary
import CaptureLR.Tree.Preorder
import CaptureLR.Text.Escaped
import CaptureLR.Language.Reading
import CaptureLR.Lowering.Owner
import CaptureLR.Item.Called
import CaptureLR.Automaton.Canonical
import CaptureLR.Parse.Evaluation
import CaptureLR.Proofs.Grammar.Assembled
import CaptureLR.Proofs.Item.Listing
import CaptureLR.Proofs.Grammar.First
import CaptureLR.Proofs.Item.Closure
import CaptureLR.Proofs.State.Merging
import CaptureLR.Proofs.Item.Advance
import CaptureLR.Proofs.Automaton.Canonical
import CaptureLR.Proofs.Automaton.Row
import CaptureLR.Proofs.Automaton.Insertion
import CaptureLR.Proofs.Automaton.Expansion
import CaptureLR.Proofs.Automaton.Construction
import CaptureLR.Proofs.Automaton.Halting
import CaptureLR.Proofs.Automaton.Harmless
import CaptureLR.Proofs.Automaton.Dropping
import CaptureLR.Proofs.Automaton.Agreement
import CaptureLR.Proofs.Automaton.Reaching
import CaptureLR.Proofs.Lowering.Runs
import CaptureLR.Proofs.Lowering.Draft
import CaptureLR.Proofs.Lowering.Patterns
import CaptureLR.Proofs.Automaton.Expecting
import CaptureLR.Proofs.Automaton.Paths
import CaptureLR.Proofs.Automaton.Lookaheads
import CaptureLR.Proofs.Parse.Table
import CaptureLR.Proofs.Parse.Moves
import CaptureLR.Proofs.Parse.Stacked
import CaptureLR.Proofs.Parse.Soundness
import CaptureLR.Proofs.Parse.Validity
import CaptureLR.Proofs.Parse.ErrorPosition
import CaptureLR.Proofs.Parse.Needed
import CaptureLR.Proofs.Parse.Completeness
import CaptureLR.Proofs.Grammar.Meaning
import CaptureLR.Proofs.Lowering.Writing
import CaptureLR.Proofs.Lowering.Steps
import CaptureLR.Proofs.Lowering.Readings
import CaptureLR.Proofs.Lowering.Reached
import CaptureLR.Proofs.Lowering.Progress
import CaptureLR.Proofs.Grammar.Leading
import CaptureLR.Proofs.Parse.Contraction
import CaptureLR.Proofs.Parse.Endless
import CaptureLR.Proofs.Parse.Termination
import CaptureLR.Proofs.Ordered.Entries
import CaptureLR.Proofs.Table.Loading
import CaptureLR.Proofs.Parse.Checked
import CaptureLR.Proofs.Json.Literals
import CaptureLR.Proofs.Json.Printing
import CaptureLR.Proofs.Table.Texts
import CaptureLR.Proofs.Table.Bounds
import CaptureLR.Proofs.Table.Storing
import CaptureLR.Proofs.Parse.Persistence
import CaptureLR.Proofs.Language.Fields
import CaptureLR.Proofs.Lowering.Labels
import CaptureLR.Proofs.Lowering.Captures
import CaptureLR.Proofs.Parse.Takings
import CaptureLR.Proofs.Parse.Nodes
import CaptureLR.Proofs.Parse.Arrays
import CaptureLR.Proofs.Parse.Drawing
import CaptureLR.Proofs.Automaton.Shape
import CaptureLR.Proofs.Lowering.Visits
import CaptureLR.Proofs.Lowering.Owners
import CaptureLR.Language.Renaming
import CaptureLR.Proofs.Language.Renaming
import CaptureLR.Proofs.Automaton.Recaptured
import CaptureLR.Proofs.Lowering.Renaming
import CaptureLR.Proofs.Parse.Renaming
import CaptureLR.Proofs.Automaton.Ending
import CaptureLR.Proofs.Grammar.Deriving
import CaptureLR.Proofs.Item.Scanning
import CaptureLR.Proofs.Ordered.Occurrences
import CaptureLR.Proofs.Language.Unrolling
import CaptureLR.Proofs.Language.Discovery
import CaptureLR.Proofs.Token.Keywords
import CaptureLR.Proofs.Token.Words
import CaptureLR.Proofs.Token.Ending
import CaptureLR.Proofs.Token.Texts
import CaptureLR.Proofs.Token.Positions
import CaptureLR.Proofs.Tree.Walking
import CaptureLR.Proofs.Automaton.Lanes
import CaptureLR.Proofs.State.Closures
import CaptureLR.Proofs.Automaton.Indexing
import CaptureLR.Proofs.Automaton.Condensing
import CaptureLR.Proofs.Parse.Renumbering
import CaptureLR.Proofs.Parse.Joining
