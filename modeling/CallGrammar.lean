import CallGrammar.FileTree
import CallGrammar.Main
import CallGrammar.Numeral
import CallGrammar.Proofs.Disambiguation
import CallGrammar.Proofs.RoundTrip
import CallGrammar.Proofs.Words
import CallGrammar.Proofs.Refusal
import CallGrammar.Proofs.Refusal.Grammar
import CallGrammar.Proofs.Faults
import CallGrammar.Proofs.Adjacent
import CallGrammar.Proofs.Spacing
import CallGrammar.Proofs.Reading.Continues
import CallGrammar.Proofs.Seam
import CallGrammar.Proofs.Concatenation
import CallGrammar.Proofs.Nesting
import CallGrammar.Proofs.Subtree
import CallGrammar.Proofs.Subtree.Planted
import CallGrammar.Proofs.SpanTree
import CallGrammar.Proofs.Selection
import CallGrammar.Proofs.Horizon
import CallGrammar.Proofs.Foresight
import CallGrammar.Proofs.Diagnostics
import CallGrammar.Proofs.Progress
import CallGrammar.Proofs.LongestMatch
import CallGrammar.Proofs.Partition
import CallGrammar.Proofs.Comments
import CallGrammar.Proofs.Reserved
import CallGrammar.Proofs.Labels
import CallGrammar.Proofs.Climbing
import CallGrammar.Proofs.Forms
import CallGrammar.Proofs.Atoms
import CallGrammar.Proofs.Reconstruction
import CallGrammar.Proofs.Positions
import CallGrammar.Proofs.CallText
import CallGrammar.Proofs.Balance
import CallGrammar.Proofs.Twin
import CallGrammar.Proofs.Twin.Lists
import CallGrammar.Proofs.Openers
import CallGrammar.Proofs.Trailing
import CallGrammar.Proofs.Trailing.Grammar
import CallGrammar.Proofs.Stray
import CallGrammar.Proofs.Commas
import CallGrammar.Proofs.Exchange
import CallGrammar.Proofs.Exchange.Grammar
import CallGrammar.Proofs.Separators
import CallGrammar.Proofs.Chains
import CallGrammar.Proofs.Breaks
import CallGrammar.Proofs.Breaks.Grammar
import CallGrammar.Proofs.Breaks.Found
import CallGrammar.Proofs.LineBreaks
import CallGrammar.Proofs.Bare
import CallGrammar.Proofs.ByteOrder
import CallGrammar.Proofs.Layers
import CallGrammar.Proofs.Strings
import CallGrammar.Proofs.Indentation.Blocks
import CallGrammar.Proofs.FormReader
