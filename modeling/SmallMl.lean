import SmallMl.Source.Cursor
import SmallMl.Typing.FreshName
import SmallMl.Require
import SmallMl.Tree.Preorder
import SmallMl.Command.Run
import SmallMl.Main
import SmallMl.Proofs.Grammar.Finality
import SmallMl.Proofs.Grammar.Completion
import SmallMl.Proofs.Grammar.Extent
import SmallMl.Proofs.Grammar.LetChain
import SmallMl.Proofs.Grammar.Soundness
import SmallMl.Proofs.Token.Cutting
import SmallMl.Proofs.Grammar.RoundTrip
import SmallMl.Proofs.Grammar.Excerpt
import SmallMl.Proofs.Token.Respelling
import SmallMl.Proofs.Token.Matching
import SmallMl.Proofs.Grammar.Layout
import SmallMl.Proofs.Command.Modes
import SmallMl.Proofs.Command.Groups
import SmallMl.Proofs.Grammar.LetGroup
import SmallMl.Proofs.Grammar.Precedence
import SmallMl.Proofs.Grammar.Sequence
import SmallMl.Proofs.Grammar.NestedIf
import SmallMl.Proofs.Grammar.WellFormed
import SmallMl.Proofs.Token.Longest
import SmallMl.Proofs.Tree.Outline
import SmallMl.Proofs.Grammar.Faithful
import SmallMl.Proofs.Typing.Refinement
import SmallMl.Proofs.Typing.Rendering
import SmallMl.Proofs.Typing.Placeholder
import SmallMl.Proofs.Typing.Names
import SmallMl.Proofs.Grammar.Diagnosis
import SmallMl.Proofs.Grammar.Unclosed
import SmallMl.Proofs.Token.Integer
import SmallMl.Proofs.Command.Table
import SmallMl.Proofs.Command.Dispatch
import SmallMl.Proofs.Command.History
import SmallMl.Proofs.Source.Positions
import SmallMl.Proofs.Token.Float
import SmallMl.Proofs.Command.Rows
