import MiniC.Command.Run
import MiniC.Frontend
import MiniC.Main
import MiniC.Proofs.EarliestError
import MiniC.Proofs.RoundTrip
import MiniC.Proofs.Tiling
import MiniC.Proofs.Yield
import MiniC.Proofs.Mirror
import MiniC.Proofs.Cursor
import MiniC.Proofs.Concatenation
import MiniC.Proofs.Layout
import MiniC.Proofs.Shape
import MiniC.Proofs.Termination
import MiniC.Proofs.Sharing
import MiniC.Proofs.Places
import MiniC.Proofs.Moves
import MiniC.Proofs.LifeCycle
import MiniC.Proofs.Brackets
import MiniC.Proofs.Locations
import MiniC.Proofs.QuotedLines
import MiniC.Proofs.Separation
import MiniC.Proofs.Dump
import MiniC.Proofs.Caret
