import DocCursor.Proofs.Access
import DocCursor.Proofs.Provenance
import DocCursor.Proofs.Attempt
import DocCursor.Proofs.Matching
import DocCursor.Proofs.FirstDefect
import DocCursor.Proofs.Floor
import DocCursor.Proofs.Survivors
import DocCursor.Proofs.Significant
import DocCursor.Proofs.Simulation
import DocCursor.Proofs.Transparency
import DocCursor.Proofs.Offset
import DocCursor.Proofs.Tally
import DocCursor.Proofs.Frame
import DocCursor.Proofs.Join
import DocCursor.Proofs.Walk
import DocCursor.Proofs.Split
import DocCursor.Proofs.Visit
import DocCursor.Proofs.Progress
import DocCursor.Proofs.Shift
import DocCursor.Proofs.Kinds
import DocCursor.Proofs.Message
