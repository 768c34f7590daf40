import Dialogue.Engine
import Dialogue.Engine.ConfigText
import Dialogue.Flow.Graph
import Dialogue.Flow.Schema
import Dialogue.Service.Script
import Dialogue.Proofs.Journal
import Dialogue.Proofs.Telling
import Dialogue.Proofs.Execution
import Dialogue.Proofs.Soundness
import Dialogue.Proofs.Speaking
import Dialogue.Proofs.Step
import Dialogue.Proofs.Turn
import Dialogue.Proofs.Perception
import Dialogue.Proofs.Cap
import Dialogue.Proofs.Run
import Dialogue.Proofs.Utterance
import Dialogue.Proofs.Silence
import Dialogue.Proofs.Segmentation
import Dialogue.Proofs.Mishearing
import Dialogue.Proofs.Lifecycle
import Dialogue.Proofs.Retries
import Dialogue.Proofs.Budget
import Dialogue.Proofs.Counters
import Dialogue.Proofs.Grammar
import Dialogue.Proofs.Parking
import Dialogue.Proofs.Parsing
import Dialogue.Proofs.Disjunction
import Dialogue.Proofs.Batch
import Dialogue.Proofs.Alike
import Dialogue.Proofs.Listening
import Dialogue.Proofs.Validation
import Dialogue.Proofs.Interruption
import Dialogue.Proofs.Members
import Dialogue.Proofs.Omission
import Dialogue.Proofs.Widening
import Dialogue.Proofs.Reloading
import Dialogue.Proofs.Replay
import Dialogue.Proofs.Acts
import Dialogue.Proofs.Writing
import Dialogue.Proofs.Reporting
import Dialogue.Proofs.Onset
import Dialogue.Proofs.Airing
import Dialogue.Proofs.Noting
import Dialogue.Proofs.Unswayed
import Dialogue.Proofs.BargeIn
import Dialogue.Proofs.Choosing
import Dialogue.Proofs.Course
import Dialogue.Proofs.Balance
import Dialogue.Proofs.Keeping
import Dialogue.Proofs.Scoring
import Dialogue.Proofs.Consulting
import Dialogue.Proofs.Renewal
import Dialogue.Proofs.Timing
import Dialogue.Proofs.Rounding
import Dialogue.Proofs.Sampling
import Dialogue.Proofs.Comparing
import Dialogue.Proofs.Scanning
import Dialogue.Proofs.Settling
import Dialogue.Proofs.Filling
import Dialogue.Proofs.Lexing
import Dialogue.Proofs.Quoting
import Dialogue.Proofs.Shortest
import Dialogue.Proofs.Numerals
import Dialogue.Proofs.Rereading
import Dialogue.Proofs.Finding
import Dialogue.Proofs.Naming
import Dialogue.Proofs.Container
import Dialogue.Proofs.Cutting
import Dialogue.Proofs.Reading
import Dialogue.Proofs.Unfencing
import Dialogue.Proofs.Assigning
import Dialogue.Proofs.Configuring
import Dialogue.Proofs.Scripting
